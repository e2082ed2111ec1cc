import TypedClient.Failure
import TypedClient.Text.Cut

namespace TypedClient

/-!
# Addresses

Web addresses are taken apart into scheme, authority, path, query and fragment, and relative addresses
are resolved against an address.

* `Url`: the parts of an address.
* `Url.split`, `Url.unsplit`: between the text and the parts.
* `Url.join`: a relative address seen from another one.
-/

/-- The parts of an address; a part that is absent is empty. -/
structure Url where
  scheme : String
  authority : List Char
  path : List Char
  query : List Char
  fragment : List Char
  deriving DecidableEq, Repr

namespace Url

/-- Schemes whose addresses have an authority. -/
def withAuthority : List String :=
  ["", "ftp", "http", "gopher", "nntp", "telnet", "imap", "wais", "file", "mms", "https", "shttp",
    "snews", "prospero", "rtsp", "rtspu", "rsync", "svn", "svn+ssh", "sftp", "nfs", "git", "git+ssh",
    "ws", "wss"]

/-- Schemes whose addresses can be relative. -/
def relative : List String :=
  ["", "ftp", "http", "gopher", "nntp", "imap", "wais", "file", "https", "shttp", "mms", "prospero",
    "rtsp", "rtspu", "sftp", "svn", "svn+ssh", "ws", "wss"]

/-- Cuts at the first `mark`; the second half is empty if there is none. -/
def cut (mark : Char) (cs : List Char) : List Char × List Char :=
  (Text.before mark cs, (Text.after? mark cs).getD [])

/-! ### The authority -/

/-- Characters that turn into one of the marks of an address when compatible characters are unified. -/
def disguisedMarks : List Nat :=
  [0x2047, 0x2048, 0x2049, 0x2100, 0x2101, 0x2105, 0x2106, 0x2A74, 0xFE13, 0xFE16, 0xFE55, 0xFE56,
    0xFE5F, 0xFE6B, 0xFF03, 0xFF0F, 0xFF1A, 0xFF1F, 0xFF20]

/-- A number from 0 to 255 without zeros in front. -/
def isOctet (cs : List Char) : Bool :=
  1 ≤ cs.length && cs.length ≤ 3 && cs.all Char.isDigit && (cs.length == 1 || cs.head? != some '0')
    && cs.foldl (fun n c => n * 10 + (c.toNat - '0'.toNat)) 0 ≤ 255

/-- Four octets with dots between them. -/
def isDottedQuad (cs : List Char) : Bool :=
  let parts := Text.pieces '.' cs
  parts.length == 4 && parts.all isOctet

/-- One to four hexadecimal digits. -/
def isHexGroup (cs : List Char) : Bool :=
  1 ≤ cs.length && cs.length ≤ 4
    && cs.all fun c => c.isDigit || ('a' ≤ c && c ≤ 'f') || ('A' ≤ c && c ≤ 'F')

/-- A numeric host of eight groups.  One run of zero groups may be left out, an empty first or last part
    being allowed only next to it; the last two groups may be a dotted quad, and a zone may follow
    after a percent sign. -/
def isNumericHost (host : List Char) : Bool :=
  let address := Text.before '%' host
  let zoneOk := match Text.after? '%' host with
    | none => true
    | some zone => !zone.isEmpty && !zone.contains '%'
  let parts := Text.pieces ':' address
  let quad := (parts.getLast?.getD []).contains '.'
  let quadOk := !quad || isDottedQuad (parts.getLast?.getD [])
  let parts := if quad then parts.dropLast ++ [['0'], ['0']] else parts
  let gaps := (parts.drop 1).dropLast.filter (·.isEmpty)
  let leading := (parts.head?.getD []).isEmpty
  let trailing := (parts.getLast?.getD []).isEmpty
  let groups := parts.filter (!·.isEmpty)
  zoneOk && quadOk && 3 ≤ parts.length && parts.length ≤ 9 && groups.all isHexGroup
    && (if gaps.isEmpty then !leading && !trailing && parts.length == 8
      else
        gaps.length == 1 && groups.length ≤ 7
          && (!leading || (parts.drop 1).head? == some [])
          && (!trailing || parts.dropLast.getLast? == some []))

/-- A host in brackets: numeric, or of a later version with its number. -/
def isBracketedHost (host : List Char) : Bool :=
  match host with
  | 'v' :: rest =>
    let digits := Text.before '.' rest
    !digits.isEmpty && digits.all (fun c => isHexGroup [c])
      && (match Text.after? '.' rest with
        | some tail => !tail.isEmpty
        | none => false)
  | _ => isNumericHost host

/-- Do brackets stand around a numeric host?  Behind the last at sign nothing stands before the opening
    one, and behind the closing one only a port may follow.  An opening bracket in front of the at
    sign does not count: then the host itself must be numeric. -/
def hasBracketedHost (cs : List Char) : Bool :=
  let place := (Text.cutLast '@' cs).2
  match Text.after? '[' place with
  | none => isBracketedHost (Text.before ':' place)
  | some rest =>
    let port := (Text.after? ']' rest).getD []
    (Text.before '[' place).isEmpty && (port.isEmpty || port.head? == some ':')
      && isBracketedHost (Text.before ']' rest)

/-- Can the characters be an authority?  Brackets come in pairs around a numeric host, and no character
    is a mark in disguise. -/
def isAuthority (cs : List Char) : Bool :=
  let opens := cs.contains '['
  let closes := cs.contains ']'
  (opens == closes) && (!opens || hasBracketedHost cs)
    && cs.all fun c => !disguisedMarks.contains c.toNat

/-! ### Taking apart and putting together -/

/-- A character that a scheme may hold. -/
def isSchemeChar (c : Char) : Bool :=
  c.isAlphanum || c == '+' || c == '-' || c == '.'

/-- Splits off the scheme, in lower case, if the text begins with one. -/
def splitScheme (default : String) (cs : List Char) : String × List Char :=
  match cs, Text.after? ':' cs with
  | c :: _, some rest =>
    let name := Text.before ':' cs
    if c.isAlpha && name.all isSchemeChar then (String.ofList (name.map Char.toLower), rest)
    else (default, cs)
  | _, _ => (default, cs)

/-- The parts of an address.  Controls and blanks in front are dropped, tabs and line ends everywhere;
    `default` is the scheme of an address that does not name one. -/
def split (default : String) (address : String) : Except Failure Url :=
  let cs := (address.toList.dropWhile fun c => c.toNat ≤ 0x20).filter fun c =>
    c != '\t' && c != '\r' && c != '\n'
  let (scheme, rest) := splitScheme default cs
  let (authority, rest) :=
    match rest with
    | '/' :: '/' :: tail =>
      (tail.takeWhile fun c => c != '/' && c != '?' && c != '#',
        tail.dropWhile fun c => c != '/' && c != '?' && c != '#')
    | _ => ([], rest)
  let (rest, fragment) := cut '#' rest
  let (path, query) := cut '?' rest
  if isAuthority authority then .ok { scheme, authority, path, query, fragment }
  else .error (.access .invalidAddress)

/-- The text of an address; an empty query or fragment is left out with its mark.  An empty authority
    is written where the scheme has authorities, unless the path begins with two slashes itself. -/
def unsplit (u : Url) : String :=
  let doubled := u.path.take 2 = ['/', '/']
  let hier :=
    if !u.authority.isEmpty || (u.scheme != "" && withAuthority.contains u.scheme && !doubled) then
      let path := if u.path.isEmpty || u.path.head? = some '/' then u.path else '/' :: u.path
      '/' :: '/' :: (u.authority ++ path)
    else u.path
  (if u.scheme = "" then "" else u.scheme ++ ":")
    ++ String.ofList (hier
      ++ (if u.query.isEmpty then [] else '?' :: u.query)
      ++ (if u.fragment.isEmpty then [] else '#' :: u.fragment))

/-! ### Resolving -/

/-- Cuts the parameters off the last segment of a path: what stands from its first semicolon on. -/
def cutParameters (path : List Char) : List Char × List Char :=
  let (head, segment) := Text.cutLast '/' path
  (head ++ Text.before ';' segment, (Text.after? ';' segment).getD [])

/-- A path with its parameters put back. -/
def putParameters (path parameters : List Char) : List Char :=
  if parameters.isEmpty then path else path ++ ';' :: parameters

/-- The segments without the empty ones, except at the two ends. -/
def dropInnerEmpty (segments : List (List Char)) : List (List Char) :=
  match segments with
  | [] => []
  | [s] => [s]
  | s :: rest => s :: (rest.dropLast.filter (!·.isEmpty) ++ rest.getLast?.toList)

/-- Takes the steps back: two dots take back the segment before, if there is one, and a single dot says
    nothing. -/
def resolveSegments (segments : List (List Char)) : List (List Char) :=
  (segments.foldl
    (fun stack segment =>
      if segment = ['.', '.'] then stack.drop 1
      else if segment = ['.'] then stack else segment :: stack) []).reverse

/-- The path that a relative path names when it is seen from a base path. -/
def joinPaths (base path : List Char) : List Char :=
  let baseSegments :=
    let segments := Text.pieces '/' base
    if segments.getLast? = some [] then segments else segments.dropLast
  let segments :=
    if path.head? = some '/' then Text.pieces '/' path
    else dropInnerEmpty (baseSegments ++ Text.pieces '/' path)
  let resolved := resolveSegments segments
  let resolved :=
    if segments.getLast? = some ['.'] ∨ segments.getLast? = some ['.', '.'] then resolved ++ [[]]
    else resolved
  let joined := Text.joinPieces '/' resolved
  if joined.isEmpty then ['/'] else joined

/-- A relative address seen from a base address.  An address with a scheme of its own stands for
    itself, one with an authority keeps it, and an empty path means the base's path. -/
def join (base address : String) : Except Failure String := do
  if address = "" then return base
  let b ← split "" base
  let u ← split b.scheme address
  if u.scheme != b.scheme || !relative.contains u.scheme then return address
  let (basePath, baseParameters) := cutParameters b.path
  let (path, parameters) := cutParameters u.path
  if withAuthority.contains u.scheme && !u.authority.isEmpty then
    return unsplit { u with path := putParameters path parameters }
  let authority := if withAuthority.contains u.scheme then b.authority else u.authority
  if path.isEmpty && parameters.isEmpty then
    return unsplit
      { u with
        authority
        path := putParameters basePath baseParameters
        query := if u.query.isEmpty then b.query else u.query }
  return unsplit { u with authority, path := putParameters (joinPaths basePath path) parameters }

end Url

end TypedClient
