namespace TypedClient.Text

/-!
# Cutting and joining

Texts are cut at the first or at every occurrence of a mark and put together again.

* `before`, `after?`: the two sides of a mark's first occurrence.
* `pieces`: everything between the occurrences of a mark.
* `piecesUpTo`: the pieces between the first occurrences of a passage.
* `replaceAll`: every occurrence of a passage replaced, from left to right.
* `contains`: does a passage occur.
-/

/-- What stands before the first `mark`; everything, if there is none. -/
def before (mark : Char) (cs : List Char) : List Char :=
  cs.takeWhile (· != mark)

/-- What stands after the first `mark`, if there is one. -/
def after? (mark : Char) : List Char → Option (List Char)
  | [] => none
  | c :: rest => if c = mark then some rest else after? mark rest

/-- What follows `mark`, if the text begins with it. -/
def past? (mark : Char) : List Char → Option (List Char)
  | c :: rest => if c = mark then some rest else none
  | [] => none

/-- The pieces between the occurrences of `mark`; a text with `n` of them has `n + 1` pieces. -/
def pieces (mark : Char) : List Char → List (List Char)
  | [] => [[]]
  | c :: rest =>
    if c = mark then [] :: pieces mark rest
    else
      match pieces mark rest with
      | [] => [[c]]
      | piece :: others => (c :: piece) :: others

/-- Pieces put together with `mark` between neighbours. -/
def joinPieces (mark : Char) : List (List Char) → List Char
  | [] => []
  | [piece] => piece
  | piece :: others => piece ++ mark :: joinPieces mark others

/-- Cuts a text at the last `mark`: what stands up to and with it, and what follows. -/
def cutLast (mark : Char) (cs : List Char) : List Char × List Char :=
  let tail := (cs.reverse.takeWhile (· != mark)).reverse
  (cs.take (cs.length - tail.length), tail)

/-- Replaces the occurrences of `passage` from left to right; `skip` characters of an occurrence
    that has been replaced are still to be passed over. -/
def replaceFrom (passage replacement : List Char) : (skip : Nat) → List Char → List Char
  | _, [] => []
  | skip + 1, _ :: rest => replaceFrom passage replacement skip rest
  | 0, c :: rest =>
    if passage.isPrefixOf (c :: rest) then
      replacement ++ replaceFrom passage replacement (passage.length - 1) rest
    else c :: replaceFrom passage replacement 0 rest

/-- A text with every occurrence of `passage` replaced; occurrences do not overlap. -/
def replaceAll (passage replacement s : String) : String :=
  String.ofList (replaceFrom passage.toList replacement.toList 0 s.toList)

/-- Puts a character in front of the first piece. -/
def consPiece (c : Char) : List (List Char) → List (List Char)
  | [] => [[c]]
  | piece :: others => (c :: piece) :: others

/-- Cuts at the first `limit` occurrences of `passage`; `skip` characters of an occurrence are still to
    be passed over. -/
def cutAt (passage : List Char) : (limit skip : Nat) → List Char → List (List Char)
  | _, _, [] => [[]]
  | limit, skip + 1, _ :: rest => cutAt passage limit skip rest
  | 0, 0, c :: rest => [c :: rest]
  | limit + 1, 0, c :: rest =>
    if passage.isPrefixOf (c :: rest) then [] :: cutAt passage limit (passage.length - 1) rest
    else consPiece c (cutAt passage (limit + 1) 0 rest)

/-- The pieces between the first occurrences of `passage`, of which no more than `limit` count. -/
def piecesUpTo (limit : Nat) (passage cs : List Char) : List (List Char) :=
  cutAt passage limit 0 cs

/-- The number of occurrences of `passage`. -/
def occurrences (passage cs : List Char) : Nat :=
  (piecesUpTo cs.length passage cs).length - 1

/-- Pieces put together with `passage` between neighbours. -/
def joinWith (passage : List Char) (pieces : List (List Char)) : List Char :=
  List.intercalate passage pieces

/-- Does `passage` occur in the characters? -/
def occursIn (passage : List Char) : List Char → Bool
  | [] => passage.isEmpty
  | c :: rest => passage.isPrefixOf (c :: rest) || occursIn passage rest

/-- Does `passage` occur in the text? -/
def contains (s passage : String) : Bool :=
  occursIn passage.toList s.toList

end TypedClient.Text
