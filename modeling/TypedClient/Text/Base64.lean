namespace TypedClient.Text

/-!
# Octets as text

Octets are written in a base of sixty-four, four characters for three octets.

* `sextet?`: the value of a character.
* `Base64.decode?`: the octets that a text denotes; characters outside of the base are passed over.
-/

/-- The value of a character of the base. -/
def sextet? (c : Char) : Option Nat :=
  if 'A' ≤ c ∧ c ≤ 'Z' then some (c.toNat - 'A'.toNat)
  else if 'a' ≤ c ∧ c ≤ 'z' then some (c.toNat - 'a'.toNat + 26)
  else if c.isDigit then some (c.toNat - '0'.toNat + 52)
  else if c = '+' then some 62
  else if c = '/' then some 63
  else none

namespace Base64

/-- The characters of the group of four that is being read. -/
structure Group where
  values : List Nat
  /-- The number of padding marks behind them. -/
  padding : Nat

/-- The octets that the characters of an unfinished group determine. -/
def Group.octets (g : Group) : List UInt8 :=
  match g.values with
  | [a, b] => [UInt8.ofNat (a * 4 + b / 16)]
  | [a, b, c] => [UInt8.ofNat (a * 4 + b / 16), UInt8.ofNat (b * 16 + c / 4)]
  | [a, b, c, d] =>
    [UInt8.ofNat (a * 4 + b / 16), UInt8.ofNat (b * 16 + c / 4), UInt8.ofNat (c * 64 + d)]
  | _ => []

/-- The octets from a group on.  Padding that fills a group ends the text; a group that is neither empty
    nor full at the end is a mistake. -/
def decodeFrom (g : Group) : List Char → Option (List UInt8)
  | [] => if g.values.isEmpty then some [] else none
  | c :: rest =>
    if c = '=' then
      if g.values.length < 2 then decodeFrom g rest
      else if 4 ≤ g.values.length + g.padding + 1 then some g.octets
      else decodeFrom { g with padding := g.padding + 1 } rest
    else
      match sextet? c with
      | none => decodeFrom g rest
      | some n =>
        let g : Group := ⟨g.values ++ [n], 0⟩
        if g.values.length = 4 then (decodeFrom ⟨[], 0⟩ rest).map (g.octets ++ ·)
        else decodeFrom g rest

/-- The octets that a text denotes. -/
def decode? (cs : List Char) : Option (List UInt8) :=
  decodeFrom ⟨[], 0⟩ cs

end Base64

end TypedClient.Text
