import TypedClient.Calendar
import TypedClient.Number.Binary64
import TypedClient.Text.Cut
import TypedClient.Text.Surrogate

namespace TypedClient

/-!
# Document values

An API document is a tree of values.  Nothing is known in advance about the shape of a document, so
one type holds every value that one of the document formats can spell.

A collection can be part of itself.  Such a document is a tree without an end, of which a value holds as
much as anyone looks at: a part that is the same collection as one around it is marked.

* `Value`: the values; the entries of a map keep the order of the document.
* `Value.bare`: a value without the mark.
* `Value.same`: equality of values that can be keys.
* `Value.isFilled`: an empty value counts as absent.
* `Value.elements?`, `Value.holdsText?`: what a value yields one by one, and whether a text is in it.
* `Value.weight`: the number of values that a value consists of.
* `Value.find?`: the entry of a map; it is smaller than the map.
-/

/-- A value of a document. -/
inductive Value where
  | null
  | bool (b : Bool)
  | int (n : Int)
  | float (x : Binary64)
  | text (s : String)
  | bytes (octets : List UInt8)
  | date (d : Date)
  | time (t : TimeOfDay)
  | moment (m : Moment)
  | list (items : List Value)
  | tuple (items : List Value)
  | set (items : List Value)
  | map (entries : List (Value × Value))
  /-- The collection that stands `levels` collections further out, spelled out once more. -/
  | again (levels : Nat) (content : Value)
  /-- The place from which on a tree without an end is not held any more. -/
  | endless
  deriving Inhabited, Repr

namespace Value

/-- A value without the mark that it is the same as one around it. -/
def bare : Value → Value
  | .again _ content => bare content
  | v => v

/-- A value without the mark is no larger. -/
theorem sizeOf_bare_le (v : Value) : sizeOf v.bare ≤ sizeOf v := by
  fun_induction bare v with
  | case1 levels content ih =>
    simp
    omega
  | case2 => exact Nat.le_refl _

/-- Is the value a map? -/
def isMap (v : Value) : Bool :=
  match v.bare with
  | .map _ | .endless => true
  | _ => false

/-! ### Equality of keys -/

/-- The integer that a number or a truth value equals. -/
def toInt? : Value → Option Int
  | .bool b => some (if b then 1 else 0)
  | .int n => some n
  | .float x => x.toInt?
  | _ => none

mutual

/-- Equality of values that can be keys of a map.  Numbers and truth values are equal if their values
    are: `1`, `1.0` and `true` are one key.  Lists, sets and maps are not keys and equal nothing. -/
def same : Value → Value → Bool
  | .null, .null => true
  | .text s, .text t => s == t
  | .bytes s, .bytes t => s == t
  | .date d, .date e => d == e
  | .time t, .time u => t == u
  | .moment m, .moment n => m.same n
  | .tuple xs, .tuple ys => sameItems xs ys
  | .float x, .float y => x.sameValue y
  | x, y =>
    match x.toInt?, y.toInt? with
    | some m, some n => m == n
    | _, _ => false

/-- Equality item by item. -/
def sameItems : List Value → List Value → Bool
  | [], [] => true
  | x :: xs, y :: ys => same x y && sameItems xs ys
  | _, _ => false

end

mutual

/-- Can the value be a key of a map or a member of a set? -/
def isKey : Value → Bool
  | .list _ | .set _ | .map _ | .again .. | .endless => false
  | .tuple xs => allKeys xs
  | _ => true

/-- Can all of the values be keys? -/
def allKeys : List Value → Bool
  | [] => true
  | x :: xs => isKey x && allKeys xs

end

instance : BEq Value := ⟨same⟩

/-! ### Presence -/

/-- Null, false, zero and whatever is empty count as absent. -/
def isFilled : Value → Bool
  | .null => false
  | .bool b => b
  | .int n => n != 0
  | .float x => !x.isZero
  | .text s => s != ""
  | .bytes octets => !octets.isEmpty
  | .date _ | .time _ | .moment _ | .endless => true
  | .list items | .tuple items | .set items => !items.isEmpty
  | .map entries => !entries.isEmpty
  | .again _ content => content.isFilled

/-- The value itself, or `default` if it counts as absent. -/
def orElse (v default : Value) : Value :=
  if v.isFilled then v else default

/-! ### Contents -/

/-- What a value yields one by one: the items of a collection, the keys of a map, the characters of a
    text, the numbers of octets. -/
def elements? (v : Value) : Option (List Value) :=
  match v.bare with
  | .list items | .tuple items | .set items => some items
  | .map entries => some (entries.map (·.1))
  | .text s => some ((Text.characters s).map .text)
  | .bytes octets => some (octets.map fun b => .int b.toNat)
  | _ => none

/-- Is the text in the value: an item of a collection, a key of a map, a passage of a text?  Other
    values hold nothing. -/
def holdsText? (v : Value) (s : String) : Option Bool :=
  match v.bare with
  | .list items | .tuple items | .set items => some (items.any (· == .text s))
  | .map entries => some (entries.any (·.1 == .text s))
  | .text t => some (Text.contains t s)
  | _ => none

/-! ### Size -/

mutual

/-- The number of values that a value consists of, itself included. -/
def weight : Value → Nat
  | .list items | .tuple items | .set items => weightAll items + 1
  | .map entries => weightEntries entries + 1
  | .again _ content => weight content + 1
  | _ => 1

/-- The number of values that some values consist of. -/
def weightAll : List Value → Nat
  | [] => 0
  | v :: rest => v.weight + weightAll rest

/-- The number of values that the entries of a map consist of. -/
def weightEntries : List (Value × Value) → Nat
  | [] => 0
  | (k, v) :: rest => k.weight + v.weight + weightEntries rest

end

/-! ### Entries -/

/-- The value of a key among the entries of a map. -/
def lookup (key : Value) : List (Value × Value) → Option Value
  | [] => none
  | (k, v) :: rest => if k == key then some v else lookup key rest

/-- The entry of a map under a text key. -/
def find? (name : String) (entries : List (Value × Value)) : Option Value :=
  lookup (.text name) entries

/-- A value that is looked up is smaller than the entries it was found in. -/
theorem sizeOf_lt_of_lookup {key v : Value} {entries : List (Value × Value)}
    (h : lookup key entries = some v) : sizeOf v < sizeOf entries := by
  induction entries with
  | nil => simp [lookup] at h
  | cons e rest ih =>
    obtain ⟨k, w⟩ := e
    simp only [lookup] at h
    split at h
    · cases h
      simp
      omega
    · have := ih h
      simp
      omega

/-- An entry of a map is smaller than the map's entries. -/
theorem sizeOf_lt_of_find? {name : String} {v : Value} {entries : List (Value × Value)}
    (h : find? name entries = some v) : sizeOf v < sizeOf entries :=
  sizeOf_lt_of_lookup h

/-- Gives a key a value: in its place if the key is there, else at the end. -/
def putEntry (entries : List (Value × Value)) (key value : Value) : List (Value × Value) :=
  match entries with
  | [] => [(key, value)]
  | (k, v) :: rest => if k == key then (k, value) :: rest else (k, v) :: putEntry rest key value

end Value

end TypedClient
