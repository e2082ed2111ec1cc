import TypedClient.Failure

namespace TypedClient.Route

/-!
# Route templates

A route template names its parameters in braces, as in `/users/{id}`.

* `placeholderAt?`: a placeholder at the front of a text.
* `firstPlaceholder?`: the leftmost placeholder of a text.
* `placeholders`: the names of all placeholders.  Each is taken out before the next is looked for, so
  what stood on its two sides can come together to a new one.
* `parameterNames`: the names, if no brace is left over.
-/

/-- A character that may begin a parameter name. -/
def isNameStart (c : Char) : Bool :=
  c.isAlpha || c == '_'

/-- A character that may stand in a parameter name. -/
def isNameChar (c : Char) : Bool :=
  c.isAlphanum || c == '_'

/-- A placeholder at the front: its name and what follows it. -/
def placeholderAt? : List Char → Option (List Char × List Char)
  | '{' :: c :: rest =>
    if isNameStart c then
      match rest.dropWhile isNameChar with
      | '}' :: tail => some (c :: rest.takeWhile isNameChar, tail)
      | _ => none
    else none
  | _ => none

/-- The leftmost placeholder: what stands before it, its name, and what follows it. -/
def firstPlaceholder? : List Char → Option (List Char × List Char × List Char)
  | [] => none
  | c :: rest =>
    match placeholderAt? (c :: rest) with
    | some (name, tail) => some ([], name, tail)
    | none => (firstPlaceholder? rest).map fun (front, name, tail) => (c :: front, name, tail)

/-- What follows a placeholder is shorter than what it was found in by two characters at least. -/
theorem length_of_placeholderAt? {cs name tail : List Char}
    (h : placeholderAt? cs = some (name, tail)) : tail.length < cs.length := by
  unfold placeholderAt? at h
  split at h
  · rename_i c rest
    split at h
    · split at h
      · rename_i t ht
        cases h
        have hle : (rest.dropWhile isNameChar).length ≤ rest.length :=
          (List.dropWhile_suffix _).length_le
        rw [ht] at hle
        simp only [List.length_cons] at hle ⊢
        omega
      · cases h
    · cases h
  · cases h

/-- A text without its leftmost placeholder is shorter. -/
theorem length_of_firstPlaceholder? {cs front name tail : List Char}
    (h : firstPlaceholder? cs = some (front, name, tail)) :
    (front ++ tail).length < cs.length := by
  induction cs generalizing front name tail with
  | nil => simp [firstPlaceholder?] at h
  | cons c rest ih =>
    unfold firstPlaceholder? at h
    split at h
    · rename_i name' tail' hp
      cases h
      simpa using length_of_placeholderAt? hp
    · simp only [Option.map_eq_some_iff] at h
      obtain ⟨⟨f, n, t⟩, hr, heq⟩ := h
      cases heq
      have := ih hr
      simp only [List.cons_append, List.length_cons]
      omega

/-- The names of all placeholders from left to right, and the text without them. -/
def placeholders (cs : List Char) : List String × List Char :=
  match _h : firstPlaceholder? cs with
  | none => ([], cs)
  | some (front, name, tail) =>
    let (names, rest) := placeholders (front ++ tail)
    (String.ofList name :: names, rest)
termination_by cs.length
decreasing_by exact length_of_firstPlaceholder? _h

/-- The parameter names of a route, from left to right; a brace that belongs to no placeholder is a
    mistake. -/
def parameterNames (route : String) : Except Failure (List String) :=
  let (names, rest) := placeholders route.toList
  if rest.contains '{' || rest.contains '}' then .error (.malformedRoute route) else .ok names

end TypedClient.Route
