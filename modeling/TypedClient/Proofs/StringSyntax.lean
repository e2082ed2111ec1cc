import Mathlib.Data.List.Basic
import TypedClient.Proofs.TypeSyntax

namespace TypedClient.Output

/-!
# The syntax of texts

A text between single quotes denotes a sequence of 16-bit units, and not always the one that its characters have: a
backslash begins an escape, and a line break must not stand there.  This file reads such a text by the grammar of
TypeScript, with all escapes of it, up to the quote that closes it.

* `units`, `unitsOf` — the units of a character and of a text.
* `escaped` — what follows a backslash.
* `readString` — the units that a text between quotes denotes.
* `Denotes` — what begins with a text between quotes that denotes a given one.
* `denotes_quoted_iff` — a text that is put between quotes as it is denotes itself exactly if it is `Verbatim`.
* `denotes_literal_iff` — a text that is escaped first denotes itself exactly if it has no line break.
-/

namespace StringSyntax

/-! ### Units -/

/-- The 16-bit units of the character with a number: one, or two halves. -/
def units (n : Nat) : List Nat :=
  if n < 0x10000 then [n] else [0xD800 + (n - 0x10000) / 0x400, 0xDC00 + (n - 0x10000) % 0x400]

/-- The units of characters. -/
def unitsOf (cs : List Char) : List Nat :=
  cs.flatMap fun c => units c.toNat

/-! ### Escapes -/

/-- The value of a hexadecimal digit. -/
def hexDigit? (c : Char) : Option Nat :=
  if c.isDigit then some (c.toNat - '0'.toNat)
  else if 'a' ≤ c ∧ c ≤ 'f' then some (c.toNat - 'a'.toNat + 10)
  else if 'A' ≤ c ∧ c ≤ 'F' then some (c.toNat - 'A'.toNat + 10)
  else none

/-- The number that `count` more hexadecimal digits make of `n`. -/
def hexNumber : (count n : Nat) → List Char → Option (Nat × List Char)
  | 0, n, cs => some (n, cs)
  | _ + 1, _, [] => none
  | count + 1, n, c :: cs => do hexNumber count (16 * n + (← hexDigit? c)) cs

/-- The number of a character that the digits up to a closing brace make of `n`. -/
def codePoint (n : Nat) : List Char → Option (Nat × List Char)
  | [] => none
  | c :: cs =>
    if c = '\x7d' then if n < 0x110000 then some (n, cs) else none
    else do codePoint (16 * n + (← hexDigit? c)) cs

/-- The characters that end a line. -/
def lineBreaks : List Char :=
  ['\n', '\r', '\u2028', '\u2029']

/-- The letters that stand for control characters. -/
def controls : List (Char × Nat) :=
  [('b', 8), ('t', 9), ('n', 10), ('v', 11), ('f', 12), ('r', 13)]

/-- What follows the letter of an escape by number: digits between braces, or four digits. -/
def numbered : List Char → Option (List Nat × List Char)
  | '\x7b' :: c :: cs => do
    let (n, rest) ← codePoint (← hexDigit? c) cs
    return (units n, rest)
  | cs => (hexNumber 4 0 cs).map fun (n, rest) => ([n], rest)

/-- What follows a backslash, with the units that it denotes.  A line break denotes nothing, and a digit is no escape,
    unless it is a zero without another digit behind it.  Any other character stands for itself. -/
def escaped : List Char → Option (List Nat × List Char)
  | [] => none
  | c :: cs =>
    if c = 'x' then (hexNumber 2 0 cs).map fun (n, rest) => ([n], rest)
    else if c = 'u' then numbered cs
    else if c.isDigit then if c = '0' ∧ ¬ cs.head?.any Char.isDigit then some ([0], cs) else none
    else if c = '\r' ∧ cs.head? = some '\n' then some ([], cs.tail)
    else if c ∈ lineBreaks then some ([], cs)
    else some (((controls.lookup c).map fun n => [n]).getD (units c.toNat), cs)

section Lengths

variable {n m count : Nat} {c : Char} {cs ds rest : List Char}

@[simp] theorem unitsOf_nil : unitsOf [] = [] := rfl

theorem unitsOf_cons (c : Char) (cs : List Char) : unitsOf (c :: cs) = units c.toNat ++ unitsOf cs :=
  List.flatMap_cons

theorem unitsOf_append (cs ds : List Char) : unitsOf (cs ++ ds) = unitsOf cs ++ unitsOf ds :=
  List.flatMap_append

theorem length_units (n : Nat) : (units n).length = 1 ∨ (units n).length = 2 := by
  unfold units
  split
  · exact .inl rfl
  · exact .inr rfl

theorem length_le_unitsOf (cs : List Char) : cs.length ≤ (unitsOf cs).length := by
  induction cs with
  | nil => exact Nat.le_refl 0
  | cons c cs ih =>
    rw [unitsOf_cons, List.length_append, List.length_cons]
    have := length_units c.toNat
    omega

/-- Only a quote has the unit of a quote. -/
theorem mem_of_quote_mem_unitsOf (h : '\''.toNat ∈ unitsOf cs) : '\'' ∈ cs := by
  obtain ⟨c, hc, hunit⟩ := List.mem_flatMap.mp h
  have hquote : c.toNat = '\''.toNat := by
    have hnumber : '\''.toNat = 39 := rfl
    unfold units at hunit
    rw [hnumber] at hunit ⊢
    split at hunit
    · exact (List.mem_singleton.mp hunit).symm
    · simp only [List.mem_cons, List.not_mem_nil, or_false] at hunit
      omega
  rwa [← Char.toNat_inj.mp hquote]

theorem ne_quote_of_hexDigit? {d : Nat} (h : hexDigit? c = some d) : c ≠ '\'' := by
  rintro rfl
  have hnone : hexDigit? '\'' = none := by decide
  rw [hnone] at h
  cases h

/-- The digits of a number are no quotes. -/
theorem exists_of_hexNumber (h : hexNumber count n cs = some (m, rest)) :
    ∃ front, cs = front ++ rest ∧ '\'' ∉ front := by
  induction count generalizing n cs with
  | zero =>
    cases h
    exact ⟨[], rfl, List.not_mem_nil⟩
  | succ count ih =>
    cases cs with
    | nil => cases h
    | cons c cs =>
      obtain ⟨d, hd, hrest⟩ := Option.bind_eq_some_iff.mp h
      obtain ⟨front, rfl, hfront⟩ := ih hrest
      exact ⟨c :: front, rfl, List.not_mem_cons_of_ne_of_not_mem (ne_quote_of_hexDigit? hd).symm hfront⟩

theorem exists_of_codePoint (h : codePoint n cs = some (m, rest)) : ∃ front, cs = front ++ rest ∧ '\'' ∉ front := by
  induction cs generalizing n with
  | nil => cases h
  | cons c cs ih =>
    rw [codePoint] at h
    split at h
    · next hbrace =>
      split at h
      · cases h
        exact ⟨[c], rfl, by rw [hbrace]; decide⟩
      · cases h
    · obtain ⟨d, hd, hrest⟩ := Option.bind_eq_some_iff.mp h
      obtain ⟨front, rfl, hfront⟩ := ih hrest
      exact ⟨c :: front, rfl, List.not_mem_cons_of_ne_of_not_mem (ne_quote_of_hexDigit? hd).symm hfront⟩

theorem exists_of_numbered {u : List Nat} (h : numbered cs = some (u, rest)) :
    ∃ front, cs = front ++ rest ∧ '\'' ∉ front ∧ u.length ≤ front.length + 1 := by
  unfold numbered at h
  split at h
  · next c cs =>
    obtain ⟨d, hd, hpoint⟩ := Option.bind_eq_some_iff.mp h
    obtain ⟨⟨n, after⟩, hpoint, heq⟩ := Option.bind_eq_some_iff.mp hpoint
    cases heq
    obtain ⟨front, rfl, hfront⟩ := exists_of_codePoint hpoint
    refine ⟨'\x7b' :: c :: front, rfl, ?_, ?_⟩
    · exact List.not_mem_cons_of_ne_of_not_mem (by decide)
        (List.not_mem_cons_of_ne_of_not_mem (ne_quote_of_hexDigit? hd).symm hfront)
    · have := length_units n
      simp only [List.length_cons]
      omega
  · obtain ⟨⟨n, after⟩, hnumber, heq⟩ := Option.map_eq_some_iff.mp h
    cases heq
    obtain ⟨front, rfl, hfront⟩ := exists_of_hexNumber hnumber
    exact ⟨front, rfl, hfront, Nat.le_add_left 1 front.length⟩

/-- An escape goes on behind its first character without a quote, and it denotes no more units than its characters
    have. -/
theorem exists_of_escaped {u : List Nat} (h : escaped cs = some (u, rest)) :
    ∃ c front, cs = c :: (front ++ rest) ∧ '\'' ∉ front ∧ u.length ≤ (unitsOf (c :: front)).length := by
  cases cs with
  | nil => cases h
  | cons c cs =>
    have hlength : ∀ front : List Char, front.length + 1 ≤ (unitsOf (c :: front)).length :=
      fun front => length_le_unitsOf (c :: front)
    rw [escaped] at h
    -- The kinds of escapes, in the order in which they are tried.
    split at h
    · obtain ⟨⟨n, after⟩, hnumber, heq⟩ := Option.map_eq_some_iff.mp h
      cases heq
      obtain ⟨front, rfl, hfront⟩ := exists_of_hexNumber hnumber
      exact ⟨c, front, rfl, hfront, Nat.le_trans (Nat.le_add_left 1 _) (hlength front)⟩
    split at h
    · obtain ⟨front, rfl, hfront, hle⟩ := exists_of_numbered h
      exact ⟨c, front, rfl, hfront, Nat.le_trans hle (hlength front)⟩
    split at h
    · split at h
      · cases h
        exact ⟨c, [], rfl, List.not_mem_nil, hlength []⟩
      · cases h
    split at h
    · next hreturn =>
      cases h
      obtain ⟨tail, rfl⟩ := List.head?_eq_some_iff.mp hreturn.2
      exact ⟨c, ['\n'], rfl, by decide, Nat.zero_le _⟩
    split at h
    · cases h
      exact ⟨c, [], rfl, List.not_mem_nil, Nat.zero_le _⟩
    · cases h
      refine ⟨c, [], rfl, List.not_mem_nil, ?_⟩
      cases controls.lookup c with
      | none => rw [unitsOf_cons, unitsOf_nil, List.append_nil]; exact Nat.le_refl _
      | some n => exact hlength []

theorem length_lt_of_escaped {u : List Nat} (h : escaped cs = some (u, rest)) : rest.length < cs.length := by
  obtain ⟨c, front, rfl, -, -⟩ := exists_of_escaped h
  simp only [List.length_cons, List.length_append]
  omega

end Lengths

/-! ### Texts between quotes -/

/-- The units up to the closing quote. -/
def readBody (cs : List Char) : Option (List Nat × List Char) :=
  match cs with
  | [] => none
  | c :: cs =>
    if c = '\'' then some ([], cs)
    else if c = '\\' then
      match _h : escaped cs with
      | some (u, rest) => (readBody rest).map fun (v, after) => (u ++ v, after)
      | none => none
    else if c = '\n' ∨ c = '\r' then none
    else (readBody cs).map fun (v, after) => (units c.toNat ++ v, after)
termination_by cs.length
decreasing_by
  · have := length_lt_of_escaped _h
    simp only [List.length_cons]
    omega
  · exact Nat.lt_succ_self _

/-- A text between quotes: the units that it denotes, and what follows it. -/
def readString : List Char → Option (List Nat × List Char)
  | '\'' :: cs => readBody cs
  | _ => none

/-- The characters begin with a text between quotes that denotes the text `s`. -/
def Denotes (cs : List Char) (s : String) : Prop :=
  ∃ rest, readString cs = some (unitsOf s.toList, rest)

/-- A character that stands for itself between quotes. -/
def Stands (c : Char) : Prop :=
  c ∉ ['\'', '\\', '\n', '\r']

/-- A text that can be put between quotes as it is. -/
def Verbatim (s : String) : Prop :=
  ∀ c ∈ s.toList, Stands c

instance (c : Char) : Decidable (Stands c) :=
  inferInstanceAs (Decidable (c ∉ _))

instance (s : String) : Decidable (Verbatim s) :=
  List.decidableBAll Stands s.toList

section Bodies

variable {c : Char} {cs back rest : List Char} {v : List Nat}

theorem readBody_quote (cs : List Char) : readBody ('\'' :: cs) = some ([], cs) := by
  rw [readBody, if_pos rfl]

theorem readBody_break (h : c = '\n' ∨ c = '\r') (cs : List Char) : readBody (c :: cs) = none := by
  rw [readBody, if_neg (by rcases h with rfl | rfl <;> decide), if_neg (by rcases h with rfl | rfl <;> decide),
    if_pos h]

theorem readBody_cons (h : Stands c) (cs : List Char) :
    readBody (c :: cs) = (readBody cs).map fun (v, after) => (units c.toNat ++ v, after) := by
  simp only [Stands, List.mem_cons, List.not_mem_nil, or_false, not_or] at h
  rw [readBody, if_neg h.1, if_neg h.2.1, if_neg (not_or.mpr h.2.2)]

theorem readBody_backslash (h : readBody ('\\' :: cs) = some (v, rest)) :
    ∃ u w after, escaped cs = some (u, after) ∧ readBody after = some (w, rest) ∧ v = u ++ w := by
  rw [readBody, if_neg (by decide), if_pos rfl] at h
  split at h
  · next u after hescaped =>
    obtain ⟨⟨w, _⟩, hbody, heq⟩ := Option.map_eq_some_iff.mp h
    cases heq
    exact ⟨u, w, after, hescaped, hbody, rfl⟩
  · cases h

/-- What is put between quotes as it can be is read to its end. -/
theorem readBody_append (h : ∀ c ∈ cs, Stands c) (back : List Char) :
    readBody (cs ++ '\'' :: back) = some (unitsOf cs, back) := by
  induction cs with
  | nil => exact readBody_quote back
  | cons c cs ih =>
    rw [List.forall_mem_cons] at h
    rw [List.cons_append, readBody_cons h.1, ih h.2, unitsOf_cons]
    rfl

/-- An escape that begins in front of a quote ends in front of it, unless it is the escape of the quote. -/
theorem exists_of_escaped_append {u : List Nat} (hcs : '\'' ∉ c :: cs)
    (h : escaped (c :: cs ++ '\'' :: back) = some (u, rest)) :
    ∃ front tail, c :: cs = front ++ tail ∧ rest = tail ++ '\'' :: back
      ∧ u.length ≤ (unitsOf front).length ∧ tail.length < (c :: cs).length := by
  obtain ⟨d, front, heq, hfront, hle⟩ := exists_of_escaped h
  obtain ⟨rfl, htexts⟩ := List.cons.inj heq
  rcases List.append_eq_append_iff.mp htexts with ⟨more, rfl, hmore⟩ | ⟨tail, rfl, htail⟩
  · cases more with
    | nil =>
      rw [List.append_nil] at hle
      exact ⟨c :: cs, [], (List.append_nil _).symm, hmore.symm, hle, Nat.succ_pos _⟩
    | cons d more =>
      -- The quote would be one of the characters behind the first.
      obtain ⟨rfl, -⟩ := List.cons.inj hmore
      exact absurd (List.mem_append_right cs List.mem_cons_self) hfront
  · exact ⟨c :: front, tail, rfl, htail, hle, by simp only [List.length_cons, List.length_append]; omega⟩

theorem escaped_quote (cs : List Char) : escaped ('\'' :: cs) = some (['\''.toNat], cs) := by
  rfl

/-- What is read of the characters in front of a quote.  If the reading ends there, it gives no more units than they
    have, and as many only if all of them stand for themselves.  If it goes past the quote, there is a unit of a quote
    where they have another one. -/
inductive ReadsInFrontOf (cs : List Char) (v : List Nat) : Prop
  | ends : v.length ≤ (unitsOf cs).length → (v.length = (unitsOf cs).length → ∀ c ∈ cs, Stands c) →
      ReadsInFrontOf cs v
  | passes (front after : List Nat) : v = front ++ '\''.toNat :: after → front.length < (unitsOf cs).length →
      ReadsInFrontOf cs v

theorem ReadsInFrontOf.cons (hc : Stands c) (h : ReadsInFrontOf cs v) :
    ReadsInFrontOf (c :: cs) (units c.toNat ++ v) := by
  cases h with
  | ends hle hstands =>
    refine .ends ?_ fun hlength => ?_
    · rw [unitsOf_cons, List.length_append, List.length_append]
      exact Nat.add_le_add_left hle _
    · rw [unitsOf_cons, List.length_append, List.length_append] at hlength
      exact List.forall_mem_cons.mpr ⟨hc, hstands (Nat.add_left_cancel hlength)⟩
  | passes front after heq hlt =>
    refine .passes (units c.toNat ++ front) after ?_ ?_
    · rw [heq, List.append_assoc]
    · rw [unitsOf_cons, List.length_append, List.length_append]
      exact Nat.add_lt_add_left hlt _

theorem length_unitsOf_backslash (cs : List Char) : (unitsOf ('\\' :: cs)).length = (unitsOf cs).length + 1 := by
  rw [unitsOf_cons, List.length_append, Nat.add_comm]
  rfl

/-- The backslash of an escape stands for nothing, so from there on the reading falls short. -/
theorem ReadsInFrontOf.escape {u : List Nat} {piece : List Char} (hu : u.length ≤ (unitsOf piece).length)
    (h : ReadsInFrontOf cs v) : ReadsInFrontOf ('\\' :: (piece ++ cs)) (u ++ v) := by
  have hlength : (unitsOf ('\\' :: (piece ++ cs))).length = (unitsOf piece).length + (unitsOf cs).length + 1 := by
    rw [length_unitsOf_backslash, unitsOf_append, List.length_append]
  cases h with
  | ends hle _ =>
    have hshort : (u ++ v).length < (unitsOf ('\\' :: (piece ++ cs))).length := by
      rw [hlength, List.length_append]
      omega
    exact .ends (Nat.le_of_lt hshort) fun heq => absurd heq (Nat.ne_of_lt hshort)
  | passes front after heq hlt =>
    refine .passes (u ++ front) after ?_ ?_
    · rw [heq, List.append_assoc]
    · rw [hlength, List.length_append]
      omega

theorem readsInFrontOf {cs : List Char} (hcs : '\'' ∉ cs) (h : readBody (cs ++ '\'' :: back) = some (v, rest)) :
    ReadsInFrontOf cs v := by
  -- An escape takes several characters at once, so the induction is on the length.
  induction hn : cs.length using Nat.strongRecOn generalizing cs v with
  | ind n ih =>
    subst hn
    cases cs with
    | nil =>
      rw [List.nil_append, readBody_quote] at h
      cases h
      exact .ends (Nat.le_refl 0) fun _ => nofun
    | cons c cs =>
      obtain ⟨hc, hrest⟩ := not_or.mp (List.mem_cons.not.mp hcs)
      rw [List.cons_append] at h
      by_cases hstands : Stands c
      · rw [readBody_cons hstands] at h
        obtain ⟨⟨w, _⟩, hbody, heq⟩ := Option.map_eq_some_iff.mp h
        cases heq
        exact (ih _ (Nat.lt_succ_self _) hrest hbody rfl).cons hstands
      · simp only [Stands, List.mem_cons, List.not_mem_nil, or_false, not_not] at hstands
        rcases hstands with rfl | rfl | hbreak
        · exact absurd rfl hc
        · obtain ⟨u, w, after, hescaped, hbody, rfl⟩ := readBody_backslash h
          cases cs with
          | nil =>
            rw [List.nil_append, escaped_quote] at hescaped
            cases hescaped
            exact .passes [] w rfl (Nat.succ_pos _)
          | cons d ds =>
            obtain ⟨front, tail, hsplit, rfl, hu, hshort⟩ := exists_of_escaped_append hrest hescaped
            have htail : '\'' ∉ tail := fun hmem => hrest (hsplit ▸ List.mem_append_right front hmem)
            rw [hsplit]
            exact (ih _ (Nat.lt_succ_of_lt hshort) htail hbody rfl).escape hu
        · rw [readBody_break hbreak] at h
          cases h

/-- Nothing but a text that can be put between quotes as it is denotes itself there, wherever the reading ends. -/
theorem stands_of_readBody {cs : List Char} (h : readBody (cs ++ '\'' :: back) = some (unitsOf cs, rest)) :
    ∀ c ∈ cs, Stands c := by
  by_cases hquote : '\'' ∈ cs
  · -- What is read in front of the first quote is too short, or it has a quote where the text has none yet.
    exfalso
    obtain ⟨front, tail, rfl, hfront⟩ := List.eq_append_cons_of_mem hquote
    rw [List.append_assoc, List.cons_append] at h
    cases readsInFrontOf hfront h with
    | ends hle _ =>
      rw [unitsOf_append, List.length_append, unitsOf_cons, List.length_append] at hle
      have := length_units '\''.toNat
      omega
    | passes first second heq hlt =>
      have hunit : (unitsOf front)[first.length]? = some '\''.toNat := by
        have hall : (unitsOf front ++ unitsOf ('\'' :: tail))[first.length]? = some '\''.toNat := by
          rw [← unitsOf_append, heq, List.getElem?_append_right (Nat.le_refl _), Nat.sub_self, List.getElem?_cons_zero]
        rwa [List.getElem?_append_left hlt] at hall
      exact hfront (mem_of_quote_mem_unitsOf (List.mem_of_getElem? hunit))
  · cases readsInFrontOf hquote h with
    | ends _ hstands => exact hstands rfl
    | passes first second heq _ =>
      exact absurd (mem_of_quote_mem_unitsOf (heq ▸ List.mem_append_right first List.mem_cons_self)) hquote

end Bodies

/-- **Texts between quotes.**  What begins with a text between quotes, put there as it is, begins with a text between
    quotes that denotes it, exactly if it has no quote, no backslash and no line break. -/
theorem denotes_quoted_iff {s : String} {back : List Char} :
    Denotes ('\'' :: (s.toList ++ '\'' :: back)) s ↔ Verbatim s :=
  ⟨fun ⟨_, h⟩ => stands_of_readBody h, fun h => ⟨back, readBody_append h back⟩⟩

/-- An escape can denote what can be written without it, so a text with one denotes a shorter one. -/
example : Denotes "'a\\x62'".toList "ab" ∧ ¬ Verbatim "a\\x62" :=
  ⟨⟨[], by cbv⟩, by decide +kernel⟩

/-! ### Literals -/

theorem readBody_escape {c : Char} (h : c ≠ '\n' ∧ c ≠ '\r') (cs : List Char) :
    readBody (escape c ++ cs) = (readBody cs).map fun (v, after) => (units c.toNat ++ v, after) := by
  unfold escape
  split
  · next hescape =>
    have hescaped : escaped (c :: cs) = some (units c.toNat, cs) := by
      rcases hescape with rfl | rfl <;> rfl
    rw [List.cons_append, List.singleton_append, readBody, if_neg (by decide), if_pos rfl]
    split
    · next hread =>
      rw [hescaped] at hread
      cases hread
      rfl
    · next hread =>
      rw [hescaped] at hread
      cases hread
  · next hplain =>
    rw [not_or] at hplain
    refine readBody_cons ?_ cs
    simp only [Stands, List.mem_cons, List.not_mem_nil, or_false, not_or]
    exact ⟨hplain.1, hplain.2, h.1, h.2⟩

theorem readBody_flatMap_escape {cs : List Char} (h : ∀ c ∈ cs, c ≠ '\n' ∧ c ≠ '\r') (back : List Char) :
    readBody (cs.flatMap escape ++ '\'' :: back) = some (unitsOf cs, back) := by
  induction cs with
  | nil => exact readBody_quote back
  | cons c cs ih =>
    rw [List.forall_mem_cons] at h
    rw [List.flatMap_cons, List.append_assoc, readBody_escape h.1, ih h.2]
    rfl

/-- A line break is not escaped, and none can be read past it. -/
theorem readBody_flatMap_escape_of_break {c : Char} {cs : List Char} (h : c ∈ cs) (hc : c = '\n' ∨ c = '\r')
    (back : List Char) : readBody (cs.flatMap escape ++ '\'' :: back) = none := by
  induction cs with
  | nil => cases h
  | cons d cs ih =>
    rw [List.flatMap_cons, List.append_assoc]
    by_cases hd : d = '\n' ∨ d = '\r'
    · have hescape : escape d = [d] := by rcases hd with rfl | rfl <;> rfl
      rw [hescape, List.singleton_append, readBody_break hd]
    · have hmem : c ∈ cs := (List.mem_cons.mp h).resolve_left fun heq => hd (heq ▸ hc)
      rw [readBody_escape (not_or.mp hd), ih hmem]
      rfl

/-- **Literals.**  A text that is escaped first denotes itself between its quotes exactly if it has no line break. -/
theorem denotes_literal_iff {s : String} {back : List Char} :
    Denotes ((literal s).toList ++ back) s ↔ TypeSyntax.OnOneLine s := by
  have hread : readString ((literal s).toList ++ back) = readBody (s.toList.flatMap escape ++ '\'' :: back) := by
    rw [literal, String.toList_ofList, literalChars, List.cons_append, List.append_assoc, List.singleton_append]
    rfl
  rw [Denotes, hread]
  constructor
  · rintro ⟨rest, h⟩
    have hsome {c : Char} (hmem : c ∈ s.toList) (hc : c = '\n' ∨ c = '\r') : False := by
      rw [readBody_flatMap_escape_of_break hmem hc] at h
      cases h
    exact ⟨fun hmem => hsome hmem (.inl rfl), fun hmem => hsome hmem (.inr rfl)⟩
  · rintro ⟨hn, hr⟩
    refine ⟨back, readBody_flatMap_escape (fun c hc => ⟨?_, ?_⟩) back⟩
    · rintro rfl
      exact hn hc
    · rintro rfl
      exact hr hc

end StringSyntax

end TypedClient.Output
