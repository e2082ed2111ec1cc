namespace TypedClient.Text

/-!
# Halves of characters

UTF-16 writes the characters outside of the basic plane in two halves, each with a number of its own, and
a document can spell one half without the other.  No character is such a half, so in a text a character
for private use stands for it.  A mark stands in front of such a character where it stands for itself,
so that no two texts are the same.

* `ofNumber`: the text of the character or half with a number.
* `numbers`: the numbers of the characters and halves of a text.
* `marked`: characters that stand for themselves, as a text.
* `plain?`: the characters of a text, if no half is in it.
* `isOrdered`: the order of texts by the numbers of their characters.
-/

/-- Is this the number of a half? -/
def isHalfNumber (n : Nat) : Bool :=
  0xD800 ≤ n && n < 0xE000

/-- The distance between a half and the character that stands for it. -/
def halfShift : Nat := 0x10E000 - 0xD800

/-- Stands in front of a character that stands for itself and not for a half. -/
def mark : Char := Char.ofNat 0x10E800

/-- Does the character stand for a half, or is it the mark? -/
def isReserved (c : Char) : Bool :=
  isHalfNumber (c.toNat - halfShift) || c == mark

/-- The characters of a text with a mark in front of those that would stand for something else. -/
def markedChars (cs : List Char) : List Char :=
  cs.flatMap fun c => if isReserved c then [mark, c] else [c]

/-- Characters that stand for themselves, as a text. -/
def marked (s : String) : String :=
  if s.toList.any isReserved then String.ofList (markedChars s.toList) else s

/-- The text of the character or half with a number. -/
def ofNumber (n : Nat) : List Char :=
  if isHalfNumber n then [Char.ofNat (n + halfShift)] else markedChars [Char.ofNat n]

/-- The number of a character without a mark, or of the half that it stands for. -/
def numberOf (c : Char) : Nat :=
  if isHalfNumber (c.toNat - halfShift) then c.toNat - halfShift else c.toNat

/-- The numbers of the characters and halves of a text. -/
def numbers : List Char → List Nat
  | [] => []
  | [c] => [numberOf c]
  | c :: d :: rest => if c = mark then d.toNat :: numbers rest else numberOf c :: numbers (d :: rest)

theorem numbers_cons_of_ne_mark {c : Char} (h : c ≠ mark) (rest : List Char) :
    numbers (c :: rest) = numberOf c :: numbers rest := by
  cases rest <;> simp [numbers, h]

theorem toNat_ofNat_of_isHalfNumber {n : Nat} (h : isHalfNumber n = true) :
    (Char.ofNat (n + halfShift)).toNat = n + halfShift := by
  have : (n + halfShift).isValidChar := by
    simp only [isHalfNumber, Bool.and_eq_true, decide_eq_true_eq] at h
    simp only [Nat.isValidChar, halfShift]
    omega
  rw [Char.ofNat, dif_pos this]
  rfl

theorem toNat_ofNat_of_not_isHalfNumber {n : Nat} (h : isHalfNumber n = false)
    (hn : n < 0x110000) : (Char.ofNat n).toNat = n := by
  have : n.isValidChar := by
    simp only [isHalfNumber, Bool.and_eq_false_iff, decide_eq_false_iff_not] at h
    simp only [Nat.isValidChar]
    omega
  rw [Char.ofNat, dif_pos this]
  rfl

/-- Every sequence of characters and halves has a text of its own. -/
theorem numbers_flatMap_ofNumber {ns : List Nat} (h : ∀ n ∈ ns, n < 0x110000) :
    numbers (ns.flatMap ofNumber) = ns := by
  induction ns with
  | nil => rfl
  | cons n ns ih =>
    have ih := ih fun m hm => h m (List.mem_cons_of_mem n hm)
    have hn := h n List.mem_cons_self
    rw [List.flatMap_cons, ofNumber]
    split
    · next half =>
      have toNat := toNat_ofNat_of_isHalfNumber half
      have ne : Char.ofNat (n + halfShift) ≠ mark := by
        intro e
        have marked : (Char.ofNat 0x10E800).toNat = 0x10E800 := by decide
        have same : (Char.ofNat (n + halfShift)).toNat = mark.toNat := congrArg Char.toNat e
        rw [toNat, mark, marked] at same
        simp only [isHalfNumber, Bool.and_eq_true, decide_eq_true_eq] at half
        simp only [halfShift] at same
        omega
      rw [List.singleton_append, numbers_cons_of_ne_mark ne, ih, numberOf, toNat,
        Nat.add_sub_cancel, if_pos half]
    · next whole =>
      have toNat := toNat_ofNat_of_not_isHalfNumber (Bool.eq_false_iff.mpr whole) hn
      by_cases reserved : isReserved (Char.ofNat n) = true
      · simp [markedChars, reserved, numbers, toNat, ih]
      · simp only [markedChars, List.flatMap_cons, List.flatMap_nil, reserved]
        simp only [isReserved, Bool.or_eq_true, not_or, beq_iff_eq] at reserved
        simp only [Bool.false_eq_true, if_false, List.append_nil, List.singleton_append]
        rw [numbers_cons_of_ne_mark reserved.2, ih, numberOf, if_neg reserved.1, toNat]

/-- The characters and halves of a text, each as a text of its own. -/
def characters (s : String) : List String :=
  (numbers s.toList).map fun n => String.ofList (ofNumber n)

/-- The characters of a text, if no half is in it. -/
def plain? (s : String) : Option String :=
  let ns := numbers s.toList
  if ns.any isHalfNumber then none else some (String.ofList (ns.map Char.ofNat))

/-- Does the first text not come after the second one?  Two ways to write down the same characters and
    halves are told apart by how they are written, so that no two texts are equal in the order. -/
def isOrdered (s t : String) : Bool :=
  let ms := numbers s.toList
  let ns := numbers t.toList
  decide (ms < ns) || ms == ns && !decide (t.toList < s.toList)

end TypedClient.Text
