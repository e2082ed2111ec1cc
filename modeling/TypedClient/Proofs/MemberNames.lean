import Mathlib
import TypedClient.Naming
import TypedClient.Proofs.Tables

namespace TypedClient.Naming

/-!
# Names of enum members

Every value of an enum gets a member name.  This file says what the table of the member names holds.

* `length_freshAll` — there are as many fresh names as names were asked for.
* `mem_keys_members_iff` — the values of the table are the values of the enum, so looking up the member of a
  value never fails.
* `members_inj` — different values have different member names.
* `isPlain_of_get?_members` — member names are made of letters and digits, and a letter is first.
-/

theorem length_freshAll (taken names : List String) : (freshAll taken names).length = names.length := by
  induction names generalizing taken with
  | nil => rfl
  | cons name rest ih => rw [freshAll, List.length_cons, ih, List.length_cons]

/-- There is a member for each value of an enum, and for nothing else. -/
theorem mem_keys_members_iff {values : List String} {value : String} :
    value ∈ (members values).keys ↔ value ∈ values := by
  have hlength : (freshAll [] (values.map memberRoot)).length = values.length := by
    rw [length_freshAll, List.length_map]
  have hkeys : Table.keys (values.zip (freshAll [] (values.map memberRoot))) = values :=
    List.map_fst_zip (Nat.le_of_eq hlength.symm)
  rw [members, Table.mem_keys_ofList, hkeys]

/-- The member of a value is found. -/
theorem isSome_get?_members_iff {values : List String} {value : String} :
    ((members values).get? value).isSome ↔ value ∈ values := by
  rw [Table.isSome_get?_iff, mem_keys_members_iff]

/-! ### Different names -/

theorem toList_toString (k : Nat) : (toString k).toList = Nat.toDigits 10 k :=
  String.toList_ofList

theorem toString_inj {j k : Nat} (h : toString j = toString k) : j = k := by
  have hdigits := congrArg String.toList h
  rw [toList_toString, toList_toString] at hdigits
  rw [← Nat.ofDigitChars_toDigits (b := 10) (n := j) (by decide) (by decide), hdigits,
    Nat.ofDigitChars_toDigits (by decide) (by decide)]

/-- If the search for a free number ends with a name that is taken, all numbers that it tried are. -/
theorem mem_of_freshFrom_mem {taken : List String} {name : String} {fuel index : Nat}
    (h : freshFrom taken name fuel index ∈ taken) {k : Nat} (hfirst : index ≤ k) (hlast : k ≤ index + fuel) :
    name ++ toString k ∈ taken := by
  induction fuel generalizing index with
  | zero =>
    obtain rfl : k = index := by omega
    exact h
  | succ fuel ih =>
    rw [freshFrom] at h
    split at h
    · next hindex =>
      rcases Nat.eq_or_lt_of_le hfirst with rfl | hlater
      · exact List.contains_iff_mem.mp hindex
      · exact ih h hlater (by omega)
    · next hindex => exact absurd (List.contains_iff_mem.mpr h) hindex

/-- A fresh name is not taken: more numbers are tried than there are names. -/
theorem fresh_notMem (taken : List String) (name : String) : fresh taken name ∉ taken := by
  rw [fresh]
  split
  · intro h
    have hall : (List.range (taken.length + 1)).map (fun k => name ++ toString (2 + k)) ⊆ taken := by
      intro other hother
      obtain ⟨k, hk, rfl⟩ := List.mem_map.mp hother
      have := List.mem_range.mp hk
      exact mem_of_freshFrom_mem h (by omega) (by omega)
    have hnodup : ((List.range (taken.length + 1)).map fun k => name ++ toString (2 + k)).Nodup := by
      refine List.Nodup.map (fun j k heq => ?_) List.nodup_range
      have heq' := toString_inj ((String.append_right_inj name).mp heq)
      omega
    have hle := (hnodup.subperm hall).length_le
    rw [List.length_map, List.length_range] at hle
    omega
  · next h => exact fun hmem => h (List.contains_iff_mem.mpr hmem)

/-- Names that are chosen one after the other are new, and all different. -/
theorem nodup_freshAll (taken names : List String) :
    (freshAll taken names).Nodup ∧ ∀ name ∈ freshAll taken names, name ∉ taken := by
  induction names generalizing taken with
  | nil => exact ⟨List.nodup_nil, nofun⟩
  | cons name rest ih =>
    obtain ⟨hnodup, hnew⟩ := ih (fresh taken name :: taken)
    rw [freshAll, List.nodup_cons, List.forall_mem_cons]
    refine ⟨⟨fun h => hnew _ h List.mem_cons_self, hnodup⟩, fresh_notMem taken name, fun other hother h => ?_⟩
    exact hnew other hother (List.mem_cons_of_mem _ h)

/-- Different values of an enum have different member names. -/
theorem members_inj {values : List String} {value other name : String}
    (h : (members values).get? value = some name) (h' : (members values).get? other = some name) :
    value = other := by
  have hnames := (nodup_freshAll [] (values.map memberRoot)).1
  obtain ⟨i, hi, heq⟩ := List.mem_iff_getElem.mp (Table.mem_of_mem_ofList (Table.mem_of_get?_eq_some h))
  obtain ⟨j, hj, heq'⟩ := List.mem_iff_getElem.mp (Table.mem_of_mem_ofList (Table.mem_of_get?_eq_some h'))
  rw [List.getElem_zip, Prod.mk.injEq] at heq heq'
  -- One name stands at one place only.
  obtain rfl : i = j := hnames.getElem_inj_iff.mp (heq.2.trans heq'.2.symm)
  exact heq.1.symm.trans heq'.1

/-! ### Characters -/

/-- A letter, with letters and digits behind it. -/
def IsPlain (name : String) : Prop :=
  ∃ c tail, name.toList = c :: tail ∧ c.isAlpha ∧ ∀ d ∈ tail, d.isAlphanum

theorem IsPlain.append {name : String} (h : IsPlain name) {s : String} (hs : ∀ d ∈ s.toList, d.isAlphanum) :
    IsPlain (name ++ s) := by
  obtain ⟨c, tail, hname, hc, htail⟩ := h
  refine ⟨c, tail ++ s.toList, by rw [String.toList_append, hname, List.cons_append], hc, fun d hd => ?_⟩
  rcases List.mem_append.mp hd with hd | hd
  · exact htail d hd
  · exact hs d hd

theorem isUpper_toUpper {c : Char} (h : c.isLower) : c.toUpper.isUpper := by
  simp only [Char.isLower, Bool.and_eq_true, decide_eq_true_eq] at h
  simp only [Char.toUpper, dif_pos h]
  simp only [Char.isUpper, decide_eq_true_eq, UInt32.le_iff_toNat_le] at h ⊢
  grind [UInt32.toNat_add, Char.toNat_val]

/-- Nothing but a small letter has a capital of its own. -/
theorem toUpper_eq_self {c : Char} (h : ¬ c.isLower) : c.toUpper = c := by
  simp only [Char.isLower, Bool.and_eq_true, decide_eq_true_eq] at h
  simp only [Char.toUpper, dif_neg h]

theorem isAlphanum_toUpper {c : Char} (h : c.isAlphanum) : c.toUpper.isAlphanum := by
  by_cases hlower : c.isLower
  · simp [Char.isAlphanum, Char.isAlpha, isUpper_toUpper hlower]
  · rwa [toUpper_eq_self hlower]

theorem isAlphanum_of_mem_pascalChars {atStart : Bool} {cs : List Char} {d : Char}
    (h : d ∈ pascalChars atStart cs) : d.isAlphanum := by
  induction cs generalizing atStart with
  | nil => cases h
  | cons c rest ih =>
    rw [pascalChars] at h
    by_cases hc : c.isAlphanum
    · rw [if_pos hc] at h
      rcases List.mem_cons.mp h with rfl | h
      · split
        · exact isAlphanum_toUpper hc
        · exact hc
      · exact ih h
    · rw [if_neg hc] at h
      exact ih h

/-- A member name begins with a letter even if the value begins with a digit, or holds no letter at all. -/
theorem isPlain_memberRoot (value : String) : IsPlain (memberRoot value) := by
  have hchars : ∀ d ∈ (pascalCase value).toList, d.isAlphanum := by
    intro d hd
    rw [pascalCase, String.toList_ofList] at hd
    exact isAlphanum_of_mem_pascalChars hd
  have hvalue : IsPlain "Value" := ⟨'V', ['a', 'l', 'u', 'e'], rfl, rfl, List.all_eq_true.mp rfl⟩
  simp only [memberRoot]
  split
  · exact hvalue
  · next c tail hname =>
    split
    · exact hvalue.append hchars
    · next hdigit =>
      rw [hname, List.forall_mem_cons, Char.isAlphanum, Bool.or_eq_true] at hchars
      exact ⟨c, tail, hname, hchars.1.resolve_right hdigit, hchars.2⟩

theorem IsPlain.freshFrom {name : String} (h : IsPlain name) (taken : List String) (fuel index : Nat) :
    IsPlain (freshFrom taken name fuel index) := by
  have hnumbered : ∀ k : Nat, IsPlain (name ++ toString k) := by
    intro k
    refine h.append fun d hd => ?_
    rw [toList_toString] at hd
    rw [Char.isAlphanum, Nat.isDigit_of_mem_toDigits (by decide) (by decide) hd, Bool.or_true]
  induction fuel generalizing index with
  | zero => exact hnumbered index
  | succ fuel ih =>
    rw [Naming.freshFrom]
    split
    · exact ih (index + 1)
    · exact hnumbered index

theorem isPlain_of_mem_freshAll {taken names : List String} (h : ∀ name ∈ names, IsPlain name) :
    ∀ chosen ∈ freshAll taken names, IsPlain chosen := by
  induction names generalizing taken with
  | nil => nofun
  | cons name rest ih =>
    rw [List.forall_mem_cons] at h
    rw [freshAll, List.forall_mem_cons]
    refine ⟨?_, ih h.2⟩
    unfold fresh
    split
    · exact h.1.freshFrom taken taken.length 2
    · exact h.1

/-- Whatever the values of an enum are, the names of its members can be written without quotes. -/
theorem isPlain_of_get?_members {values : List String} {value name : String}
    (h : (members values).get? value = some name) : IsPlain name := by
  have hmem := Table.mem_of_mem_ofList (Table.mem_of_get?_eq_some h)
  refine isPlain_of_mem_freshAll ?_ name (List.of_mem_zip hmem).2
  intro root hroot
  obtain ⟨other, -, rfl⟩ := List.mem_map.mp hroot
  exact isPlain_memberRoot other

end TypedClient.Naming
