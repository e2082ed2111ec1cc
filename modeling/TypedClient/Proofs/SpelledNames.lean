import TypedClient.Proofs.Capture

namespace TypedClient

/-!
# Spelled names

The name for an inline enum is spelled from the names around it, and it is written as it is behind `export enum`.
This file says when it is a letter with letters and digits behind it.  Its characters are letters and digits
always, but nothing is put in front of a digit, as it is for the name of a member.  So the first letter or digit
of the names around the enum decides.

* `Naming.leading` — the first letter or digit of names.
* `Naming.head?_join` — a spelled name begins with it.
* `EnumNaming.isPlain_key_iff` — what the name of a new enum is spelled from, and when it is plain.
-/

namespace Naming

/-- The first letter or digit of names. -/
def leading (names : List String) : Option Char :=
  names.findSome? fun name => name.toList.find? Char.isAlphanum

theorem isAlpha_toUpper (c : Char) : c.toUpper.isAlpha = c.isAlpha := by
  by_cases hlower : c.isLower
  · rw [Char.isAlpha, Char.isAlpha, isUpper_toUpper hlower, hlower, Bool.true_or, Bool.or_true]
  · rw [toUpper_eq_self hlower]

theorem head?_pascalChars (cs : List Char) :
    (pascalChars true cs).head? = (cs.find? Char.isAlphanum).map Char.toUpper := by
  induction cs with
  | nil => rfl
  | cons c cs ih =>
    rw [pascalChars]
    by_cases hc : c.isAlphanum
    · rw [if_pos hc, List.find?_cons_of_pos hc]
      rfl
    · rw [if_neg hc, List.find?_cons_of_neg hc, ih]

/-- Names that are put together begin with the first letter or digit of them. -/
theorem head?_join (names : List String) :
    (String.join (names.map pascalCase)).toList.head? = (leading names).map Char.toUpper := by
  induction names with
  | nil => rfl
  | cons name rest ih =>
    rw [List.map_cons, String.join_cons, String.toList_append, pascalCase, String.toList_ofList, List.head?_append,
      head?_pascalChars, ih, leading, leading, List.findSome?_cons]
    cases name.toList.find? Char.isAlphanum <;> rfl

theorem isAlphanum_of_mem_join {names : List String} {d : Char}
    (h : d ∈ (String.join (names.map pascalCase)).toList) : d.isAlphanum := by
  induction names with
  | nil => cases h
  | cons name rest ih =>
    rw [List.map_cons, String.join_cons, String.toList_append, List.mem_append, pascalCase,
      String.toList_ofList] at h
    exact h.elim isAlphanum_of_mem_pascalChars ih

/-- A name that is put together is plain exactly if the first letter or digit of its parts is a letter. -/
theorem isPlain_join_iff {names : List String} :
    IsPlain (String.join (names.map pascalCase)) ↔ ∃ d, leading names = some d ∧ d.isAlpha := by
  have hhead := head?_join names
  constructor
  · rintro ⟨c, tail, hname, hc, -⟩
    rw [hname, List.head?_cons, eq_comm, Option.map_eq_some_iff] at hhead
    obtain ⟨d, hd, rfl⟩ := hhead
    exact ⟨d, hd, isAlpha_toUpper d ▸ hc⟩
  · rintro ⟨d, hd, halpha⟩
    rw [hd, Option.map_some, List.head?_eq_some_iff] at hhead
    obtain ⟨tail, htail⟩ := hhead
    refine ⟨d.toUpper, tail, htail, by rw [isAlpha_toUpper, halpha], fun c hc => ?_⟩
    exact isAlphanum_of_mem_join (htail ▸ List.mem_cons_of_mem _ hc)

end Naming

namespace EnumNaming

/-- What is spelled on a way is the name at some depth. -/
theorem exists_nameAt {c : EnumCandidate} {name : String} (h : name ∈ spellings c.path) :
    ∃ depth, 0 < depth ∧ depth ≤ c.path.length ∧ name = c.nameAt depth := by
  obtain ⟨i, hi, rfl⟩ := List.mem_map.mp h
  exact ⟨i + 1, Nat.succ_pos i, List.mem_range.mp hi, rfl⟩

/-- **Names of new enums.**  The name of a new enum is put together from the last names on the way to it.  It is not
    declared, not too short and not reserved, and letters and digits are all that it is made of.  It begins with a
    letter exactly if the first letter or digit of the names that it is put together from is a letter. -/
theorem isPlain_key_iff {registry : Registry} {operations : List Operation} {enums : Table String (List String)}
    {named : EnumNaming} (h : (start registry operations).resolve = (.ok enums, named)) {name : String}
    (hname : name ∈ enums.keys) :
    ∃ c ∈ (start registry operations).candidates, ∃ depth, 0 < depth ∧ depth ≤ c.path.length
      ∧ name = c.nameAt depth ∧ enums.get? name = some c.values
      ∧ (start registry operations).declared? name = none ∧ minLength ≤ name.length ∧ name ∉ reserved
      ∧ (∀ d ∈ name.toList, d.isAlphanum)
      ∧ (Naming.IsPlain name
        ↔ ∃ d, Naming.leading (c.path.drop (c.path.length - depth)) = some d ∧ d.isAlpha) := by
  obtain ⟨names, hchoose, rfl, rfl⟩ := resolve_eq_ok_iff.mp h
  have hchosen := choose_eq_ok hchoose
  rw [hchosen.synthesized_eq] at hname ⊢
  obtain ⟨values, hfresh⟩ := Table.mem_keys_iff.mp hname
  obtain ⟨hnone, c, hzip, rfl⟩ := Chosen.mem_fresh_iff.mp hfresh
  have hsuits : (start registry operations).Suits c.path name :=
    List.forall₂_zip (suits_of_choose hchoose) hzip
  obtain ⟨depth, hpos, hle, rfl⟩ := exists_nameAt hsuits.spelled
  exact ⟨c, (List.of_mem_zip hzip).1, depth, hpos, hle, rfl,
    (Table.get?_eq_some_iff_mem hchosen.nodup_keys_fresh).mpr hfresh, hnone, hsuits.long hnone,
    hsuits.unreserved hnone, fun _ => Naming.isAlphanum_of_mem_join, Naming.isPlain_join_iff⟩

/-! ### A sample with one field -/

/-- A declaration with one enum in it. -/
def sampleRegistry (field : String) (assigned : Option String) : Registry :=
  [("#/components/schemas/Sample", ⟨"Sample", "#/components/schemas/Sample",
    .object [⟨field, .enum ["low", "high"] assigned, false⟩]⟩)]

theorem resolve_level : (start (sampleRegistry "level" none) []).resolve
    = (.ok [("Level", ["low", "high"])], ⟨sampleRegistry "level" (some "Level"), []⟩) := by
  cbv

theorem level_plain : (start (sampleRegistry "level" none) []).resolve
      = (.ok [("Level", ["low", "high"])], ⟨sampleRegistry "level" (some "Level"), []⟩)
    ∧ "Level" ∈ Table.keys [("Level", ["low", "high"])]
    ∧ ∃ c ∈ (start (sampleRegistry "level" none) []).candidates, c.values = ["low", "high"]
      ∧ ∃ depth, "Level" = c.nameAt depth
        ∧ ∃ d, Naming.leading (c.path.drop (c.path.length - depth)) = some d ∧ d.isAlpha := by
  have hkey : "Level" ∈ Table.keys [("Level", ["low", "high"])] := List.mem_singleton_self _
  obtain ⟨c, hc, depth, -, -, hname, hvalues, -, -, -, -, hplain⟩ := isPlain_key_iff resolve_level hkey
  have hlevel : Naming.IsPlain "Level" := ⟨'L', ['e', 'v', 'e', 'l'], rfl, rfl, List.all_eq_true.mp rfl⟩
  exact ⟨resolve_level, hkey, c, hc, (Option.some.inj hvalues).symm, depth, hname, hplain.mp hlevel⟩

/-- The letter in front of the digits is none of ASCII, so the name of the enum begins with a digit. -/
theorem hundred_not_plain : (start (sampleRegistry "α100" none) []).resolve
      = (.ok [("100", ["low", "high"])], ⟨sampleRegistry "α100" (some "100"), []⟩)
    ∧ ¬ Naming.IsPlain "100"
    ∧ Output.TypeWriter.writeEnum "100" ["low", "high"]
      = "export enum 100 \x7b\n  Low = 'low',\n  High = 'high',\n\x7d" := by
  refine ⟨by cbv, ?_, by cbv⟩
  rintro ⟨c, tail, hname, hc, -⟩
  obtain ⟨rfl, -⟩ := List.cons.inj (show ['1', '0', '0'] = c :: tail from hname)
  exact absurd hc (by decide)

end EnumNaming

end TypedClient
