import TypedClient.Output.Client
import TypedClient.Proofs.Literals

namespace TypedClient

/-!
# Texts that can be written

A text can be written to a file if no half of a character is in it.  This is so for texts of ASCII characters, and the
frame of the methods' file is one: only what a document or the settings put into it can be anything else.

* `Text.IsAscii` — texts of ASCII characters, which stand for themselves.
* `Output.noMethods` — the methods' file of a document without operations.
* `Output.isAscii_noMethods` — it is ASCII if the namespace is.
-/

/-! ### ASCII characters -/

namespace Text

variable {s t : String}

/-- A text of ASCII characters. -/
def IsAscii (s : String) : Prop :=
  ∀ c ∈ s.toList, c.toNat < 128

theorem isAscii_ofList {cs : List Char} (h : cs.all (fun c => decide (c.toNat < 128)) = true) :
    IsAscii (String.ofList cs) := by
  intro c hc
  rw [String.toList_ofList] at hc
  exact of_decide_eq_true (List.all_eq_true.mp h c hc)

theorem IsAscii.append (hs : IsAscii s) (ht : IsAscii t) : IsAscii (s ++ t) := by
  intro c hc
  rw [String.toList_append, List.mem_append] at hc
  exact hc.elim (hs c) (ht c)

theorem isAscii_intercalate {texts : List String} (hs : IsAscii s) (htexts : ∀ t ∈ texts, IsAscii t) :
    IsAscii (String.intercalate s texts) := by
  induction texts with
  | nil => exact isAscii_ofList rfl
  | cons first rest ih =>
    rw [List.forall_mem_cons] at htexts
    cases rest with
    | nil =>
      rw [String.intercalate_singleton]
      exact htexts.1
    | cons second rest =>
      rw [String.intercalate_cons_cons]
      exact (htexts.1.append hs).append (ih htexts.2)

/-- What is put in place of a passage and what is left of the text make up the result. -/
theorem mem_of_mem_replaceFrom {passage replacement cs : List Char} {skip : Nat} {c : Char}
    (h : c ∈ replaceFrom passage replacement skip cs) : c ∈ replacement ∨ c ∈ cs := by
  fun_induction replaceFrom passage replacement skip cs with
  | case1 => cases h
  | case2 _ _ _ ih => exact (ih h).imp_right (List.mem_cons_of_mem _)
  | case3 _ _ _ ih =>
    rw [List.mem_append] at h
    rcases h with h | h
    · exact .inl h
    · exact (ih h).imp_right (List.mem_cons_of_mem _)
  | case4 first rest _ ih =>
    rcases List.mem_cons.mp h with rfl | h
    · exact .inr List.mem_cons_self
    · exact (ih h).imp_right (List.mem_cons_of_mem _)

theorem IsAscii.replaceAll {replacement : String} (hs : IsAscii s) (hreplacement : IsAscii replacement)
    (passage : String) : IsAscii (replaceAll passage replacement s) := by
  intro c hc
  rw [Text.replaceAll, String.toList_ofList] at hc
  exact (mem_of_mem_replaceFrom hc).elim (hreplacement c) (hs c)

theorem numbers_of_ascii {cs : List Char} (h : ∀ c ∈ cs, c.toNat < 128) : numbers cs = cs.map Char.toNat := by
  induction cs with
  | nil => rfl
  | cons c rest ih =>
    rw [List.forall_mem_cons] at h
    have hmark : c ≠ mark := by
      rintro rfl
      exact absurd h.1 (by decide +kernel)
    have hhalf : isHalfNumber (c.toNat - halfShift) = false := by
      have hshift : 128 < halfShift := by decide
      rw [Nat.sub_eq_zero_of_le (by omega)]
      rfl
    rw [numbers_cons_of_ne_mark hmark, ih h.2, numberOf, hhalf]
    rfl

/-- Such a text stands for itself. -/
theorem IsAscii.plain?_eq (h : IsAscii s) : plain? s = some s := by
  have hwhole : (s.toList.map Char.toNat).any isHalfNumber = false := by
    rw [List.any_eq_false]
    intro n hn
    obtain ⟨c, hc, rfl⟩ := List.mem_map.mp hn
    have hsmall := h c hc
    simp only [isHalfNumber, Bool.and_eq_true, decide_eq_true_eq, not_and, not_lt]
    omega
  unfold plain?
  rw [numbers_of_ascii h]
  simp [hwhole, Function.comp_def, Char.ofNat_toNat]

end Text

/-! ### The frame of the methods -/

namespace Output

open Text (IsAscii isAscii_ofList isAscii_intercalate)

theorem isAscii_expandTabs {s : String} (h : IsAscii s) : IsAscii (expandTabs s) := by
  intro c hc
  rw [expandTabs, String.toList_ofList, List.mem_flatMap] at hc
  obtain ⟨d, hd, hc⟩ := hc
  split at hc
  · have hblank : c = ' ' := by simpa using hc
    rw [hblank]
    decide
  · rw [List.mem_singleton.mp hc]
    exact h d hd

theorem isAscii_addCode {codes : List String} (h : ∀ code ∈ codes, IsAscii code) (name : String) :
    IsAscii ((CodeFile.empty name).addCode codes).text := by
  rw [text_addCode]
  apply isAscii_expandTabs
  apply IsAscii.append
  · apply isAscii_intercalate (isAscii_ofList rfl)
    intro t ht
    obtain ⟨code, hcode, rfl⟩ := List.mem_map.mp ht
    exact isAscii_expandTabs (h code hcode)
  · exact isAscii_ofList rfl

theorem isAscii_frameLines : ∀ line ∈ frameLines, IsAscii line := by
  simp only [frameLines, List.forall_mem_cons]
  repeat' apply And.intro
  all_goals first | exact isAscii_ofList rfl | exact fun _ h => absurd h List.not_mem_nil

theorem isAscii_groups : ∀ g ∈ groups, IsAscii g.method ∧ IsAscii g.field ∧ IsAscii g.className := by
  simp only [groups, List.forall_mem_cons]
  repeat' apply And.intro
  all_goals first | exact isAscii_ofList rfl | exact fun _ h => absurd h List.not_mem_nil

theorem isAscii_headerText {imports : String} (h : IsAscii imports) : IsAscii (headerText imports) := by
  unfold headerText
  apply IsAscii.append
  · apply IsAscii.replaceAll
    · exact ((isAscii_ofList rfl).append h).append (isAscii_ofList rfl)
    · exact isAscii_ofList rfl
  · exact isAscii_intercalate (isAscii_ofList rfl) isAscii_frameLines

theorem isAscii_groupText {g : Group} (hmethod : IsAscii g.method) (hname : IsAscii g.className) :
    IsAscii (groupText g []) := by
  apply isAscii_intercalate (isAscii_ofList rfl)
  simp only [List.forall_mem_cons]
  refine ⟨?_, isAscii_ofList rfl, ?_, isAscii_ofList rfl, isAscii_ofList rfl, isAscii_ofList rfl,
    fun _ h => absurd h List.not_mem_nil⟩
  · exact ((isAscii_ofList rfl).append hname).append (isAscii_ofList rfl)
  · exact ((isAscii_ofList rfl).append hmethod).append (isAscii_ofList rfl)

theorem isAscii_serviceText : IsAscii serviceText := by
  apply isAscii_intercalate (isAscii_ofList rfl)
  intro line hline
  simp only [List.mem_append, List.mem_map, List.mem_cons, List.not_mem_nil, or_false] at hline
  rcases hline with (((rfl | ⟨g, hg, rfl⟩) | rfl | rfl) | ⟨g, hg, rfl⟩) | rfl | rfl
  · exact isAscii_ofList rfl
  · obtain ⟨-, hfield, hname⟩ := isAscii_groups g hg
    exact ((((isAscii_ofList rfl).append hfield).append (isAscii_ofList rfl)).append hname).append (isAscii_ofList rfl)
  · exact isAscii_ofList rfl
  · exact isAscii_ofList rfl
  · obtain ⟨-, hfield, hname⟩ := isAscii_groups g hg
    exact ((((isAscii_ofList rfl).append hfield).append (isAscii_ofList rfl)).append hname).append (isAscii_ofList rfl)
  · exact isAscii_ofList rfl
  · exact isAscii_ofList rfl

/-- The file of the methods where there are no operations. -/
def noMethods (options : Options) : CodeFile :=
  (CodeFile.empty "api.ts").addCode
    (headerText (importText options []) :: groups.map (groupText · []) ++ [serviceText])

theorem methodsFile_nil (options : Options) (registry : Registry) :
    methodsFile options ⟨registry, [], []⟩ = .ok (noMethods options) := rfl

/-- Nothing is imported for no names, unless it is under a name of its own. -/
theorem isAscii_importText {options : Options} (h : ∀ space, options.space = some space → IsAscii space) :
    IsAscii (importText options []) := by
  unfold importText
  split
  · next space hspace => exact ((isAscii_ofList rfl).append (h space hspace)).append (isAscii_ofList rfl)
  · have hnames : sortedNames [] = [] := List.mergeSort_nil
    rw [hnames]
    exact isAscii_ofList rfl

/-- Without operations the file is ASCII if the namespace is. -/
theorem isAscii_noMethods {options : Options} (h : ∀ space, options.space = some space → IsAscii space) :
    IsAscii (noMethods options).text := by
  apply isAscii_addCode
  intro code hcode
  simp only [List.mem_append, List.mem_cons, List.mem_map, List.not_mem_nil, or_false] at hcode
  rcases hcode with (rfl | ⟨g, hg, rfl⟩) | rfl
  · exact isAscii_headerText (isAscii_importText h)
  · obtain ⟨hmethod, -, hname⟩ := isAscii_groups g hg
    exact isAscii_groupText hmethod hname
  · exact isAscii_serviceText

end Output

end TypedClient
