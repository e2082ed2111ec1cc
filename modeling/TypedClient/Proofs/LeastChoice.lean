import TypedClient.Proofs.NamedEnums
import Mathlib.Order.Bounds.Basic
import Mathlib.Data.List.Perm.Subperm

namespace TypedClient.EnumNaming

open ClientType

/-!
# The least set of shared names

Within one pass candidates claim names one after the other, and the names that turn out to be shared depend on
who comes first.  The final names do not.  They can be told without any order: a set of names is good if every
candidate has a name when exactly these names count as shared, and no two candidates have the same one.  A name
that the passes find to be shared is in every good set, and the set that they end with is good.

* `Suitable`, `IsPick` — the name of a candidate when the names of a set count as shared.
* `Good` — every candidate has a name, and different candidates have different names.
* `collisions_subset_of_pickFrom` — one step stays within every good set.
* `pass_below` — so does a pass, and it gives every candidate a name.
* `isPick_of_pass` — a pass that finds no more shared names gives the names of its set.
* `settle_stable` — the last pass is such a pass.
* `chooseFor_cases` — the final names are those of the least good set, if there is a good set.
* `resolve_namedByLeast` — so are the names in declarations and operations, in whatever order candidates come.
-/

/-! ### Names under a set of shared names -/

/-- A name that enums with these values can be given when the names in `shared` count as shared: that of a
    declared enum with the same values, or one that nothing is declared under. -/
def Suitable (e : EnumNaming) (shared : Set String) (values : List String) (name : String) : Prop :=
  (∃ d ∈ e.registry.values, d.name = name ∧ ∃ known assigned, d.type = .enum known assigned
      ∧ ∀ value, value ∈ known ↔ value ∈ values)
    ∨ (∀ d ∈ e.registry.values, d.name ≠ name) ∧ name ∉ shared ∧ minLength ≤ name.length
      ∧ name ∉ reserved

/-- The name of a candidate when the names in `shared` count as shared: the suitable name of the least depth. -/
def IsPick (e : EnumNaming) (shared : Set String) (c : EnumCandidate) (name : String) : Prop :=
  ∃ depth, 1 ≤ depth ∧ depth ≤ c.path.length ∧ c.nameAt depth = name ∧ e.Suitable shared c.values name
    ∧ ∀ less, 1 ≤ less → less < depth → ¬ e.Suitable shared c.values (c.nameAt less)

/-- Every candidate has a name, and no two candidates have the same. -/
structure Good (e : EnumNaming) (candidates : List EnumCandidate) (shared : Set String) : Prop where
  picks : ∀ c ∈ candidates, ∃ name, e.IsPick shared c name
  differ : candidates.Pairwise fun c d => ∀ name, e.IsPick shared c name → ¬ e.IsPick shared d name

variable {e : EnumNaming} {shared : Set String} {c : EnumCandidate} {name : String}

/-- With different names of declarations, a name is looked up where it is declared. -/
theorem suitable_iff (distinct : (e.registry.values.map (·.name)).Nodup) {values : List String} :
    e.Suitable shared values name ↔ e.Reuses values name
      ∨ e.declared? name = none ∧ name ∉ shared ∧ minLength ≤ name.length ∧ name ∉ reserved := by
  have hnone : e.declared? name = none ↔ ∀ d ∈ e.registry.values, d.name ≠ name := by
    rw [Option.eq_none_iff_forall_ne_some]
    constructor
    · intro h d hd hname
      exact h d ((declared?_eq_some_iff distinct).mpr ⟨hd, hname⟩)
    · intro h d hd
      obtain ⟨hmem, hname⟩ := (declared?_eq_some_iff distinct).mp hd
      exact h d hmem hname
  rw [Suitable, hnone]
  refine or_congr_left ?_
  constructor
  · rintro ⟨d, hd, hname, known, assigned, htype, hsame⟩
    exact ⟨d, known, assigned, (declared?_eq_some_iff distinct).mpr ⟨hd, hname⟩, htype, sameValues_iff.mpr hsame⟩
  · rintro ⟨d, known, assigned, hd, htype, hsame⟩
    obtain ⟨hmem, hname⟩ := (declared?_eq_some_iff distinct).mp hd
    exact ⟨d, hmem, hname, known, assigned, htype, sameValues_iff.mp hsame⟩

theorem length_names (c : EnumCandidate) : c.names.length = c.path.length := by
  simp [EnumCandidate.names]

theorem getElem_names (c : EnumCandidate) {i : Nat} (h : i < c.names.length) :
    c.names[i] = c.nameAt (i + 1) := by
  simp [EnumCandidate.names]

/-- The first suitable name of a list. -/
def FirstSuitable (e : EnumNaming) (shared : Set String) (values names : List String) (name : String) : Prop :=
  ∃ front rest, names = front ++ name :: rest ∧ e.Suitable shared values name
    ∧ ∀ other ∈ front, ¬ e.Suitable shared values other

theorem firstSuitable_nil {values : List String} : ¬ e.FirstSuitable shared values [] name := by
  rintro ⟨front, rest, hnames, -⟩
  simp at hnames

theorem firstSuitable_cons_iff {values names : List String} {first : String} :
    e.FirstSuitable shared values (first :: names) name
      ↔ e.Suitable shared values first ∧ name = first
        ∨ ¬ e.Suitable shared values first ∧ e.FirstSuitable shared values names name := by
  constructor
  · rintro ⟨front, rest, hnames, hsuits, hfront⟩
    cases front with
    | nil =>
      obtain ⟨rfl, rfl⟩ := List.cons.inj hnames
      exact .inl ⟨hsuits, rfl⟩
    | cons other front =>
      obtain ⟨rfl, rfl⟩ := List.cons.inj hnames
      refine .inr ⟨hfront first List.mem_cons_self, front, rest, rfl, hsuits, ?_⟩
      exact fun other hother => hfront other (List.mem_cons_of_mem _ hother)
  · rintro (⟨hsuits, rfl⟩ | ⟨hnot, front, rest, rfl, hsuits, hfront⟩)
    · exact ⟨[], names, rfl, hsuits, by simp⟩
    · exact ⟨first :: front, rest, rfl, hsuits, List.forall_mem_cons.mpr ⟨hnot, hfront⟩⟩

/-- The name of a candidate is the first suitable one of its names. -/
theorem isPick_iff : e.IsPick shared c name ↔ e.FirstSuitable shared c.values c.names name := by
  -- The depth of a name is one more than its place in the list of names.
  constructor
  · rintro ⟨depth, hpos, hle, rfl, hsuits, hfirst⟩
    have hlt : depth - 1 < c.names.length := by
      rw [length_names]
      omega
    have hget : c.names[depth - 1] = c.nameAt depth := by
      rw [getElem_names c hlt, Nat.sub_add_cancel hpos]
    refine ⟨c.names.take (depth - 1), c.names.drop depth, ?_, hsuits, ?_⟩
    · have hdrop := List.drop_eq_getElem_cons hlt
      rw [hget, Nat.sub_add_cancel hpos] at hdrop
      rw [← hdrop, List.take_append_drop]
    · intro other hother
      obtain ⟨i, hi, rfl⟩ := List.mem_take_iff_getElem.mp hother
      rw [getElem_names]
      exact hfirst (i + 1) (by omega) (by omega)
  · rintro ⟨front, rest, hnames, hsuits, hfirst⟩
    have hlength : c.path.length = front.length + (rest.length + 1) := by
      rw [← length_names, hnames, List.length_append, List.length_cons]
    have hat : ∀ i, i < c.names.length → (front ++ name :: rest)[i]? = some (c.nameAt (i + 1)) := by
      intro i h
      rw [← hnames, List.getElem?_eq_getElem h, getElem_names c h]
    refine ⟨front.length + 1, by omega, by omega, ?_, hsuits, ?_⟩
    · have hname := hat front.length (by rw [length_names]; omega)
      rw [List.getElem?_append_right (Nat.le_refl _), Nat.sub_self, List.getElem?_cons_zero] at hname
      exact Option.some.inj hname.symm
    · intro less hpos hless
      obtain ⟨i, rfl⟩ := Nat.exists_eq_add_of_le' hpos
      have hother := hat i (by rw [length_names]; omega)
      rw [List.getElem?_append_left (by omega)] at hother
      exact hfirst _ (List.mem_of_getElem? hother)

/-- A candidate has one name only. -/
theorem IsPick.unique {other : String} (h : e.IsPick shared c name) (h' : e.IsPick shared c other) :
    name = other := by
  obtain ⟨depth, hpos, -, rfl, hsuits, hfirst⟩ := h
  obtain ⟨depth', hpos', -, rfl, hsuits', hfirst'⟩ := h'
  rcases Nat.lt_trichotomy depth depth' with hlt | rfl | hlt
  · exact absurd hsuits (hfirst' depth hpos hlt)
  · rfl
  · exact absurd hsuits' (hfirst depth' hpos' hlt)

/-- Being good does not depend on the order of the candidates. -/
theorem Good.perm {candidates others : List EnumCandidate} (hperm : candidates.Perm others)
    (h : e.Good candidates shared) : e.Good others shared where
  picks c hc := h.picks c (hperm.mem_iff.mpr hc)
  differ := h.differ.perm hperm fun hdiffer name hc hd => hdiffer name hd hc

theorem good_perm_iff {candidates others : List EnumCandidate} (hperm : candidates.Perm others) :
    e.Good candidates shared ↔ e.Good others shared :=
  ⟨Good.perm hperm, Good.perm hperm.symm⟩

/-- Nor does it that sets of values are different. -/
theorem Apart.perm {sets others : List (List String)} (h : Apart sets) (hperm : sets.Perm others) :
    Apart others :=
  List.Pairwise.perm h hperm fun hab hba => hab (sameValues_symm hba)

/-! ### Steps stay within good sets -/

variable {claims after : Claims} {values names : List String} {found? : Option String}

/-- A name with another declaration, or that is too short, reserved or shared, is passed over. -/
theorem not_suitable_of_declared (distinct : (e.registry.values.map (·.name)).Nodup) {d : Declaration}
    (hd : e.declared? name = some d)
    (hother : ∀ known assigned, d.type = .enum known assigned → ¬ sameValues known values = true) :
    ¬ e.Suitable shared values name := by
  rw [suitable_iff distinct, hd]
  rintro (⟨d', known, assigned, hd', htype, hsame⟩ | ⟨hnone, -⟩)
  · rw [hd] at hd'
    cases hd'
    exact hother known assigned htype hsame
  · cases hnone

/-- A name without a declaration is suitable if it is not shared, long enough and not reserved. -/
theorem suitable_iff_of_none (distinct : (e.registry.values.map (·.name)).Nodup)
    (hnone : e.declared? name = none) :
    e.Suitable shared values name ↔ name ∉ shared ∧ minLength ≤ name.length ∧ name ∉ reserved := by
  rw [suitable_iff distinct]
  constructor
  · rintro (hreuse | ⟨-, h⟩)
    · exact absurd hnone hreuse.declared?_ne_none
    · exact h
  · exact fun h => .inr ⟨hnone, h⟩

/-- A name that is passed over for another reason than its declaration is not suitable. -/
theorem not_suitable_of_skipped (distinct : (e.registry.values.map (·.name)).Nodup)
    (hnone : e.declared? name = none) (hknown : ∀ n ∈ claims.collisions, n ∈ shared)
    (hskip : (claims.collisions.contains name || name.length < minLength || reserved.contains name) = true) :
    ¬ e.Suitable shared values name := by
  rw [suitable_iff_of_none distinct hnone]
  rintro ⟨hshared, hlength, hreserved⟩
  simp only [Bool.or_eq_true, List.contains_iff_mem, decide_eq_true_eq] at hskip
  rcases hskip with (hskip | hskip) | hskip
  · exact hshared (hknown name hskip)
  · omega
  · exact hreserved hskip

theorem suitable_of_not_skipped (distinct : (e.registry.values.map (·.name)).Nodup)
    (hnone : e.declared? name = none) (hout : name ∉ shared)
    (hskip : ¬ (claims.collisions.contains name || name.length < minLength || reserved.contains name) = true) :
    e.Suitable shared values name := by
  simp only [Bool.or_eq_true, List.contains_iff_mem, decide_eq_true_eq, not_or] at hskip
  exact (suitable_iff_of_none distinct hnone).mpr ⟨hout, by omega, hskip.2⟩

/-- **One step.**  Let the names found so far be in a set, and no claimed name outside of it be the first
    suitable name of a candidate.  Then the names that the step finds are in the set, a name that it claims
    outside of the set is the first suitable one, and the step fails only if no name is suitable. -/
theorem collisions_subset_of_pickFrom (distinct : (e.registry.values.map (·.name)).Nodup)
    (hknown : ∀ n ∈ claims.collisions, n ∈ shared)
    (hclaimed : ∀ n ∈ claims.claimed, n ∉ shared → ¬ e.FirstSuitable shared values names n)
    (h : e.pickFrom values names claims = (found?, after)) :
    (∀ n ∈ after.collisions, n ∈ shared)
      ∧ (∀ n ∈ after.claimed, n ∈ claims.claimed ∨ (n ∉ shared → e.FirstSuitable shared values names n))
      ∧ (found? = none → ∀ n, ¬ e.FirstSuitable shared values names n) := by
  fun_induction pickFrom e values names claims with
  | case1 claims =>
    cases h
    exact ⟨hknown, fun n hn => .inl hn, fun _ n => firstSuitable_nil⟩
  | case2 =>
    cases h
    exact ⟨hknown, fun n hn => .inl hn, by simp⟩
  | case3 name rest claims dname key known assigned hd hs ih =>
    have hnot : ¬ e.Suitable shared values name := by
      refine not_suitable_of_declared distinct hd fun known' assigned' htype => ?_
      cases htype
      exact hs
    simp only [firstSuitable_cons_iff, hnot, false_and, false_or, not_false_eq_true, true_and] at hclaimed ⊢
    exact ih hknown hclaimed h
  | case4 name rest claims d hne hd ih =>
    have hnot : ¬ e.Suitable shared values name := by
      refine not_suitable_of_declared distinct hd fun known assigned htype => ?_
      exact absurd (by rw [← htype]) (hne d.name d.key known assigned)
    simp only [firstSuitable_cons_iff, hnot, false_and, false_or, not_false_eq_true, true_and] at hclaimed ⊢
    exact ih hknown hclaimed h
  | case5 name rest claims hnone hskip ih =>
    have hnot : ¬ e.Suitable shared values name := not_suitable_of_skipped distinct hnone hknown hskip
    simp only [firstSuitable_cons_iff, hnot, false_and, false_or, not_false_eq_true, true_and] at hclaimed ⊢
    exact ih hknown hclaimed h
  | case6 name rest claims hnone hskip hclash ih =>
    -- A name that another candidate has claimed, and that this one could have, must be shared.
    have hshared : name ∈ shared := by
      by_contra hout
      refine hclaimed name (List.contains_iff_mem.mp hclash) hout (firstSuitable_cons_iff.mpr (.inl ⟨?_, rfl⟩))
      exact suitable_of_not_skipped distinct hnone hout hskip
    have hnot : ¬ e.Suitable shared values name := by
      rw [suitable_iff_of_none distinct hnone]
      exact fun h => h.1 hshared
    simp only [firstSuitable_cons_iff, hnot, false_and, false_or, not_false_eq_true, true_and] at hclaimed ⊢
    refine ih ?_ hclaimed h
    intro n hn
    rcases List.mem_append.mp hn with hn | hn
    · exact hknown n hn
    · rw [List.mem_singleton.mp hn]
      exact hshared
  | case7 name rest claims hnone hskip hfree =>
    cases h
    refine ⟨hknown, fun n hn => ?_, by simp⟩
    rcases List.mem_cons.mp hn with rfl | hn
    · refine .inr fun hout => firstSuitable_cons_iff.mpr (.inl ⟨?_, rfl⟩)
      exact suitable_of_not_skipped distinct hnone hout hskip
    · exact .inl hn

variable {candidates : List EnumCandidate} {found : List String}

/-- No claimed name outside of the set is a candidate's name, and no candidate is without a name: then choosing
    names succeeds and the names that turn out to be shared are in the set. -/
theorem pickAll_below (distinct : (e.registry.values.map (·.name)).Nodup) (hgood : e.Good candidates shared)
    (hknown : ∀ n ∈ claims.collisions, n ∈ shared)
    (hclaimed : ∀ n ∈ claims.claimed, n ∉ shared → ∀ c ∈ candidates, ¬ e.IsPick shared c n) :
    ∃ names after, e.pickAll candidates claims = (.ok names, after)
      ∧ ∀ n ∈ after.collisions, n ∈ shared := by
  induction candidates generalizing claims with
  | nil => exact ⟨[], claims, rfl, hknown⟩
  | cons c rest ih =>
    obtain ⟨hdiffer, hrest⟩ := List.pairwise_cons.mp hgood.differ
    have hpicks := List.forall_mem_cons.mp hgood.picks
    rcases hstep : e.pickFrom c.values c.names claims with ⟨found?, next⟩
    have hclaimed' : ∀ n ∈ claims.claimed, n ∉ shared → ¬ e.FirstSuitable shared c.values c.names n := by
      intro n hn hout hfirst
      exact hclaimed n hn hout c List.mem_cons_self (isPick_iff.mpr hfirst)
    obtain ⟨hknown', hnext, hnone⟩ := collisions_subset_of_pickFrom distinct hknown hclaimed' hstep
    cases found? with
    | none =>
      obtain ⟨name, hname⟩ := hpicks.1
      exact absurd (isPick_iff.mp hname) (hnone rfl name)
    | some name =>
      -- What this candidate claims outside of the set is its own name, and no other candidate's.
      have hothers : ∀ n ∈ next.claimed, n ∉ shared → ∀ d ∈ rest, ¬ e.IsPick shared d n := by
        intro n hn hout d hd
        rcases hnext n hn with hold | hown
        · exact hclaimed n hold hout d (List.mem_cons_of_mem _ hd)
        · exact hdiffer d hd n (isPick_iff.mpr (hown hout))
      obtain ⟨names, after, hall, hafter⟩ := ih ⟨hpicks.2, hrest⟩ hknown' hothers
      refine ⟨name :: names, after, ?_, hafter⟩
      rw [pickAll, pick, hstep]
      simp only [hall]

/-- **One pass.**  With known shared names from a good set, every candidate gets a name, and the pass finds no
    shared name outside of the set. -/
theorem pass_below (distinct : (e.registry.values.map (·.name)).Nodup) (hgood : e.Good candidates shared)
    {known : List String} (hknown : ∀ n ∈ known, n ∈ shared) :
    ∃ names found, e.pass candidates known = (.ok names, found) ∧ ∀ n ∈ found, n ∈ shared := by
  have hnew : ∀ n ∈ (⟨[], known⟩ : Claims).claimed, n ∉ shared → ∀ c ∈ candidates, ¬ e.IsPick shared c n := by
    simp
  obtain ⟨names, after, hall, hafter⟩ := pickAll_below distinct hgood hknown hnew
  exact ⟨names, after.collisions, by rw [pass, hall], hafter⟩

/-- The passes stay within every good set. -/
theorem settle_below (distinct : (e.registry.values.map (·.name)).Nodup) (hgood : e.Good candidates shared)
    {known : List String} (hknown : ∀ n ∈ known, n ∈ shared) (fuel : Nat) :
    ∃ names found, e.settle candidates fuel known = (.ok names, found) ∧ ∀ n ∈ found, n ∈ shared := by
  induction fuel generalizing known with
  | zero => exact pass_below distinct hgood hknown
  | succ fuel ih =>
    obtain ⟨names, found, hpass, hfound⟩ := pass_below distinct hgood hknown
    rw [settle, hpass]
    by_cases hlength : found.length = known.length
    · exact ⟨names, found, by simp only [if_pos hlength], hfound⟩
    · simp only [if_neg hlength]
      exact ih hfound

/-! ### Shared names only grow -/

/-- The names in `found` are those in `known` with some of `names` behind them, none of which was known. -/
def Adds (known found names : List String) : Prop :=
  ∃ added, found = known ++ added ∧ added ⊆ names ∧ added.Nodup ∧ known.Disjoint added

theorem Adds.refl (known names : List String) : Adds known known names :=
  ⟨[], (List.append_nil _).symm, List.nil_subset _, List.nodup_nil, List.disjoint_nil_right _⟩

theorem Adds.trans {known between found first second : List String} (h : Adds known between first)
    (h' : Adds between found second) : Adds known found (first ++ second) := by
  obtain ⟨added, rfl, hsub, hnodup, hdisjoint⟩ := h
  obtain ⟨more, rfl, hsub', hnodup', hdisjoint'⟩ := h'
  obtain ⟨hknown, hadded⟩ := List.disjoint_append_left.mp hdisjoint'
  refine ⟨added ++ more, List.append_assoc .., ?_, List.nodup_append'.mpr ⟨hnodup, hnodup', hadded⟩, ?_⟩
  · exact List.append_subset.mpr ⟨List.Subset.trans hsub (List.subset_append_left ..),
      List.Subset.trans hsub' (List.subset_append_right ..)⟩
  · exact List.disjoint_append_right.mpr ⟨hdisjoint, hknown⟩

theorem Adds.mono {known found names others : List String} (h : Adds known found names)
    (hsub : names ⊆ others) : Adds known found others := by
  obtain ⟨added, hfound, hadded, hnew⟩ := h
  exact ⟨added, hfound, List.Subset.trans hadded hsub, hnew⟩

theorem Adds.length_le {known found names : List String} (h : Adds known found names) :
    known.length ≤ found.length := by
  obtain ⟨added, rfl, -⟩ := h
  rw [List.length_append]
  omega

/-- Nothing was added if there are as many names as before. -/
theorem Adds.eq_of_length {known found names : List String} (h : Adds known found names)
    (hlength : found.length = known.length) : found = known := by
  obtain ⟨added, rfl, -⟩ := h
  rw [List.length_append, Nat.add_eq_left, List.length_eq_zero_iff] at hlength
  rw [hlength, List.append_nil]

/-- Names that were all different stay so. -/
theorem Adds.nodup {known found names : List String} (h : Adds known found names) (hknown : known.Nodup) :
    found.Nodup := by
  obtain ⟨added, rfl, -, hnodup, hdisjoint⟩ := h
  exact List.nodup_append'.mpr ⟨hknown, hnodup, hdisjoint⟩

theorem Adds.subset {known found names : List String} (h : Adds known found names) (hknown : known ⊆ names) :
    found ⊆ names := by
  obtain ⟨added, rfl, hadded, -⟩ := h
  exact List.append_subset.mpr ⟨hknown, hadded⟩

theorem pickFrom_adds (e : EnumNaming) (values names : List String) (claims : Claims) :
    Adds claims.collisions (e.pickFrom values names claims).2.collisions names := by
  fun_induction pickFrom e values names claims with
  | case1 claims => exact Adds.refl ..
  | case2 => exact Adds.refl ..
  | case3 _ _ _ _ _ _ _ _ _ ih | case4 _ _ _ _ _ _ ih | case5 _ _ _ _ _ ih =>
    exact ih.mono (List.subset_cons_self ..)
  | case6 name rest claims _ hskip _ ih =>
    simp only [Bool.or_eq_true, List.contains_iff_mem, not_or] at hskip
    have hone : Adds claims.collisions (claims.collisions ++ [name]) [name] :=
      ⟨[name], rfl, List.Subset.refl _, List.nodup_singleton _, List.disjoint_singleton.mpr hskip.1.1⟩
    exact hone.trans ih
  | case7 => exact Adds.refl ..

theorem pickAll_adds (e : EnumNaming) (candidates : List EnumCandidate) (claims : Claims) :
    Adds claims.collisions (e.pickAll candidates claims).2.collisions (candidates.flatMap (·.names)) := by
  induction candidates generalizing claims with
  | nil => exact Adds.refl ..
  | cons c rest ih =>
    have hstep := pickFrom_adds e c.values c.names claims
    rw [pickAll, pick, List.flatMap_cons]
    rcases hfound : e.pickFrom c.values c.names claims with ⟨_ | name, next⟩ <;> rw [hfound] at hstep
    · exact hstep.mono (List.subset_append_left ..)
    · have hrest := hstep.trans (ih next)
      rcases hall : e.pickAll rest next with ⟨_ | names, last⟩ <;> rw [hall] at hrest <;>
        simpa only [hall] using hrest

theorem pass_adds (e : EnumNaming) (candidates : List EnumCandidate) (known : List String) :
    Adds known (e.pass candidates known).2 (candidates.flatMap (·.names)) :=
  pickAll_adds e candidates ⟨[], known⟩

/-! ### A pass that finds no more shared names -/

theorem firstSuitable_of_pickFrom (distinct : (e.registry.values.map (·.name)).Nodup)
    (h : e.pickFrom values names claims = (some name, after)) (hsame : after.collisions = claims.collisions) :
    e.FirstSuitable {n | n ∈ claims.collisions} values names name := by
  fun_induction pickFrom e values names claims with
  | case1 => cases h
  | case2 first rest claims dname key known assigned hd hs =>
    cases h
    refine firstSuitable_cons_iff.mpr (.inl ⟨?_, rfl⟩)
    exact (suitable_iff distinct).mpr (.inl ⟨_, known, assigned, hd, rfl, hs⟩)
  | case3 first rest claims dname key known assigned hd hs ih =>
    refine firstSuitable_cons_iff.mpr (.inr ⟨?_, ih h hsame⟩)
    refine not_suitable_of_declared distinct hd fun known' assigned' htype => ?_
    cases htype
    exact hs
  | case4 first rest claims d hne hd ih =>
    refine firstSuitable_cons_iff.mpr (.inr ⟨?_, ih h hsame⟩)
    refine not_suitable_of_declared distinct hd fun known assigned htype => ?_
    exact absurd (by rw [← htype]) (hne d.name d.key known assigned)
  | case5 first rest claims hnone hskip ih =>
    refine firstSuitable_cons_iff.mpr (.inr ⟨?_, ih h hsame⟩)
    exact not_suitable_of_skipped distinct hnone (fun n hn => hn) hskip
  | case6 first rest claims hnone hskip hclash ih =>
    -- Here a name was added, and it is not taken away again.
    have hadds := (pickFrom_adds e values rest { claims with collisions := claims.collisions ++ [first] }).length_le
    rw [h, hsame, List.length_append, List.length_singleton] at hadds
    omega
  | case7 first rest claims hnone hskip hfree =>
    cases h
    refine firstSuitable_cons_iff.mpr (.inl ⟨suitable_of_not_skipped distinct hnone ?_ hskip, rfl⟩)
    simp only [Bool.or_eq_true, List.contains_iff_mem, not_or] at hskip
    exact hskip.1.1

theorem isPick_of_pickAll (distinct : (e.registry.values.map (·.name)).Nodup)
    (h : e.pickAll candidates claims = (.ok names, after)) (hsame : after.collisions = claims.collisions) :
    List.Forall₂ (e.IsPick {n | n ∈ claims.collisions}) candidates names := by
  induction candidates generalizing claims names with
  | nil =>
    cases h
    exact .nil
  | cons c rest ih =>
    have hstep := pickFrom_adds e c.values c.names claims
    rw [pickAll, pick] at h
    rcases hfound : e.pickFrom c.values c.names claims with ⟨_ | name, next⟩
    · simp only [hfound] at h
      cases h
    rw [hfound] at hstep
    have hrest := pickAll_adds e rest next
    simp only [hfound] at h
    rcases hall : e.pickAll rest next with ⟨_ | others, last⟩ <;> simp only [hall] at h <;> cases h
    rw [hall] at hrest
    -- The step and the rest both add nothing, since together they do.
    have hnext : next.collisions = claims.collisions := by
      refine hstep.eq_of_length ?_
      have := hstep.length_le
      have hle := hrest.length_le
      rw [hsame] at hle
      exact Nat.le_antisymm hle this
    refine .cons (isPick_iff.mpr (firstSuitable_of_pickFrom distinct hfound hnext)) ?_
    rw [← hnext] at hsame ⊢
    exact ih hall hsame

/-- **The last pass.**  A pass that finds no more shared names gives every candidate its name under the shared
    names, and these are a good set. -/
theorem isPick_of_pass (distinct : (e.registry.values.map (·.name)).Nodup)
    (h : e.pass candidates found = (.ok names, found)) :
    List.Forall₂ (e.IsPick {n | n ∈ found}) candidates names := by
  obtain ⟨hresult, hfound⟩ := Prod.ext_iff.mp h
  exact isPick_of_pickAll distinct (Prod.ext hresult rfl) hfound

theorem good_of_pass (distinct : (e.registry.values.map (·.name)).Nodup)
    (hapart : Apart (candidates.map (·.values))) (h : e.pass candidates found = (.ok names, found)) :
    e.Good candidates {n | n ∈ found} := by
  have hpicks := isPick_of_pass distinct h
  have hresult : (e.pickAll candidates ⟨[], found⟩).1 = .ok names := congrArg Prod.fst h
  have hchosen := (pickAll_eq_ok (Prod.ext hresult rfl)).1
  refine ⟨?_, List.pairwise_iff_getElem.mpr ?_⟩
  · intro c hc
    obtain ⟨i, hi, rfl⟩ := List.getElem_of_mem hc
    exact ⟨_, hpicks.get hi (hpicks.length_eq ▸ hi)⟩
  · intro i j hi hj hlt name hci hcj
    have hi' : i < names.length := hpicks.length_eq ▸ hi
    have hj' : j < names.length := hpicks.length_eq ▸ hj
    have hni : names[i] = name := (hpicks.get hi hi').unique hci
    have hnj : names[j] = name := (hpicks.get hj hj').unique hcj
    -- One name for two candidates is a declared one, which both reuse; but their values differ.
    have hdeclared : e.declared? name ≠ none := by
      rw [← hni]
      exact List.pairwise_iff_getElem.mp hchosen.unshared i j hi' hj' hlt (hni.trans hnj.symm)
    have hreuses : ∀ k (hk : k < candidates.length) (hk' : k < names.length), names[k] = name →
        e.Reuses candidates[k].values name := by
      intro k hk hk' hname
      rw [← hname] at hdeclared ⊢
      exact (hchosen.fits.get hk hk').resolve_right hdeclared
    have hne := List.pairwise_iff_getElem.mp hapart i j (by simpa using hi) (by simpa using hj) hlt
    simp only [List.getElem_map] at hne
    exact hne ((hreuses i hi hi' hni).sameValues (hreuses j hj hj' hnj))

/-! ### The last of the passes -/

/-- With enough passes the last one finds no more shared names. -/
theorem settle_stable {known : List String} {fuel : Nat} (hnodup : known.Nodup)
    (hsub : known ⊆ candidates.flatMap (·.names))
    (hfuel : (candidates.flatMap (·.names)).length ≤ fuel + known.length)
    (h : e.settle candidates fuel known = (.ok names, found)) : e.pass candidates found = (.ok names, found) := by
  have hadds := pass_adds e candidates known
  fun_induction settle e candidates fuel known with
  | case1 known =>
    rw [h] at hadds
    -- All names are known by now.
    have hle := ((hadds.nodup hnodup).subperm (hadds.subset hsub)).length_le
    have hsame : found = known := hadds.eq_of_length (Nat.le_antisymm (by omega) hadds.length_le)
    rw [hsame] at h ⊢
    exact h
  | case2 => cases h
  | case3 fuel known others found' hpass hlength =>
    cases h
    simp only [hpass] at hadds
    have hsame := hadds.eq_of_length hlength
    rw [hsame] at hpass ⊢
    exact hpass
  | case4 fuel known others found' hpass hlength ih =>
    simp only [hpass] at hadds
    have hle := hadds.length_le
    exact ih (hadds.nodup hnodup) (hadds.subset hsub) (by omega) h (pass_adds e candidates found')

/-- Names are refused for one reason only. -/
theorem pickAll_eq_error {failure : Failure} (h : e.pickAll candidates claims = (.error failure, after)) :
    ∃ c ∈ candidates, failure = .enumNameCollision c.path := by
  induction candidates generalizing claims with
  | nil => cases h
  | cons c rest ih =>
    rw [pickAll, pick] at h
    rcases hfound : e.pickFrom c.values c.names claims with ⟨_ | name, next⟩ <;> simp only [hfound] at h
    · cases h
      exact ⟨c, List.mem_cons_self, rfl⟩
    · rcases hall : e.pickAll rest next with ⟨other | names, last⟩ <;> simp only [hall] at h <;> cases h
      obtain ⟨d, hd, hfailure⟩ := ih hall
      exact ⟨d, List.mem_cons_of_mem _ hd, hfailure⟩

theorem settle_eq_error {known : List String} {fuel : Nat} {failure : Failure}
    (h : e.settle candidates fuel known = (.error failure, found)) :
    ∃ c ∈ candidates, failure = .enumNameCollision c.path := by
  have hpassError : ∀ {known : List String} {failure : Failure},
      (e.pass candidates known).1 = .error failure → ∃ c ∈ candidates, failure = .enumNameCollision c.path :=
    fun hresult => pickAll_eq_error (Prod.ext hresult rfl)
  fun_induction settle e candidates fuel known with
  | case1 known => exact hpassError (congrArg Prod.fst h)
  | case2 fuel known failure found' hpass =>
    cases h
    exact hpassError (congrArg Prod.fst hpass)
  | case3 => cases h
  | case4 fuel known others found' hpass hlength ih => exact ih h

/-! ### The final names -/

/-- The final names of a list of candidates, and the names that are shared. -/
def chooseFor (e : EnumNaming) (candidates : List EnumCandidate) : Except Failure (List String) × List String :=
  e.settle candidates (candidates.flatMap fun c => c.path).length []

/-- The enums to write and the declarations and operations with named enums, for a list of candidates. -/
def resolveFor (e : EnumNaming) (candidates : List EnumCandidate) :
    Except Failure (Table String (List String)) × EnumNaming :=
  match (e.chooseFor candidates).1 with
  | .error failure => (.error failure, e)
  | .ok names => (.ok (e.synthesized candidates names), e.apply ((candidates.map (·.values)).zip names))

/-- The final names are those of the least good set.  There are none exactly if no set is good. -/
theorem chooseFor_cases (distinct : (e.registry.values.map (·.name)).Nodup)
    (hapart : Apart (candidates.map (·.values))) :
    (¬ ∃ shared, e.Good candidates shared)
        ∧ (∃ path found, e.chooseFor candidates = (.error (.enumNameCollision path), found))
      ∨ ∃ names found, e.chooseFor candidates = (.ok names, found)
        ∧ IsLeast {shared | e.Good candidates shared} {n | n ∈ found}
        ∧ List.Forall₂ (e.IsPick {n | n ∈ found}) candidates names := by
  -- What the passes collect stays below every good set, so a good set at their end is the least one.
  have hbelow : ∀ shared, e.Good candidates shared →
      ∃ names found, e.chooseFor candidates = (.ok names, found) ∧ ∀ n ∈ found, n ∈ shared :=
    fun shared hgood => settle_below distinct hgood (by simp) _
  rcases hchoose : e.chooseFor candidates with ⟨failure | names, found⟩
  · obtain ⟨c, -, rfl⟩ := settle_eq_error hchoose
    refine .inl ⟨?_, c.path, found, rfl⟩
    rintro ⟨shared, hgood⟩
    obtain ⟨names, found', hok, -⟩ := hbelow shared hgood
    rw [hchoose] at hok
    cases hok
  · have hlength : (candidates.flatMap (·.names)).length = (candidates.flatMap fun c => c.path).length := by
      simp only [List.length_flatMap, length_names]
    have hstable := settle_stable List.nodup_nil (List.nil_subset _) (Nat.le_of_eq hlength) hchoose
    refine .inr ⟨names, found, rfl, ⟨good_of_pass distinct hapart hstable, ?_⟩, isPick_of_pass distinct hstable⟩
    intro shared hgood n hn
    obtain ⟨names', found', hok, hfound⟩ := hbelow shared hgood
    rw [hchoose] at hok
    cases hok
    exact hfound n hn

/-- Under a good set, the names of candidates are a function of the candidate. -/
theorem exists_eq_map (hgood : e.Good candidates shared) : ∃ nameOf : EnumCandidate → String,
    ∀ others names, others.Perm candidates → List.Forall₂ (e.IsPick shared) others names →
      names = others.map nameOf := by
  choose! nameOf hname using hgood.picks
  refine ⟨nameOf, fun others names hperm hpicks => ?_⟩
  have hall : ∀ c ∈ others, e.IsPick shared c (nameOf c) := fun c hc => hname c (hperm.mem_iff.mp hc)
  clear hperm
  induction hpicks with
  | nil => rfl
  | @cons c name others names hpick _ ih =>
    obtain ⟨hc, hrest⟩ := List.forall_mem_cons.mp hall
    rw [List.map_cons, hpick.unique hc, ih hrest]

/-- The final names of the candidates in another order. -/
theorem chooseFor_perm (distinct : (e.registry.values.map (·.name)).Nodup)
    (hapart : Apart (candidates.map (·.values))) {others : List EnumCandidate} (hperm : candidates.Perm others)
    {names : List String} (h : (e.chooseFor candidates).1 = .ok names) :
    ∃ nameOf : EnumCandidate → String, names = candidates.map nameOf
      ∧ (e.chooseFor others).1 = .ok (others.map nameOf) := by
  have hapart' : Apart (others.map (·.values)) := hapart.perm (hperm.map _)
  rcases chooseFor_cases distinct hapart with ⟨-, path, found, hchoose⟩ | ⟨names', found, hchoose, hleast, hpicks⟩
  · rw [hchoose] at h
    cases h
  rw [hchoose] at h
  cases h
  rcases chooseFor_cases distinct hapart' with ⟨hnone, -⟩ | ⟨names', found', hchoose', hleast', hpicks'⟩
  · exact absurd ⟨_, hleast.1.perm hperm⟩ hnone
  -- The good sets are the same, so the least of them is.
  have hsame : {n | n ∈ found} = {n | n ∈ found'} := by
    refine hleast.unique ?_
    simpa only [good_perm_iff hperm] using hleast'
  rw [← hsame] at hpicks'
  obtain ⟨nameOf, hnames⟩ := exists_eq_map hleast.1
  refine ⟨nameOf, hnames candidates names (.refl _) hpicks, ?_⟩
  rw [hchoose', hnames others names' hperm.symm hpicks']

/-! ### Naming by sets of values -/

/-- With different sets of values, the name that is looked up for a set is the one beside it. -/
theorem nameOfValues_eq_some_iff {pairs : List (List String × String)} (hapart : Apart (pairs.map Prod.fst)) :
    nameOfValues pairs values = some name ↔ ∃ known, (known, name) ∈ pairs ∧ sameValues known values = true := by
  induction pairs with
  | nil => simp [nameOfValues]
  | cons pair rest ih =>
    obtain ⟨known, first⟩ := pair
    obtain ⟨hhead, hrest⟩ := List.pairwise_cons.mp hapart
    by_cases hsame : sameValues known values = true
    · have hfind : nameOfValues ((known, first) :: rest) values = some first := by
        simp [nameOfValues, hsame]
      rw [hfind, Option.some.injEq]
      constructor
      · rintro rfl
        exact ⟨known, List.mem_cons_self, hsame⟩
      · rintro ⟨other, hmem, hother⟩
        rcases List.mem_cons.mp hmem with heq | hmem
        · cases heq
          rfl
        · -- Two sets of the table would be the same, as both are the same as this one.
          have hboth := sameValues_trans hsame (sameValues_symm hother)
          exact absurd hboth (hhead other (List.mem_map_of_mem (f := Prod.fst) hmem))
    · have hfind : nameOfValues ((known, first) :: rest) values = nameOfValues rest values := by
        simp [nameOfValues, hsame]
      rw [hfind, ih hrest]
      constructor
      · rintro ⟨other, hmem, hother⟩
        exact ⟨other, List.mem_cons_of_mem _ hmem, hother⟩
      · rintro ⟨other, hmem, hother⟩
        rcases List.mem_cons.mp hmem with heq | hmem
        · cases heq
          exact absurd hother hsame
        · exact ⟨other, hmem, hother⟩

/-- Declarations and operations are named alike by lists that hold the same sets and names. -/
theorem apply_perm (e : EnumNaming) {pairs others : List (List String × String)} (hperm : pairs.Perm others)
    (hapart : Apart (pairs.map Prod.fst)) : e.apply pairs = e.apply others := by
  have hapart' : Apart (others.map Prod.fst) := hapart.perm (hperm.map _)
  have hlookup : nameOfValues pairs = nameOfValues others := by
    funext values
    ext name
    simp only [nameOfValues_eq_some_iff hapart, nameOfValues_eq_some_iff hapart', hperm.mem_iff]
  have htypes : nameEnums pairs = nameEnums others := by
    funext type
    rw [nameEnums_eq_mapNodes, nameEnums_eq_mapNodes, hlookup]
  have hdeclarations : applyToDeclaration pairs = applyToDeclaration others := by
    funext d
    rw [applyToDeclaration, applyToDeclaration, htypes]
  have hoperations : applyToOperation pairs = applyToOperation others := by
    funext o
    rw [applyToOperation, applyToOperation, htypes]
  rw [apply, apply, hdeclarations, hoperations]

/-- Candidates beside their names. -/
theorem zip_map_values (candidates : List EnumCandidate) (nameOf : EnumCandidate → String) :
    (candidates.map (·.values)).zip (candidates.map nameOf) = candidates.map fun c => (c.values, nameOf c) := by
  rw [List.zip_map', List.map_inj_left]
  exact fun c _ => rfl

/-- What it means that the naming of a list of candidates is told by the least good set. -/
structure NamedByLeast (e : EnumNaming) (candidates : List EnumCandidate) : Prop where
  /-- Naming is refused exactly if no set is good. -/
  refused_iff : (∃ path, (e.resolveFor candidates).1 = .error (.enumNameCollision path))
    ↔ ¬ ∃ shared, e.Good candidates shared
  /-- Otherwise the shared names are the least good set, and candidates have their names under it. -/
  named : (∃ shared, e.Good candidates shared) → ∃ names, (e.chooseFor candidates).1 = .ok names
    ∧ (e.resolveFor candidates).1 = .ok (e.synthesized candidates names)
    ∧ IsLeast {shared | e.Good candidates shared} {n | n ∈ (e.chooseFor candidates).2}
    ∧ List.Forall₂ (e.IsPick {n | n ∈ (e.chooseFor candidates).2}) candidates names
  /-- An inline enum with the values of a candidate has the candidate's name. -/
  assigned : ∀ enums after, e.resolveFor candidates = (.ok enums, after) →
    ∀ values assigned, InlineEnum after.registry after.operations values assigned →
    ∀ c ∈ candidates, (∀ value, value ∈ c.values ↔ value ∈ values) →
    ∃ name, assigned = some name ∧ e.IsPick {n | n ∈ (e.chooseFor candidates).2} c name
  /-- The order of the candidates does not matter. -/
  order : ∀ others, candidates.Perm others →
    ((∃ path, (e.resolveFor others).1 = .error (.enumNameCollision path))
        ↔ ∃ path, (e.resolveFor candidates).1 = .error (.enumNameCollision path))
      ∧ (∀ names, (e.chooseFor candidates).1 = .ok names → ∃ nameOf : EnumCandidate → String,
        names = candidates.map nameOf ∧ (e.chooseFor others).1 = .ok (others.map nameOf))
      ∧ (e.resolveFor others).2 = (e.resolveFor candidates).2

theorem resolveFor_of_ok (h : (e.chooseFor candidates).1 = .ok names) : e.resolveFor candidates
    = (.ok (e.synthesized candidates names), e.apply ((candidates.map (·.values)).zip names)) := by
  rw [resolveFor, h]

theorem resolveFor_of_error {failure : Failure} (h : (e.chooseFor candidates).1 = .error failure) :
    e.resolveFor candidates = (.error failure, e) := by
  rw [resolveFor, h]

/-- Naming is refused exactly if no set is good. -/
theorem resolveFor_refused_iff (distinct : (e.registry.values.map (·.name)).Nodup)
    (hapart : Apart (candidates.map (·.values))) :
    (∃ path, (e.resolveFor candidates).1 = .error (.enumNameCollision path))
      ↔ ¬ ∃ shared, e.Good candidates shared := by
  rcases chooseFor_cases distinct hapart with ⟨hnone, path, found, hchoose⟩ | ⟨names, found, hchoose, hleast, -⟩
  · have herror := resolveFor_of_error (congrArg Prod.fst hchoose)
    exact iff_of_true ⟨path, by rw [herror]⟩ hnone
  · have hok := resolveFor_of_ok (congrArg Prod.fst hchoose)
    refine iff_of_false ?_ (not_not_intro ⟨_, hleast.1⟩)
    rintro ⟨path, herror⟩
    rw [hok] at herror
    cases herror

theorem resolveFor_perm (distinct : (e.registry.values.map (·.name)).Nodup)
    (hapart : Apart (candidates.map (·.values))) {others : List EnumCandidate} (hperm : candidates.Perm others) :
    (e.resolveFor others).2 = (e.resolveFor candidates).2 := by
  have hapart' : Apart (others.map (·.values)) := hapart.perm (hperm.map _)
  rcases hchoose : (e.chooseFor candidates).1 with failure | names
  · rcases hchoose' : (e.chooseFor others).1 with failure' | names'
    · rw [resolveFor_of_error hchoose, resolveFor_of_error hchoose']
    · obtain ⟨nameOf, -, hok⟩ := chooseFor_perm distinct hapart' hperm.symm hchoose'
      rw [hchoose] at hok
      cases hok
  · obtain ⟨nameOf, rfl, hchoose'⟩ := chooseFor_perm distinct hapart hperm hchoose
    rw [resolveFor_of_ok hchoose, resolveFor_of_ok hchoose', zip_map_values, zip_map_values]
    refine apply_perm e (hperm.symm.map _) ?_
    rw [List.map_map]
    exact hapart'

theorem namedByLeast (distinct : (e.registry.values.map (·.name)).Nodup)
    (hapart : Apart (candidates.map (·.values))) : e.NamedByLeast candidates := by
  refine ⟨resolveFor_refused_iff distinct hapart, ?_, ?_, ?_⟩
  · intro hgood
    rcases chooseFor_cases distinct hapart with ⟨hnone, -⟩ | ⟨names, found, hchoose, hleast, hpicks⟩
    · exact absurd hgood hnone
    · rw [resolveFor_of_ok (congrArg Prod.fst hchoose), hchoose]
      exact ⟨names, rfl, rfl, hleast, hpicks⟩
  · intro enums after hresolve values assigned hinline c hc hvalues
    rcases chooseFor_cases distinct hapart with ⟨-, path, found, hchoose⟩ | ⟨names, found, hchoose, hleast, hpicks⟩
    · rw [resolveFor_of_error (congrArg Prod.fst hchoose)] at hresolve
      cases hresolve
    rw [resolveFor_of_ok (congrArg Prod.fst hchoose)] at hresolve
    cases hresolve
    obtain ⟨nameOf, hnames⟩ := exists_eq_map hleast.1
    have hmap := hnames candidates names (.refl _) hpicks
    subst hmap
    rw [zip_map_values] at hinline
    obtain ⟨old, -, hassigned⟩ := inlineEnum_apply hinline
    -- The enum has the name that is looked up for its values, which is that of the candidate.
    have hlookup : nameOfValues (candidates.map fun c => (c.values, nameOf c)) values = some (nameOf c) := by
      refine (nameOfValues_eq_some_iff ?_).mpr ⟨c.values, List.mem_map_of_mem hc, sameValues_iff.mpr hvalues⟩
      rw [List.map_map]
      exact hapart
    rw [hlookup, Option.some_or] at hassigned
    refine ⟨nameOf c, hassigned, ?_⟩
    rw [hchoose]
    have hpick := List.forall₂_map_right_iff.mp hpicks
    exact List.forall₂_same.mp hpick c hc
  · intro others hperm
    have hapart' : Apart (others.map (·.values)) := hapart.perm (hperm.map _)
    refine ⟨?_, fun names hnames => chooseFor_perm distinct hapart hperm hnames,
      resolveFor_perm distinct hapart hperm⟩
    rw [resolveFor_refused_iff distinct hapart, resolveFor_refused_iff distinct hapart']
    simp only [good_perm_iff hperm]

/-- **The least choice of names.**  The naming of the enums of declarations with different names, and of every
    list of candidates with different values, is told by the least good set of shared names. -/
theorem resolve_namedByLeast (e : EnumNaming) (distinct : (e.registry.values.map (·.name)).Nodup) :
    e.resolve = e.resolveFor e.candidates ∧ e.choose = e.chooseFor e.candidates ∧ e.NamedByLeast e.candidates
      ∧ ∀ candidates, Apart (candidates.map (·.values)) → e.NamedByLeast candidates :=
  ⟨rfl, rfl, namedByLeast distinct (candidates_apart e), fun _ hapart => namedByLeast distinct hapart⟩

/-- In the small shop pets and orders both ask for `Status`, which is the one shared name; the candidates get the
    same names in the opposite order. -/
theorem shop_namedByLeast :
    ((start (shopRegistry none none none none) (shopOperations none)).registry.values.map (·.name)).Nodup
    ∧ (start (shopRegistry none none none none) (shopOperations none)).NamedByLeast
      (start (shopRegistry none none none none) (shopOperations none)).candidates
    ∧ (start (shopRegistry none none none none) (shopOperations none)).choose
      = (.ok ["PetStatus", "Color", "OrderStatus"], ["Status"])
    ∧ (start (shopRegistry none none none none) (shopOperations none)).chooseFor
        (start (shopRegistry none none none none) (shopOperations none)).candidates.reverse
      = (.ok ["OrderStatus", "Color", "PetStatus"], ["Status"]) := by
  have distinct : ((start (shopRegistry none none none none) (shopOperations none)).registry.values.map
      (·.name)).Nodup := by decide
  exact ⟨distinct, (resolve_namedByLeast _ distinct).2.2.1, by rfl, by rfl⟩

end TypedClient.EnumNaming
