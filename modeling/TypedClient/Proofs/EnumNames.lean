import TypedClient.EnumNaming
import TypedClient.Proofs.Tables
import TypedClient.Proofs.TypeNodes
import Mathlib.Data.List.Forall2
import Mathlib.Data.List.Pairwise

namespace TypedClient

/-!
# The choice of enum names

What one pass over the candidates guarantees, whatever names are known to be shared when it begins.
A candidate either takes the name of a declared enum with its values, or a name that nothing is declared
under and that no candidate before it has claimed.  So two candidates never end with one name, and the
table of the new enums can be read off the candidates.

* `sameValues_iff` — the test on two lists of values is equality of the sets.
* `candidates_apart`, `exists_candidate` — one candidate for every set of values.
* `Reuses` — a declared enum lends its name.
* `pickFrom_eq_some` — what the search through the names of a candidate finds.
* `Chosen` — what holds of the names of one pass; `choose_eq_ok` gives it for the final names.
* `Chosen.name_eq_iff` — candidates share a name only if they are the same.
* `Chosen.synthesized_eq` — the new enums are the candidates without a declared name.
-/

/-! ### Sets of values -/

namespace ClientType

/-- The test compares the two lists as sets. -/
theorem sameValues_iff {a b : List String} :
    sameValues a b = true ↔ ∀ value, value ∈ a ↔ value ∈ b := by
  simp only [sameValues, Bool.and_eq_true, List.all_eq_true, List.contains_iff_mem]
  exact ⟨fun h value => ⟨h.1 value, h.2 value⟩,
    fun h => ⟨fun value => (h value).mp, fun value => (h value).mpr⟩⟩

theorem sameValues_self (a : List String) : sameValues a a = true :=
  sameValues_iff.mpr fun _ => Iff.rfl

theorem sameValues_symm {a b : List String} (h : sameValues a b = true) : sameValues b a = true :=
  sameValues_iff.mpr fun value => (sameValues_iff.mp h value).symm

theorem sameValues_trans {a b c : List String} (hab : sameValues a b = true)
    (hbc : sameValues b c = true) : sameValues a c = true :=
  sameValues_iff.mpr fun value => (sameValues_iff.mp hab value).trans (sameValues_iff.mp hbc value)

end ClientType

open ClientType

namespace EnumNaming

/-! ### Candidates -/

/-- Adding an enum adds its set of values, unless there is a candidate for the set. -/
theorem map_values_addCandidate (candidates : List EnumCandidate) (node : EnumNode) :
    (addCandidate candidates node).map (·.values)
      = if ∃ c ∈ candidates, sameValues c.values node.values = true
        then candidates.map (·.values) else candidates.map (·.values) ++ [node.values] := by
  induction candidates with
  | nil => simp [addCandidate]
  | cons c rest ih =>
    rw [addCandidate]
    by_cases hc : sameValues c.values node.values = true
    · rw [if_pos hc, if_pos ⟨c, List.mem_cons_self, hc⟩]
      rfl
    · rw [if_neg hc, List.map_cons, ih]
      by_cases hr : ∃ d ∈ rest, sameValues d.values node.values = true
      · obtain ⟨d, hd, hs⟩ := hr
        rw [if_pos ⟨d, hd, hs⟩, if_pos ⟨d, List.mem_cons_of_mem _ hd, hs⟩, List.map_cons]
      · rw [if_neg hr, if_neg, List.map_cons, List.cons_append]
        rintro ⟨d, hd, hs⟩
        rcases List.mem_cons.mp hd with rfl | hd
        · exact hc hs
        · exact hr ⟨d, hd, hs⟩

/-- Lists of values that are all different as sets. -/
def Apart (sets : List (List String)) : Prop :=
  sets.Pairwise fun a b => ¬ sameValues a b = true

/-- Adding an enum to candidates keeps their sets of values apart. -/
theorem apart_addCandidate {candidates : List EnumCandidate}
    (h : Apart (candidates.map (·.values))) (node : EnumNode) :
    Apart ((addCandidate candidates node).map (·.values)) := by
  rw [map_values_addCandidate]
  by_cases hc : ∃ c ∈ candidates, sameValues c.values node.values = true
  · rwa [if_pos hc]
  · rw [if_neg hc]
    refine List.pairwise_append.mpr ⟨h, List.pairwise_singleton _ _, ?_⟩
    intro a ha b hb hs
    obtain ⟨c, hcm, rfl⟩ := List.mem_map.mp ha
    rw [List.mem_singleton] at hb
    subst hb
    exact hc ⟨c, hcm, hs⟩

/-- There is a candidate for an enum that was added, and for every set that there was one for. -/
theorem exists_mem_addCandidate {candidates : List EnumCandidate} {node : EnumNode}
    {values : List String}
    (h : sameValues node.values values = true
      ∨ ∃ c ∈ candidates, sameValues c.values values = true) :
    ∃ c ∈ addCandidate candidates node, sameValues c.values values = true := by
  have hmap : ∃ set ∈ (addCandidate candidates node).map (·.values),
      sameValues set values = true := by
    rw [map_values_addCandidate]
    by_cases hc : ∃ c ∈ candidates, sameValues c.values node.values = true
    · rw [if_pos hc]
      rcases h with hn | ⟨c, hcm, hs⟩
      · obtain ⟨c, hcm, hs⟩ := hc
        exact ⟨c.values, List.mem_map_of_mem hcm, sameValues_trans hs hn⟩
      · exact ⟨c.values, List.mem_map_of_mem hcm, hs⟩
    · rw [if_neg hc]
      rcases h with hn | ⟨c, hcm, hs⟩
      · exact ⟨node.values, List.mem_append_right _ (List.mem_singleton_self _), hn⟩
      · exact ⟨c.values, List.mem_append_left _ (List.mem_map_of_mem hcm), hs⟩
  obtain ⟨set, hset, hs⟩ := hmap
  obtain ⟨c, hc, rfl⟩ := List.mem_map.mp hset
  exact ⟨c, hc, hs⟩

/-- No set of values has two candidates. -/
theorem candidates_apart (e : EnumNaming) : Apart (e.candidates.map (·.values)) := by
  have hfold : ∀ (nodes : List EnumNode) (candidates : List EnumCandidate),
      Apart (candidates.map (·.values)) →
      Apart ((nodes.foldl addCandidate candidates).map (·.values)) := by
    intro nodes
    induction nodes with
    | nil => exact fun _ h => h
    | cons node rest ih => exact fun candidates h => ih _ (apart_addCandidate h node)
  exact hfold e.nodes [] List.Pairwise.nil

/-- Every enum has a candidate with its set of values. -/
theorem exists_candidate {e : EnumNaming} {node : EnumNode} (h : node ∈ e.nodes) :
    ∃ c ∈ e.candidates, sameValues c.values node.values = true := by
  have hfold : ∀ (nodes : List EnumNode) (candidates : List EnumCandidate),
      (node ∈ nodes ∨ ∃ c ∈ candidates, sameValues c.values node.values = true) →
      ∃ c ∈ nodes.foldl addCandidate candidates, sameValues c.values node.values = true := by
    intro nodes
    induction nodes with
    | nil => exact fun candidates h => h.resolve_left (by simp)
    | cons first rest ih =>
      intro candidates h
      rw [List.foldl_cons]
      refine ih _ ?_
      rcases h with h | h
      · rcases List.mem_cons.mp h with rfl | h
        · exact .inr (exists_mem_addCandidate (.inl (sameValues_self _)))
        · exact .inl h
      · exact .inr (exists_mem_addCandidate (.inr h))
  exact hfold e.nodes [] (.inl h)

/-! ### One pass -/

/-- A declared enum with the values lends its name. -/
def Reuses (e : EnumNaming) (values : List String) (name : String) : Prop :=
  ∃ d known old, e.declared? name = some d ∧ d.type = .enum known old ∧
    sameValues known values = true

/-- Sets of values that reuse one name are one set. -/
theorem Reuses.sameValues {e : EnumNaming} {a b : List String} {name : String}
    (ha : e.Reuses a name) (hb : e.Reuses b name) : ClientType.sameValues a b = true := by
  obtain ⟨d, known, old, hd, ht, hs⟩ := ha
  obtain ⟨d', known', old', hd', ht', hs'⟩ := hb
  rw [hd] at hd'
  cases hd'
  rw [ht] at ht'
  cases ht'
  exact sameValues_trans (sameValues_symm hs) hs'

theorem Reuses.declared?_ne_none {e : EnumNaming} {values : List String} {name : String}
    (h : e.Reuses values name) : e.declared? name ≠ none := by
  obtain ⟨d, known, old, hd, -⟩ := h
  rw [hd]
  exact Option.some_ne_none d

/-- What the search through the names of a candidate finds: a name that it reuses, or one that nothing
    is declared under and nobody has claimed.  Only the second is claimed. -/
theorem pickFrom_eq_some {e : EnumNaming} {values names : List String} {claims after : Claims}
    {name : String} (h : e.pickFrom values names claims = (some name, after)) :
    (e.Reuses values name ∧ after.claimed = claims.claimed)
      ∨ (e.declared? name = none ∧ name ∉ claims.claimed ∧ after.claimed = name :: claims.claimed) := by
  fun_induction pickFrom e values names claims with
  | case1 => cases h
  | case2 claims _ _ _ _ known old hd hs =>
    cases h
    exact .inl ⟨⟨_, known, old, hd, rfl, hs⟩, rfl⟩
  -- In all other cases the name is passed over and the search goes on.
  | case3 _ _ _ _ _ _ _ _ _ ih | case4 _ _ _ _ _ _ ih | case5 _ _ _ _ _ ih
  | case6 _ _ _ _ _ _ ih => exact ih h
  | case7 claims first rest hd hskip hclaimed =>
    cases h
    exact .inr ⟨hd, by simpa using hclaimed, rfl⟩

/-- The names that a pass gives: each candidate reuses a declared name or has one that is not declared,
    and only declared names are given twice. -/
structure Chosen (e : EnumNaming) (candidates : List EnumCandidate) (names : List String) : Prop where
  fits : List.Forall₂ (fun c name => e.Reuses c.values name ∨ e.declared? name = none) candidates names
  unshared : names.Pairwise fun m n => m = n → e.declared? m ≠ none

/-- A pass gives every candidate its own name; the names that are not declared are new. -/
theorem pickAll_eq_ok {e : EnumNaming} {candidates : List EnumCandidate} {claims after : Claims}
    {names : List String} (h : e.pickAll candidates claims = (.ok names, after)) :
    e.Chosen candidates names
      ∧ ∀ name ∈ names, e.declared? name = none → name ∉ claims.claimed := by
  induction candidates generalizing claims names with
  | nil =>
    cases h
    exact ⟨⟨.nil, .nil⟩, by simp⟩
  | cons c rest ih =>
    rw [pickAll, pick] at h
    rcases hp : e.pickFrom c.values c.names claims with ⟨_ | name, next⟩
    · simp only [hp] at h
      cases h
    · simp only [hp] at h
      rcases hr : e.pickAll rest next with ⟨failure | others, last⟩
      · simp only [hr] at h
        cases h
      · simp only [hr] at h
        cases h
        obtain ⟨⟨hfits, hunshared⟩, hnew⟩ := ih hr
        -- The names of the others are not in `next.claimed`, which holds this name if it is new.
        rcases pickFrom_eq_some hp with ⟨hreuse, hclaimed⟩ | ⟨hnone, hnot, hclaimed⟩
        · refine ⟨⟨.cons (.inl hreuse) hfits, List.pairwise_cons.mpr ⟨?_, hunshared⟩⟩, ?_⟩
          · exact fun other _ _ => hreuse.declared?_ne_none
          · intro other hother hdecl
            rcases List.mem_cons.mp hother with rfl | hother
            · exact absurd hdecl hreuse.declared?_ne_none
            · rw [← hclaimed]
              exact hnew other hother hdecl
        · refine ⟨⟨.cons (.inr hnone) hfits, List.pairwise_cons.mpr ⟨?_, hunshared⟩⟩, ?_⟩
          · intro other hother heq hdecl
            subst heq
            exact hnew name hother hdecl (by rw [hclaimed]; exact List.mem_cons_self)
          · intro other hother hdecl
            rcases List.mem_cons.mp hother with rfl | hother
            · exact hnot
            · have := hnew other hother hdecl
              rw [hclaimed] at this
              exact fun hmem => this (List.mem_cons_of_mem _ hmem)

/-- The final names come from a pass. -/
theorem settle_eq_ok {e : EnumNaming} {candidates : List EnumCandidate} {fuel : Nat}
    {collisions found names : List String}
    (h : e.settle candidates fuel collisions = (.ok names, found)) :
    ∃ known, (e.pass candidates known).1 = .ok names := by
  fun_induction settle e candidates fuel collisions with
  | case1 collisions => exact ⟨collisions, by rw [h]⟩
  | case2 => cases h
  | case3 fuel collisions others found' hp hlen =>
    cases h
    exact ⟨collisions, by rw [hp]⟩
  | case4 fuel collisions others found' hp hlen ih => exact ih h

/-- **The final names.**  They fit their candidates and are not shared. -/
theorem choose_eq_ok {e : EnumNaming} {names : List String} (h : e.choose.1 = .ok names) :
    e.Chosen e.candidates names := by
  rw [choose] at h
  obtain ⟨known, hk⟩ := settle_eq_ok (Prod.ext h rfl)
  rw [pass] at hk
  exact (pickAll_eq_ok (Prod.ext hk rfl)).1

/-! ### Candidates and their names -/

namespace Chosen

variable {e : EnumNaming} {candidates : List EnumCandidate} {names : List String}

/-- Candidates have one name if and only if they have one set of values. -/
theorem name_eq_iff (h : e.Chosen candidates names) (hap : Apart (candidates.map (·.values)))
    {c d : EnumCandidate} {m n : String} (hc : (c, m) ∈ candidates.zip names)
    (hd : (d, n) ∈ candidates.zip names) : m = n ↔ sameValues c.values d.values = true := by
  by_cases heq : (c, m) = (d, n)
  · cases heq
    exact ⟨fun _ => sameValues_self _, fun _ => rfl⟩
  have hlen := h.fits.length_eq
  -- Both pairwise facts hold of the pairs of candidates and names, in either order.
  have hsets : (candidates.zip names).Pairwise fun p q =>
      ¬ sameValues p.1.values q.1.values = true := by
    have hfst : ((candidates.zip names).map Prod.fst).map EnumCandidate.values
        = candidates.map (·.values) := by rw [List.map_fst_zip (by omega)]
    rw [Apart, ← hfst, List.pairwise_map, List.pairwise_map] at hap
    exact hap
  have hnames : (candidates.zip names).Pairwise fun p q => p.2 = q.2 → e.declared? p.2 ≠ none := by
    have hsnd : (candidates.zip names).map Prod.snd = names := List.map_snd_zip (by omega)
    have hun := h.unshared
    rw [← hsnd, List.pairwise_map] at hun
    exact hun
  have : Std.Symm fun p q : EnumCandidate × String => ¬ sameValues p.1.values q.1.values = true :=
    ⟨fun p q hpq hs => hpq (sameValues_symm hs)⟩
  have : Std.Symm fun p q : EnumCandidate × String => p.2 = q.2 → e.declared? p.2 ≠ none :=
    ⟨fun p q hpq he => he ▸ hpq he.symm⟩
  -- Different candidates have different sets, and may share a name only if both reuse it.
  have hne : ¬ sameValues c.values d.values = true := hsets.forall hc hd heq
  refine ⟨fun hmn => ?_, fun hs => absurd hs hne⟩
  subst hmn
  have hdecl : e.declared? m ≠ none := hnames.forall hc hd heq rfl
  have hreuse := (List.forall₂_zip h.fits hc).resolve_right hdecl
  exact hreuse.sameValues ((List.forall₂_zip h.fits hd).resolve_right hdecl)

/-- The name that is looked up for a set of values is the name of its candidate. -/
theorem exists_nameOfValues (h : e.Chosen candidates names) {values : List String}
    (hc : ∃ c ∈ candidates, sameValues c.values values = true) :
    ∃ c name, (c, name) ∈ candidates.zip names ∧ sameValues c.values values = true
      ∧ nameOfValues ((candidates.map (·.values)).zip names) values = some name := by
  have hlen := h.fits.length_eq
  have hzip : (candidates.map (·.values)).zip names
      = (candidates.zip names).map fun p => (p.1.values, p.2) := by
    rw [List.zip_map_left]
    rfl
  obtain ⟨c, hcm, hs⟩ := hc
  have hfst : (candidates.zip names).map Prod.fst = candidates := List.map_fst_zip (by omega)
  rw [← hfst] at hcm
  obtain ⟨p, hp, rfl⟩ := List.mem_map.mp hcm
  rw [nameOfValues, hzip, List.find?_map]
  cases hfind : (candidates.zip names).find? ((fun x => sameValues x.1 values) ∘
      fun p => (p.1.values, p.2)) with
  | none => exact absurd hs (by simpa using List.find?_eq_none.mp hfind p hp)
  | some q =>
    exact ⟨q.1, q.2, List.mem_of_find?_eq_some hfind, by simpa using List.find?_some hfind, rfl⟩

/-! ### The new enums -/

/-- The new enums with their names: the candidates whose name is not declared. -/
def fresh (e : EnumNaming) (candidates : List EnumCandidate) (names : List String) :
    Table String (List String) :=
  ((candidates.zip names).filter fun p => (e.declared? p.2).isNone).map fun p => (p.2, p.1.values)

theorem mem_fresh_iff {name : String} {values : List String} :
    (name, values) ∈ fresh e candidates names
      ↔ e.declared? name = none ∧ ∃ c, (c, name) ∈ candidates.zip names ∧ c.values = values := by
  simp only [fresh, List.mem_map, List.mem_filter, Option.isNone_iff_eq_none, Prod.mk.injEq]
  constructor
  · rintro ⟨⟨c, n⟩, ⟨hzip, hdecl⟩, rfl, rfl⟩
    exact ⟨hdecl, c, hzip, rfl⟩
  · rintro ⟨hdecl, c, hzip, rfl⟩
    exact ⟨(c, name), ⟨hzip, hdecl⟩, rfl, rfl⟩

/-- No new name is given twice. -/
theorem nodup_keys_fresh (h : e.Chosen candidates names) :
    (Table.keys (fresh e candidates names)).Nodup := by
  have hsnd : (candidates.zip names).map Prod.snd = names :=
    List.map_snd_zip (by have := h.fits.length_eq; omega)
  have hun := h.unshared
  rw [← hsnd, List.pairwise_map] at hun
  simp only [fresh, Table.keys, List.map_map, List.Nodup, List.pairwise_map, Function.comp_apply]
  refine (hun.filter _).imp_of_mem fun hp _ himp heq => himp heq ?_
  simpa using (List.mem_filter.mp hp).2

/-- The new enums are the candidates whose name is not declared, each under its name. -/
theorem synthesized_eq (h : e.Chosen candidates names) :
    e.synthesized candidates names = fresh e candidates names := by
  have hfold : e.synthesized candidates names = Table.ofList (fresh e candidates names) := by
    rw [synthesized, Table.ofList, fresh, List.foldl_map, List.foldl_filter]
    congr 1
    funext enums p
    cases hd : e.declared? p.2 <;> simp [hd]
  rw [hfold, Table.ofList_eq_self h.nodup_keys_fresh]

end Chosen

end EnumNaming

end TypedClient
