import TypedClient.Proofs.LeastChoice
import Mathlib.Data.Set.Card

namespace TypedClient.EnumNaming

/-!
# The number of passes

The passes over the candidates go on until one of them finds no more shared names.  Nothing bounds their number
in advance, so here they are a relation, and not a function that stops after some number of them.

Every pass but the last one puts at least one name to the shared ones.  A name is put there only when a candidate
finds it claimed, and it was then claimed by another candidate: a candidate claims one name and looks no further.
So each name that is put there is a name of two candidates, and there is one pass for each such name at most, and
the last one.

* `IsShared` — a name of two different candidates.
* `Passes` — the passes, how many there are and what the last of them leaves.
* `isShared_of_pickFrom`, `isShared_of_pass` — the names that one candidate and one pass put to the shared ones.
* `exists_passes` — the passes end, by induction on the shared names that are not known yet.
* `Passes.settle_eq` — the bound of `settle` is never what ends the passes.
* `choose_ends` — the passes that choose the final names.
-/

/-- A name that two different candidates can have. -/
def IsShared (candidates : List EnumCandidate) (name : String) : Prop :=
  ∃ c ∈ candidates, ∃ d ∈ candidates, c ≠ d
    ∧ (∃ depth, 1 ≤ depth ∧ depth ≤ c.path.length ∧ c.nameAt depth = name)
    ∧ ∃ depth, 1 ≤ depth ∧ depth ≤ d.path.length ∧ d.nameAt depth = name

/-- The passes over the candidates when the names in `known` are known to be shared: how many there are, and what
    the last of them leaves.  It is one that gives a candidate no name, or one that finds no more shared names. -/
inductive Passes (e : EnumNaming) (candidates : List EnumCandidate) :
    List String → Nat → Except Failure (List String) × List String → Prop
  | refused {known found : List String} {failure : Failure}
      (hpass : e.pass candidates known = (.error failure, found)) :
      Passes e candidates known 1 (.error failure, found)
  | last {known names found : List String} (hpass : e.pass candidates known = (.ok names, found))
      (hsame : found.length = known.length) : Passes e candidates known 1 (.ok names, found)
  | next {known names found : List String} {passes : Nat} {out : Except Failure (List String) × List String}
      (hpass : e.pass candidates known = (.ok names, found)) (hmore : found.length ≠ known.length)
      (hrest : Passes e candidates found passes out) : Passes e candidates known (passes + 1) out

variable {e : EnumNaming} {candidates : List EnumCandidate} {known : List String}
  {out : Except Failure (List String) × List String} {passes : Nat}

/-! ### Names that are put to the shared ones -/

theorem mem_names_iff {c : EnumCandidate} {name : String} :
    name ∈ c.names ↔ ∃ depth, 1 ≤ depth ∧ depth ≤ c.path.length ∧ c.nameAt depth = name := by
  simp only [EnumCandidate.names, List.mem_map, List.mem_range]
  constructor
  · rintro ⟨i, hi, rfl⟩
    exact ⟨i + 1, by omega, by omega, rfl⟩
  · rintro ⟨depth, hpos, hle, rfl⟩
    exact ⟨depth - 1, by omega, by rw [Nat.sub_add_cancel hpos]⟩

/-- **One candidate.**  A name that is put to the shared ones is one of the candidate that was claimed before, and
    the candidate claims none but its own. -/
theorem isShared_of_pickFrom (e : EnumNaming) (values names : List String) (claims : Claims) :
    (∀ name ∈ (e.pickFrom values names claims).2.collisions,
        name ∈ claims.collisions ∨ name ∈ names ∧ name ∈ claims.claimed)
      ∧ ∀ name ∈ (e.pickFrom values names claims).2.claimed, name ∈ claims.claimed ∨ name ∈ names := by
  -- The first two cases end, the next three leave a name out; then a name clashes, and at last one is claimed.
  fun_induction pickFrom e values names claims with
  | case1 | case2 => exact ⟨fun _ h => .inl h, fun _ h => .inl h⟩
  | case3 _ _ _ _ _ _ _ _ _ ih | case4 _ _ _ _ _ _ ih | case5 _ _ _ _ _ ih =>
    exact ⟨fun name h => (ih.1 name h).imp_right fun h => ⟨List.mem_cons_of_mem _ h.1, h.2⟩,
      fun name h => (ih.2 name h).imp_right (List.mem_cons_of_mem _)⟩
  | case6 first rest claims _ _ hclash ih =>
    refine ⟨fun name h => ?_, fun name h => (ih.2 name h).imp_right (List.mem_cons_of_mem _)⟩
    rcases ih.1 name h with h | ⟨hname, hclaimed⟩
    · rcases List.mem_append.mp h with h | h
      · exact .inl h
      · rw [List.mem_singleton.mp h]
        exact .inr ⟨List.mem_cons_self, List.contains_iff_mem.mp hclash⟩
    · exact .inr ⟨List.mem_cons_of_mem _ hname, hclaimed⟩
  | case7 first rest claims =>
    refine ⟨fun _ h => .inl h, fun name h => ?_⟩
    rcases List.mem_cons.mp h with rfl | h
    · exact .inr List.mem_cons_self
    · exact .inl h

/-- The candidates in `front` have claimed what is claimed; a name that the others find claimed is a name of one
    of `front` too, or of an earlier one of themselves. -/
theorem isShared_of_pickAll {front rest : List EnumCandidate} (hnodup : (front ++ rest).Nodup) {claims : Claims}
    (hclaimed : ∀ name ∈ claims.claimed, ∃ d ∈ front, name ∈ d.names)
    (hknown : ∀ name ∈ claims.collisions, IsShared (front ++ rest) name) :
    ∀ name ∈ (e.pickAll rest claims).2.collisions, IsShared (front ++ rest) name := by
  induction rest generalizing front claims with
  | nil => exact hknown
  | cons c rest ih =>
    obtain ⟨hcollisions, hnext⟩ := isShared_of_pickFrom e c.values c.names claims
    have hshared : ∀ name ∈ (e.pickFrom c.values c.names claims).2.collisions,
        IsShared (front ++ c :: rest) name := by
      intro name hname
      rcases hcollisions name hname with hold | ⟨hown, hother⟩
      · exact hknown name hold
      · obtain ⟨d, hd, hdname⟩ := hclaimed name hother
        -- The candidate that has claimed the name is in front of this one, so it is another.
        have hne : c ≠ d := fun heq => (List.nodup_append'.mp hnodup).2.2 (heq ▸ hd) List.mem_cons_self
        exact ⟨c, List.mem_append_right _ List.mem_cons_self, d, List.mem_append_left _ hd, hne,
          mem_names_iff.mp hown, mem_names_iff.mp hdname⟩
    have hfront : ∀ name ∈ (e.pickFrom c.values c.names claims).2.claimed, ∃ d ∈ front ++ [c], name ∈ d.names := by
      intro name hname
      rcases hnext name hname with hold | hown
      · obtain ⟨d, hd, hdname⟩ := hclaimed name hold
        exact ⟨d, List.mem_append_left _ hd, hdname⟩
      · exact ⟨c, List.mem_append_right _ (List.mem_singleton_self c), hown⟩
    rw [List.append_cons] at hnodup hshared ⊢
    rw [pickAll, pick]
    rcases hstep : e.pickFrom c.values c.names claims with ⟨_ | first, next⟩ <;> rw [hstep] at hshared hfront
    · exact hshared
    · have hrest := ih hnodup hfront hshared
      rcases hall : e.pickAll rest next with ⟨_ | names, last⟩ <;> rw [hall] at hrest <;>
        simpa only [hall] using hrest

/-- **One pass.**  The names that it puts to the shared ones are names of two candidates. -/
theorem isShared_of_pass (hnodup : candidates.Nodup) (hknown : ∀ name ∈ known, IsShared candidates name) :
    ∀ name ∈ (e.pass candidates known).2, IsShared candidates name := by
  have hclaimed : ∀ name ∈ ([] : List String), ∃ d ∈ ([] : List EnumCandidate), name ∈ d.names := nofun
  have hall : ([] ++ candidates).Nodup := hnodup
  exact isShared_of_pickAll hall hclaimed hknown

/-! ### How many names are shared -/

theorem IsShared.mem_names {name : String} (h : IsShared candidates name) :
    name ∈ candidates.flatMap (·.names) := by
  obtain ⟨c, hc, -, -, -, hname, -⟩ := h
  exact List.mem_flatMap.mpr ⟨c, hc, mem_names_iff.mpr hname⟩

theorem finite_isShared (candidates : List EnumCandidate) : {name | IsShared candidates name}.Finite :=
  (List.finite_toSet (candidates.flatMap EnumCandidate.names)).subset fun _ h => IsShared.mem_names h

/-- There are no more different names in a list than shared ones, if it has only shared ones. -/
theorem length_le_shared (hnodup : known.Nodup) (hknown : ∀ name ∈ known, IsShared candidates name) :
    known.length ≤ {name | IsShared candidates name}.ncard := by
  have hcard := Set.ncard_le_ncard (s := (known.toFinset : Set String))
    (fun name hname => hknown name (by simpa using hname)) (finite_isShared candidates)
  rwa [Set.ncard_coe_finset, List.toFinset_card_of_nodup hnodup] at hcard

/-- Nor more shared names than names on the way to the candidates. -/
theorem ncard_shared_le (candidates : List EnumCandidate) :
    {name | IsShared candidates name}.ncard ≤ (candidates.flatMap fun c => c.path).length := by
  have hcard := Set.ncard_le_ncard (s := {name | IsShared candidates name})
    (t := ((candidates.flatMap (·.names)).toFinset : Set String)) fun name h => by simpa using h.mem_names
  rw [Set.ncard_coe_finset] at hcard
  have hlength := (candidates.flatMap (·.names)).toFinset_card_le
  simp only [List.length_flatMap, length_names] at hlength ⊢
  exact hcard.trans hlength

/-! ### The passes end -/

theorem Passes.pos (h : e.Passes candidates known passes out) : 1 ≤ passes := by
  cases h <;> omega

/-- The passes end in one way. -/
theorem Passes.unique {others : Nat} {out' : Except Failure (List String) × List String}
    (h : e.Passes candidates known passes out) (h' : e.Passes candidates known others out') :
    others = passes ∧ out' = out := by
  -- A pass has one result, and this tells which rule comes next.
  induction h generalizing others with
  | refused hpass =>
    cases h' with
    | refused hpass' => exact ⟨rfl, hpass'.symm.trans hpass⟩
    | last hpass' | next hpass' => cases hpass'.symm.trans hpass
  | last hpass hsame =>
    cases h' with
    | refused hpass' => cases hpass'.symm.trans hpass
    | last hpass' => exact ⟨rfl, hpass'.symm.trans hpass⟩
    | next hpass' hmore' =>
      cases hpass'.symm.trans hpass
      exact absurd hsame hmore'
  | next hpass hmore _ ih =>
    cases h' with
    | refused hpass' => cases hpass'.symm.trans hpass
    | last hpass' hsame' =>
      cases hpass'.symm.trans hpass
      exact absurd hsame' hmore
    | next hpass' _ hrest' =>
      cases hpass'.symm.trans hpass
      obtain ⟨rfl, rfl⟩ := ih hrest'
      exact ⟨rfl, rfl⟩

/-- **All passes.**  With known names that are different and shared, the passes end, and together with the known
    names there is at most one pass more than shared names. -/
theorem exists_passes (hcandidates : candidates.Nodup) (hnodup : known.Nodup)
    (hknown : ∀ name ∈ known, IsShared candidates name) : ∃ passes out, e.Passes candidates known passes out
      ∧ passes + known.length ≤ {name | IsShared candidates name}.ncard + 1
      ∧ ∀ name ∈ out.2, IsShared candidates name := by
  -- Each pass that is not the last leaves fewer shared names unknown.
  induction hleft : {name | IsShared candidates name}.ncard - known.length using Nat.strong_induction_on
    generalizing known with
  | _ left ih =>
    have hle := length_le_shared hnodup hknown
    have hadds := pass_adds e candidates known
    have hshared := isShared_of_pass (e := e) hcandidates hknown
    rcases hpass : e.pass candidates known with ⟨failure | names, found⟩ <;> simp only [hpass] at hadds hshared
    · exact ⟨1, _, .refused hpass, by omega, hshared⟩
    by_cases hsame : found.length = known.length
    · exact ⟨1, _, .last hpass hsame, by omega, hshared⟩
    have hmore : known.length < found.length := lt_of_le_of_ne hadds.length_le (Ne.symm hsame)
    have hfound := length_le_shared (hadds.nodup hnodup) hshared
    obtain ⟨passes, out, hrest, hbound, hout⟩ := ih _ (by omega) (hadds.nodup hnodup) hshared rfl
    exact ⟨passes + 1, out, .next hpass hsame hrest, by omega, hout⟩

/-- As many passes as are left give what the passes leave. -/
theorem Passes.settle_eq (h : e.Passes candidates known passes out) {fuel : Nat} (hfuel : passes ≤ fuel + 1) :
    e.settle candidates fuel known = out := by
  induction h generalizing fuel with
  | refused hpass => cases fuel <;> simp only [settle, hpass]
  | last hpass hsame => cases fuel <;> simp only [settle, hpass, if_pos hsame]
  | next hpass hmore hrest ih =>
    cases fuel with
    | zero =>
      have := hrest.pos
      omega
    | succ fuel =>
      simp only [settle, hpass, if_neg hmore]
      exact ih (by omega)

/-- Candidates have different values, so no two of them are the same. -/
theorem candidates_nodup (e : EnumNaming) : e.candidates.Nodup := by
  have hvalues : (e.candidates.map (·.values)).Nodup := by
    refine (candidates_apart e).imp ?_
    rintro values _ hne rfl
    exact hne (ClientType.sameValues_iff.mpr fun _ => .rfl)
  exact hvalues.of_map _

/-- **Naming ends.**  The passes that choose the final names end in one way, and what they leave is the choice.
    There is at most one more of them than there are shared names, and no other names are found to be shared.
    The enums are then written, or refused as the last pass was. -/
theorem choose_ends (e : EnumNaming) : ∃ passes,
    (∀ n out, e.Passes e.candidates [] n out ↔ n = passes ∧ out = e.choose)
      ∧ passes ≤ {name | IsShared e.candidates name}.ncard + 1
      ∧ (∀ name ∈ e.choose.2, IsShared e.candidates name)
      ∧ ((∃ failure, e.choose.1 = .error failure ∧ e.resolve.1 = .error failure)
        ∨ ∃ names enums, e.choose.1 = .ok names ∧ e.resolve.1 = .ok enums) := by
  obtain ⟨passes, out, hpasses, hbound, hout⟩ := exists_passes (e := e) (candidates_nodup e) List.nodup_nil (by simp)
  have hfuel : passes ≤ (e.candidates.flatMap fun c => c.path).length + 1 := by
    have hle := ncard_shared_le e.candidates
    omega
  have hchoose : e.choose = out := hpasses.settle_eq hfuel
  rw [← hchoose] at hpasses hout
  refine ⟨passes, fun n other => ⟨fun h => hpasses.unique h, ?_⟩, by omega, hout, ?_⟩
  · rintro ⟨rfl, rfl⟩
    exact hpasses
  · rcases hresult : e.choose.1 with failure | names
    · exact .inl ⟨failure, rfl, by rw [resolve, hresult]⟩
    · exact .inr ⟨names, _, rfl, by rw [resolve, hresult]⟩

/-- In the small shop the first pass finds that two candidates ask for `Status`, and the second finds nothing. -/
example : (start (shopRegistry none none none none) (shopOperations none)).Passes
    (start (shopRegistry none none none none) (shopOperations none)).candidates [] 2
    (.ok ["PetStatus", "Color", "OrderStatus"], ["Status"]) :=
  .next (by rfl) (by decide) (.last (by rfl) rfl)

end TypedClient.EnumNaming
