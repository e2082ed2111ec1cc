import Mathlib
import TypedClient.Proofs.Extraction

namespace TypedClient.Route

/-!
# Parameters that match their route

The parameters of an operation are checked one after the other against the placeholders of the route, and each
placeholder is taken by one parameter.  Taken together, the checks say that the names of the parameters in the
path are the placeholders of the route, each as often as it stands there.

* `Described`, `Describes` — the description of a parameter.
* `merge` — the descriptions of a path and of an operation, which override those of the path.
* `offence?` — what is wrong about a description behind others.
* `bindParameters_append` — checking goes on with the placeholders that are left.
* `noOffence_iff` — nothing is wrong exactly if the names in the path are placeholders, none too often.
* `extractOperation_parameters` — which operations get past their parameters, and what stops the others.
-/

/-! ### Descriptions -/

/-- A described parameter: its name, its place if it has one, and whether it counts as required. -/
structure Described where
  name : String
  place : Option String
  required : Bool
  deriving Repr

namespace Described

/-- Name and place tell a parameter from others. -/
def key (d : Described) : String × Option String :=
  (d.name, d.place)

/-- The place as a value of the document. -/
def placeValue (d : Described) : Value :=
  match d.place with
  | some place => .text place
  | none => .null

/-- The parameter of an operation; what stands in the path is always required. -/
def parameter (d : Described) : Parameter :=
  if d.place = some "path" then ⟨.path, Naming.normalize d.name, .string, true⟩
  else ⟨.query, Naming.normalize d.name, .string, d.required⟩

end Described

/-- A value describes a parameter: its name is a text, and its place is a text or missing. -/
structure Describes (v : Value) (d : Described) : Prop where
  name : v.get "name" = .ok (.text d.name)
  place : v.get "in" = .ok d.placeValue
  required : ∃ required, v.get "required" = .ok required ∧ required.isFilled = d.required

/-- The descriptions of the path that the operation does not override, then those of the operation. -/
def merge (shared own : List Described) : List Described :=
  (shared.filter fun d => d.key ∉ own.map Described.key) ++ own

/-- The names of the parameters in the path. -/
def pathNames (ds : List Described) : List String :=
  (ds.filter fun d => d.place = some "path").map (·.name)

theorem pathNames_append (ds others : List Described) :
    pathNames (ds ++ others) = pathNames ds ++ pathNames others := by
  rw [pathNames, List.filter_append, List.map_append, pathNames, pathNames]

/-- Every map with a text as its name, and a text or nothing as its place, describes a parameter. -/
theorem exists_describes {entries : List (Value × Value)} {name : String}
    (hname : Value.find? "name" entries = some (.text name))
    (hplace : Value.find? "in" entries = none ∨ ∃ place, Value.find? "in" entries = some (.text place)) :
    ∃ d : Described, d.name = name ∧ Describes (.map entries) d := by
  have hget : ∀ key, (Value.map entries).get key = .ok ((Value.find? key entries).getD .null) := fun _ => rfl
  rcases hplace with hplace | ⟨place, hplace⟩
  · refine ⟨⟨name, none, ((Value.find? "required" entries).getD .null).isFilled⟩, rfl, ?_, ?_, _, hget _, rfl⟩
    · rw [hget, hname]
      rfl
    · rw [hget, hplace]
      rfl
  · refine ⟨⟨name, some place, ((Value.find? "required" entries).getD .null).isFilled⟩, rfl, ?_, ?_, _, hget _, rfl⟩
    · rw [hget, hname]
      rfl
    · rw [hget, hplace]
      rfl

/-! ### Merging -/

/-- A filter over values keeps the values of what is kept of their meanings. -/
theorem exists_filterM_eq_ok {α β : Type} {R : α → β → Prop} {test : α → Except Failure Bool} {keep : β → Bool}
    {xs : List α} {ys : List β} (h : List.Forall₂ R xs ys) (htest : ∀ x y, R x y → test x = .ok (keep y)) :
    ∃ kept, xs.filterM test = .ok kept ∧ List.Forall₂ R kept (ys.filter keep) := by
  -- The filter collects in reverse and in front of what it holds, which the induction has to know about.
  have haux : ∃ kept, (∀ before, xs.filterAuxM test before = .ok (kept.reverse ++ before))
      ∧ List.Forall₂ R kept (ys.filter keep) := by
    induction h with
    | nil => exact ⟨[], fun before => rfl, .nil⟩
    | @cons x y xs ys hxy _ ih =>
      obtain ⟨kept, haux, hkept⟩ := ih
      cases hkeep : keep y with
      | false =>
        rw [List.filter_cons_of_neg (by simp [hkeep])]
        refine ⟨kept, fun before => ?_, hkept⟩
        rw [List.filterAuxM, htest x y hxy, Except.ok_bind, hkeep, haux, cond_false]
      | true =>
        rw [List.filter_cons_of_pos hkeep]
        refine ⟨x :: kept, fun before => ?_, .cons hxy hkept⟩
        rw [List.filterAuxM, htest x y hxy, Except.ok_bind, hkeep, haux, cond_true, List.reverse_cons,
          List.append_assoc, List.singleton_append]
  obtain ⟨kept, haux, hkept⟩ := haux
  refine ⟨kept, ?_, hkept⟩
  rw [List.filterM, haux, Except.ok_bind, List.append_nil, List.reverse_reverse]
  rfl

variable {v : Value} {d : Described} {items sharedItems ownItems : List Value}
  {ds shared own : List Described}

theorem Describes.parameterKey (h : Describes v d) : parameterKey v = .ok (.text d.name, d.placeValue) := by
  rw [Route.parameterKey, h.name, h.place]
  obtain ⟨name, place, required⟩ := d
  cases place <;> rfl

/-- Keys as values of the document are equal exactly if the keys are. -/
theorem contains_keys_iff : (own.map fun o => ((.text o.name, o.placeValue) : Value × Value)).contains
    (.text d.name, d.placeValue) = true ↔ d.key ∈ own.map Described.key := by
  have hsame : ∀ o : Described, ((((.text d.name, d.placeValue) : Value × Value) == (.text o.name, o.placeValue))
      = true) ↔ d.key = o.key := by
    intro o
    obtain ⟨name, place, required⟩ := d
    obtain ⟨name', place', required'⟩ := o
    show (Value.same _ _ && Value.same _ _) = true ↔ _
    cases place <;> cases place' <;>
      simp [Described.key, Described.placeValue, Value.same, Value.toInt?]
  rw [List.contains_iff_exists_mem_beq, List.mem_map]
  constructor
  · rintro ⟨key, hkey, heq⟩
    obtain ⟨o, ho, rfl⟩ := List.mem_map.mp hkey
    exact ⟨o, ho, ((hsame o).mp heq).symm⟩
  · rintro ⟨o, ho, heq⟩
    exact ⟨_, List.mem_map_of_mem ho, (hsame o).mpr heq.symm⟩

theorem mergeParameters_eq_ok (hshared : List.Forall₂ Describes sharedItems shared)
    (hown : List.Forall₂ Describes ownItems own) :
    ∃ merged, mergeParameters (.list sharedItems) (.list ownItems) = .ok merged
      ∧ List.Forall₂ Describes merged (merge shared own) := by
  have hkeys : ownItems.mapM parameterKey
      = .ok (own.map fun o => ((.text o.name, o.placeValue) : Value × Value)) := by
    rw [Except.mapM_eq_ok, List.forall₂_map_right_iff]
    exact hown.imp fun _ _ h => h.parameterKey
  have htest : ∀ v d, Describes v d → (do
      let key ← parameterKey v
      return !(own.map fun o => ((.text o.name, o.placeValue) : Value × Value)).contains key : Except Failure Bool)
        = .ok (decide (d.key ∉ own.map Described.key)) := by
    intro v d hd
    rw [hd.parameterKey, Except.ok_bind, Except.pure_eq_ok, Bool.eq_iff_iff, Bool.not_eq_true', ← Bool.not_eq_true,
      contains_keys_iff, decide_eq_true_iff]
  obtain ⟨kept, hfilter, hkept⟩ := exists_filterM_eq_ok hshared htest
  refine ⟨kept ++ ownItems, ?_, List.rel_append hkept hown⟩
  have helements : ∀ items : List Value, (Value.list items).elements = .ok items := fun _ => rfl
  rw [mergeParameters, helements, helements, Except.ok_bind, hkeys, Except.ok_bind, Except.ok_bind, hfilter]
  rfl

/-! ### What is wrong about a description -/

/-- What is wrong about a description behind others, if anything.  A name in the path must be required, and it must
    stand in the route once more than in front. -/
def offence? (route : String) (names : List String) (before : List Described) (d : Described) : Option Failure :=
  if d.place = some "path" then
    if d.required = false then some (.optionalPathParameter route (.text d.name))
    else if names.count d.name ≤ (pathNames before).count d.name then
      some (.undeclaredPathParameter route (.text d.name))
    else none
  else if d.place = some "query" then none
  else some (.unsupportedLocation route d.placeValue)

/-- Nothing is wrong about any of the descriptions. -/
def NoOffence (route : String) (names : List String) (ds : List Described) : Prop :=
  ∀ before d after, ds = before ++ d :: after → offence? route names before d = none

/-- The failure is about the first description that something is wrong about. -/
def FirstOffence (route : String) (names : List String) (ds : List Described) (failure : Failure) : Prop :=
  ∃ before d after, ds = before ++ d :: after ∧ NoOffence route names before
    ∧ offence? route names before d = some failure

variable {route : String} {names : List String} {failure : Failure}

theorem noOffence_nil : NoOffence route names [] := by
  intro before d after h
  simp at h

theorem noOffence_concat_iff :
    NoOffence route names (ds ++ [d]) ↔ NoOffence route names ds ∧ offence? route names ds d = none := by
  constructor
  · intro h
    refine ⟨fun before d' after hds => ?_, h ds d [] rfl⟩
    exact h before d' (after ++ [d]) (by rw [hds, List.append_assoc, List.cons_append])
  · rintro ⟨hds, hd⟩ before d' after heq
    rcases List.eq_nil_or_concat after with rfl | ⟨after, last, rfl⟩
    · obtain ⟨rfl, hlast⟩ := List.append_inj' heq rfl
      cases hlast
      exact hd
    · rw [List.concat_eq_append, ← List.cons_append, ← List.append_assoc] at heq
      exact hds before d' after (List.append_inj' heq rfl).1

/-- Either nothing is wrong, or there is a first description that something is wrong about. -/
theorem noOffence_or_firstOffence (route : String) (names : List String) (ds : List Described) :
    NoOffence route names ds ∨ ∃ failure, FirstOffence route names ds failure := by
  induction ds using List.reverseRecOn with
  | nil => exact .inl noOffence_nil
  | append_singleton ds d ih =>
    rcases ih with hnone | ⟨failure, before, d', after, rfl, hbefore, hfailure⟩
    · cases hd : offence? route names ds d with
      | none => exact .inl (noOffence_concat_iff.mpr ⟨hnone, hd⟩)
      | some failure => exact .inr ⟨failure, ds, d, [], rfl, hnone, hd⟩
    · exact .inr ⟨failure, before, d', after ++ [d], by simp, hbefore, hfailure⟩

/-- One more name fits exactly if it stands in the route more often than it was taken. -/
theorem subperm_concat_iff {taken names : List String} {name : String} :
    (taken ++ [name]).Subperm names ↔ taken.Subperm names ∧ taken.count name < names.count name := by
  simp only [List.subperm_iff_count, List.count_append, List.count_singleton]
  constructor
  · intro h
    refine ⟨fun other => Nat.le_trans (Nat.le_add_right ..) (h other), ?_⟩
    have := h name
    rw [beq_self_eq_true, if_pos rfl] at this
    omega
  · rintro ⟨hle, hlt⟩ other
    by_cases hname : name = other
    · subst hname
      rw [beq_self_eq_true, if_pos rfl]
      omega
    · rw [if_neg (by simpa using hname), Nat.add_zero]
      exact hle other

/-- **No offence.**  Nothing is wrong exactly if all parameters are in the path or the query, those in the path are
    required, and their names are placeholders of the route, none taken too often. -/
theorem noOffence_iff : NoOffence route names ds
    ↔ (∀ d ∈ ds, d.place = some "path" ∨ d.place = some "query")
      ∧ (∀ d ∈ ds, d.place = some "path" → d.required = true) ∧ (pathNames ds).Subperm names := by
  induction ds using List.reverseRecOn with
  | nil => exact iff_of_true noOffence_nil ⟨by simp, by simp, List.nil_subperm⟩
  | append_singleton ds d ih =>
    rw [noOffence_concat_iff, ih, pathNames_append]
    simp only [List.forall_mem_append, List.forall_mem_singleton]
    by_cases hpath : d.place = some "path"
    · have hnames : pathNames [d] = [d.name] := by simp [pathNames, hpath]
      rw [hnames, subperm_concat_iff]
      by_cases hrequired : d.required = true
      · by_cases hlt : (pathNames ds).count d.name < names.count d.name
        · simp [offence?, hpath, hrequired, hlt]
        · simp [offence?, hpath, hrequired, hlt]
      · simp [offence?, hpath, hrequired]
    · have hnames : pathNames [d] = [] := by simp [pathNames, hpath]
      rw [hnames, List.append_nil]
      by_cases hquery : d.place = some "query"
      · simp [offence?, hquery]
      · simp [offence?, hpath, hquery]

/-! ### Checking -/

/-- **One check.**  With the placeholders that the descriptions in front have left, a description is refused for
    what is wrong about it, or it takes its placeholder. -/
theorem bindParameter_eq (h : Describes v d) (before : List Described) :
    bindParameter route (names.diff (pathNames before)) v
      = match offence? route names before d with
        | some failure => .error failure
        | none => .ok (d.parameter, names.diff (pathNames (before ++ [d]))) := by
  obtain ⟨required, hget, hrequired⟩ := h.required
  rw [bindParameter, h.place, h.name, hget, Except.ok_bind, Except.ok_bind, Except.ok_bind, hrequired]
  obtain ⟨name, place, required⟩ := d
  by_cases hpath : place = some "path"
  · subst hpath
    have hnames : pathNames (before ++ [⟨name, some "path", required⟩]) = pathNames before ++ [name] := by
      rw [pathNames_append]
      rfl
    -- A placeholder is left as long as it stands in the route more often than it has been taken.
    have hleft : (names.diff (pathNames before)).contains name = true
        ↔ ¬ names.count name ≤ (pathNames before).count name := by
      rw [List.contains_iff_mem, ← List.count_pos_iff, List.count_diff]
      omega
    rw [hnames, List.diff_append, List.diff_cons, List.diff_nil]
    cases required with
    | false => rfl
    | true =>
      by_cases htaken : names.count name ≤ (pathNames before).count name
      · have hmissing : (names.diff (pathNames before)).contains name = false := by
          rw [← Bool.not_eq_true, hleft]
          exact not_not_intro htaken
        simp only [Described.placeValue, offence?, hmissing, if_pos htaken]
        rfl
      · simp only [Described.placeValue, offence?, hleft.mpr htaken, if_neg htaken]
        rfl
  · have hnames : pathNames (before ++ [⟨name, place, required⟩]) = pathNames before := by
      rw [pathNames_append]
      simp [pathNames, hpath]
    rw [hnames]
    by_cases hquery : place = some "query"
    · subst hquery
      rfl
    · -- A place that is missing or another text.
      have hoffence : offence? route names before ⟨name, place, required⟩
          = some (.unsupportedLocation route (Described.placeValue ⟨name, place, required⟩)) := by
        simp [offence?, hpath, hquery]
      rw [hoffence]
      cases place with
      | none => rfl
      | some text =>
        simp only [Option.some.injEq] at hpath hquery
        simp only [Described.placeValue]
        split
        · next heq => exact absurd (Value.text.inj heq) hpath
        · next heq => exact absurd (Value.text.inj heq) hquery
        · rfl

/-- Checking goes on with the placeholders that are left. -/
theorem bindParameters_append (route : String) (unbound : List String) (items others : List Value) :
    bindParameters route unbound (items ++ others) = (do
      let (bound, unbound) ← bindParameters route unbound items
      let (more, unbound) ← bindParameters route unbound others
      return (bound ++ more, unbound)) := by
  induction items generalizing unbound with
  | nil => simp [bindParameters]
  | cons item items ih =>
    simp only [List.cons_append, bindParameters, ih, bind_assoc, pure_bind]

/-- What is related to a list in two parts has two parts. -/
theorem exists_append_of_forall₂ {α β : Type} {R : α → β → Prop} {xs : List α} {ys zs : List β}
    (h : List.Forall₂ R xs (ys ++ zs)) :
    ∃ front back, xs = front ++ back ∧ List.Forall₂ R front ys ∧ List.Forall₂ R back zs :=
  ⟨xs.take ys.length, xs.drop ys.length, (List.take_append_drop ..).symm, List.forall₂_take_append _ _ _ h,
    List.forall₂_drop_append _ _ _ h⟩

/-- If nothing is wrong, every description becomes a parameter and takes its placeholder. -/
theorem bindParameters_of_noOffence (h : List.Forall₂ Describes items ds) (hnone : NoOffence route names ds) :
    bindParameters route names items = .ok (ds.map Described.parameter, names.diff (pathNames ds)) := by
  induction ds using List.reverseRecOn generalizing items with
  | nil =>
    cases h
    rfl
  | append_singleton ds d ih =>
    obtain ⟨items, back, rfl, hitems, hback⟩ := exists_append_of_forall₂ h
    obtain ⟨last, _, hlast, hnil, rfl⟩ := List.forall₂_cons_right_iff.mp hback
    cases hnil
    obtain ⟨hds, hd⟩ := noOffence_concat_iff.mp hnone
    rw [bindParameters_append, ih hitems hds, Except.ok_bind]
    simp only [bindParameters, bindParameter_eq hlast, hd, Except.ok_bind, pure_bind, List.map_append,
      List.map_singleton]
    rfl

/-- Otherwise the first thing that is wrong is the failure. -/
theorem bindParameters_of_firstOffence (h : List.Forall₂ Describes items ds)
    (hfirst : FirstOffence route names ds failure) : bindParameters route names items = .error failure := by
  obtain ⟨before, d, after, rfl, hbefore, hfailure⟩ := hfirst
  obtain ⟨items, back, rfl, hitems, hback⟩ := exists_append_of_forall₂ h
  obtain ⟨item, others, hitem, hothers, rfl⟩ := List.forall₂_cons_right_iff.mp hback
  rw [bindParameters_append, bindParameters_of_noOffence hitems hbefore, Except.ok_bind]
  simp only [bindParameters, bindParameter_eq hitem, hfailure, Except.error_bind]

/-! ### Operations and their parameters -/

/-- The descriptions match the route: it is well formed, the names in the path are its placeholders, each as often
    as it stands there, and all parameters are in the path or the query, those in the path required. -/
structure MatchesRoute (route : String) (ds : List Described) : Prop where
  names : ∃ names, parameterNames route = .ok names ∧ (pathNames ds).Perm names
  places : ∀ d ∈ ds, d.place = some "path" ∨ d.place = some "query"
  required : ∀ d ∈ ds, d.place = some "path" → d.required = true

/-- What stops an operation at its parameters. -/
inductive Mismatch (route : String) (ds : List Described) : Failure → Prop
  /-- The route has a brace that belongs to no placeholder. -/
  | malformed : parameterNames route = .error (.malformedRoute route) → Mismatch route ds (.malformedRoute route)
  /-- The first description that something is wrong about. -/
  | offence {names : List String} {failure : Failure} : parameterNames route = .ok names →
    FirstOffence route names ds failure → Mismatch route ds failure
  /-- Nothing is wrong about the descriptions, but placeholders are left over, listed as in the route. -/
  | unbound {names left : List String} : parameterNames route = .ok names → NoOffence route names ds →
    left ≠ [] → left = names.diff (pathNames ds) → left.Sublist names → (pathNames ds ++ left).Perm names →
    Mismatch route ds (.unboundPathParameters route left)

/-- A route has placeholders, or it is malformed. -/
theorem parameterNames_cases (route : String) :
    parameterNames route = .error (.malformedRoute route) ∨ ∃ names, parameterNames route = .ok names := by
  by_cases hbrace : ((placeholders route.toList).2.contains '{' || (placeholders route.toList).2.contains '}') = true
  · exact .inl (if_pos hbrace)
  · exact .inr ⟨_, if_neg hbrace⟩

/-- Names that fit leave nothing over exactly if they are all of the names. -/
theorem diff_eq_nil_iff_perm {taken names : List String} (h : taken.Subperm names) :
    names.diff taken = [] ↔ taken.Perm names := by
  have hperm : (taken ++ names.diff taken).Perm names :=
    List.subperm_append_diff_self_of_count_le fun name _ => List.subperm_iff_count.mp h name
  constructor
  · intro hnil
    rwa [hnil, List.append_nil] at hperm
  · intro hsame
    have hlength := hperm.length_eq
    rw [List.length_append, hsame.length_eq] at hlength
    exact List.eq_nil_of_length_eq_zero (by omega)

/-- Descriptions match their route, or something stops them. -/
theorem matchesRoute_or_mismatch (route : String) (ds : List Described) :
    MatchesRoute route ds ∨ ∃ failure, Mismatch route ds failure := by
  rcases parameterNames_cases route with hbad | ⟨names, hnames⟩
  · exact .inr ⟨_, .malformed hbad⟩
  rcases noOffence_or_firstOffence route names ds with hnone | ⟨failure, hfirst⟩
  · obtain ⟨hplaces, hrequired, hfits⟩ := noOffence_iff.mp hnone
    by_cases hleft : names.diff (pathNames ds) = []
    · exact .inl ⟨⟨names, hnames, (diff_eq_nil_iff_perm hfits).mp hleft⟩, hplaces, hrequired⟩
    · have hperm : (pathNames ds ++ names.diff (pathNames ds)).Perm names :=
        List.subperm_append_diff_self_of_count_le fun name _ => List.subperm_iff_count.mp hfits name
      exact .inr ⟨_, .unbound hnames hnone hleft rfl (List.diff_sublist ..) hperm⟩
  · exact .inr ⟨failure, .offence hnames hfirst⟩

variable {spec given : Value}

/-- The head of an operation is read from its merged descriptions. -/
theorem exists_headOf_eq (route : String) (hshared : List.Forall₂ Describes sharedItems shared)
    (hown : List.Forall₂ Describes ownItems own) (hspec : spec.get "parameters" = .ok given)
    (hgiven : given.orElse (.list []) = .list ownItems) :
    ∃ merged, List.Forall₂ Describes merged (merge shared own)
      ∧ headOf (.text route) spec (.list sharedItems) = (do
        let names ← parameterNames route
        let (bound, unbound) ← bindParameters route names merged
        if unbound.isEmpty then return (route, bound) else throw (.unboundPathParameters route unbound)) := by
  obtain ⟨merged, hmerge, hmerged⟩ := mergeParameters_eq_ok hshared hown
  have hroute : (Value.text route).asText = .ok route := rfl
  exact ⟨merged, hmerged, by simp only [headOf, hroute, hspec, hgiven, hmerge, Except.ok_bind]⟩

/-- Descriptions that match the route become the parameters of the operation. -/
theorem headOf_of_matchesRoute (hshared : List.Forall₂ Describes sharedItems shared)
    (hown : List.Forall₂ Describes ownItems own) (hspec : spec.get "parameters" = .ok given)
    (hgiven : given.orElse (.list []) = .list ownItems) (h : MatchesRoute route (merge shared own)) :
    headOf (.text route) spec (.list sharedItems) = .ok (route, (merge shared own).map Described.parameter) := by
  obtain ⟨merged, hmerged, hhead⟩ := exists_headOf_eq route hshared hown hspec hgiven
  obtain ⟨names, hnames, hperm⟩ := h.names
  have hnone : NoOffence route names (merge shared own) := noOffence_iff.mpr ⟨h.places, h.required, hperm.subperm⟩
  rw [hhead, hnames, Except.ok_bind, bindParameters_of_noOffence hmerged hnone, Except.ok_bind]
  simp only [(diff_eq_nil_iff_perm hperm.subperm).mpr hperm]
  rfl

/-- What stops the descriptions is the failure. -/
theorem headOf_of_mismatch (hshared : List.Forall₂ Describes sharedItems shared)
    (hown : List.Forall₂ Describes ownItems own) (hspec : spec.get "parameters" = .ok given)
    (hgiven : given.orElse (.list []) = .list ownItems) (h : Mismatch route (merge shared own) failure) :
    headOf (.text route) spec (.list sharedItems) = .error failure := by
  obtain ⟨merged, hmerged, hhead⟩ := exists_headOf_eq route hshared hown hspec hgiven
  rw [hhead]
  cases h with
  | malformed hbad => rw [hbad, Except.error_bind]
  | offence hnames hfirst =>
    rw [hnames, Except.ok_bind, bindParameters_of_firstOffence hmerged hfirst, Except.error_bind]
  | unbound hnames hnone hne hleft =>
    subst hleft
    rw [hnames, Except.ok_bind, bindParameters_of_noOffence hmerged hnone, Except.ok_bind]
    simp only [List.isEmpty_iff, hne]
    rfl

/-- **Operations and their parameters.**  The head of an operation is read exactly if the merged descriptions match
    the route.  Then the parameters of the operation begin with the merged ones in order, and its schemas are
    converted; otherwise what stops the descriptions is the failure of the operation. -/
theorem extractOperation_parameters {entry method : String}
    (hshared : List.Forall₂ Describes sharedItems shared) (hown : List.Forall₂ Describes ownItems own)
    (hspec : spec.get "parameters" = .ok given) (hgiven : given.orElse (.list []) = .list ownItems) :
    ((∃ head, headOf (.text route) spec (.list sharedItems) = .ok head) ↔ MatchesRoute route (merge shared own))
    ∧ (MatchesRoute route (merge shared own) →
        extractOperation entry (.text route) method spec (.list sharedItems) = (do
          let sent ← bodyOf entry method route spec
          let result ← resultOf entry route spec
          return ⟨method, route, (merge shared own).map Described.parameter ++ sent.1, sent.2, result⟩))
    ∧ (¬ MatchesRoute route (merge shared own) → ∃ failure, Mismatch route (merge shared own) failure)
    ∧ ∀ failure, Mismatch route (merge shared own) failure →
        extractOperation entry (.text route) method spec (.list sharedItems) = ⟨[], .error failure⟩ := by
  refine ⟨⟨?_, fun h => ⟨_, headOf_of_matchesRoute hshared hown hspec hgiven h⟩⟩, fun h => ?_,
    (matchesRoute_or_mismatch route _).resolve_left, ?_⟩
  · rintro ⟨head, hhead⟩
    refine (matchesRoute_or_mismatch route _).resolve_right ?_
    rintro ⟨failure, hfailure⟩
    rw [headOf_of_mismatch hshared hown hspec hgiven hfailure] at hhead
    cases hhead
  · rw [extractOperation_eq, headOf_of_matchesRoute hshared hown hspec hgiven h, Logged.lift_ok_bind]
  · intro failure h
    rw [extractOperation_eq, headOf_of_mismatch hshared hown hspec hgiven h, Logged.lift_error_bind]
    rfl

/-! ### A route with two placeholders -/

/-- The parameters that belong to the path: the placeholder twice, and a page. -/
def pagesShared : List Value :=
  [.map [(.text "name", .text "id"), (.text "in", .text "path"), (.text "required", .bool true)],
    .map [(.text "name", .text "page"), (.text "in", .text "query"), (.text "required", .bool true)],
    .map [(.text "name", .text "id"), (.text "in", .text "path"), (.text "required", .int 1)]]

/-- The operation describes the page itself. -/
def pagesSpec : Value :=
  .map [(.text "parameters", .list [.map [(.text "name", .text "page"), (.text "in", .text "query")]]),
    (.text "responses", .map [(.text "200", .null)])]

/-- A placeholder that stands twice in the route is described twice, and the page need not be given. -/
theorem pages_parameters : extractOperation "api.json" (.text "/{id}/{id}") "GET" pagesSpec (.list pagesShared)
    = ⟨[], .ok ⟨"GET", "/{id}/{id}", [⟨.path, "id", .string, true⟩, ⟨.path, "id", .string, true⟩,
        ⟨.query, "page", .string, false⟩], [], .void⟩⟩ := by
  have hshared : List.Forall₂ Describes pagesShared
      [⟨"id", some "path", true⟩, ⟨"page", some "query", true⟩, ⟨"id", some "path", true⟩] :=
    .cons ⟨rfl, rfl, _, rfl, rfl⟩ (.cons ⟨rfl, rfl, _, rfl, rfl⟩ (.cons ⟨rfl, rfl, _, rfl, rfl⟩ .nil))
  have hown : List.Forall₂ Describes
      [.map [(.text "name", .text "page"), (.text "in", .text "query")]] [⟨"page", some "query", false⟩] :=
    .cons ⟨rfl, rfl, _, rfl, rfl⟩ .nil
  have hmatch : MatchesRoute "/{id}/{id}"
      (merge [⟨"id", some "path", true⟩, ⟨"page", some "query", true⟩, ⟨"id", some "path", true⟩]
        [⟨"page", some "query", false⟩]) := by
    have hnames : parameterNames "/{id}/{id}" = .ok ["id", "id"] := by cbv
    exact ⟨⟨_, hnames, by decide⟩, by decide, by decide⟩
  have hspec : pagesSpec.get "parameters"
      = .ok (.list [.map [(.text "name", .text "page"), (.text "in", .text "query")]]) := rfl
  rw [(extractOperation_parameters hshared hown hspec rfl).2.1 hmatch]
  rfl

end TypedClient.Route
