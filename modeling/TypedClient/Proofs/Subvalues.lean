import TypedClient.Proofs.Links
import TypedClient.Resolver

namespace TypedClient.Value

/-!
# The values inside of a value

What is read of a document are values inside of it.  A value has as many values inside as it weighs, so
a document has no more links than it weighs.

* `subvalues` — the values inside of a value, itself included.
* `length_subvalues` — their number is the weight of the value.
* `mem_subvalues_trans` — what is inside of a value inside is inside.
* `mem_subvalues_of_visits` — the links of a schema are inside of it.
-/

mutual

/-- The values that a value consists of, itself included. -/
def subvalues : Value → List Value
  | .list items => .list items :: subvaluesAll items
  | .tuple items => .tuple items :: subvaluesAll items
  | .set items => .set items :: subvaluesAll items
  | .map entries => .map entries :: subvaluesOfEntries entries
  | .again levels content => .again levels content :: subvalues content
  | v => [v]

/-- The values that some values consist of. -/
def subvaluesAll : List Value → List Value
  | [] => []
  | v :: rest => subvalues v ++ subvaluesAll rest

/-- The values that the entries of a map consist of. -/
def subvaluesOfEntries : List (Value × Value) → List Value
  | [] => []
  | (k, v) :: rest => subvalues k ++ subvalues v ++ subvaluesOfEntries rest

end

mutual

/-- A value consists of as many values as it weighs. -/
theorem length_subvalues : ∀ v : Value, (subvalues v).length = v.weight
  | .list items | .tuple items | .set items => by
    simp [subvalues, weight, length_subvaluesAll items]
  | .map entries => by simp [subvalues, weight, length_subvaluesOfEntries entries]
  | .again levels content => by simp [subvalues, weight, length_subvalues content]
  | .null | .bool _ | .int _ | .float _ | .text _ | .bytes _ | .date _ | .time _ | .moment _
  | .endless => by simp [subvalues, weight]

theorem length_subvaluesAll : ∀ items : List Value, (subvaluesAll items).length = weightAll items
  | [] => by simp [subvaluesAll, weightAll]
  | v :: rest => by simp [subvaluesAll, weightAll, length_subvalues v, length_subvaluesAll rest]

theorem length_subvaluesOfEntries : ∀ entries : List (Value × Value),
    (subvaluesOfEntries entries).length = weightEntries entries
  | [] => by simp [subvaluesOfEntries, weightEntries]
  | (k, v) :: rest => by
    simp [subvaluesOfEntries, weightEntries, length_subvalues k, length_subvalues v,
      length_subvaluesOfEntries rest, Nat.add_assoc]

end

/-! ### Values inside -/

theorem mem_subvalues_self (v : Value) : v ∈ subvalues v := by
  cases v <;> simp [subvalues]

theorem mem_subvaluesAll_iff {v : Value} {items : List Value} :
    v ∈ subvaluesAll items ↔ ∃ item ∈ items, v ∈ subvalues item := by
  induction items with
  | nil => simp [subvaluesAll]
  | cons item rest ih => rw [subvaluesAll, List.mem_append, ih, List.exists_mem_cons_iff]

theorem mem_subvaluesOfEntries_iff {v : Value} {entries : List (Value × Value)} :
    v ∈ subvaluesOfEntries entries ↔ ∃ e ∈ entries, v ∈ subvalues e.1 ∨ v ∈ subvalues e.2 := by
  induction entries with
  | nil => simp [subvaluesOfEntries]
  | cons e rest ih =>
    obtain ⟨k, w⟩ := e
    rw [subvaluesOfEntries, List.mem_append, List.mem_append, ih, List.exists_mem_cons_iff]

mutual

/-- What is inside of a value inside is inside. -/
theorem mem_subvalues_trans {u v : Value} (h : u ∈ subvalues v) :
    ∀ w : Value, v ∈ subvalues w → u ∈ subvalues w
  | .list items, h' | .tuple items, h' | .set items, h' => by
    rw [subvalues] at h'
    rcases List.mem_cons.mp h' with rfl | h'
    · exact h
    · rw [subvalues]
      exact List.mem_cons_of_mem _ (mem_subvaluesAll_trans h items h')
  | .map entries, h' => by
    rw [subvalues] at h'
    rcases List.mem_cons.mp h' with rfl | h'
    · exact h
    · rw [subvalues]
      exact List.mem_cons_of_mem _ (mem_subvaluesOfEntries_trans h entries h')
  | .again levels content, h' => by
    rw [subvalues] at h'
    rcases List.mem_cons.mp h' with rfl | h'
    · exact h
    · rw [subvalues]
      exact List.mem_cons_of_mem _ (mem_subvalues_trans h content h')
  | .null, h' | .bool _, h' | .int _, h' | .float _, h' | .text _, h' | .bytes _, h' | .date _, h'
  | .time _, h' | .moment _, h' | .endless, h' => by
    simp only [subvalues, List.mem_singleton] at h'
    subst h'
    exact h

theorem mem_subvaluesAll_trans {u v : Value} (h : u ∈ subvalues v) :
    ∀ items : List Value, v ∈ subvaluesAll items → u ∈ subvaluesAll items
  | [], h' => by cases h'
  | item :: rest, h' => by
    rw [subvaluesAll, List.mem_append] at h' ⊢
    exact h'.imp (mem_subvalues_trans h item) (mem_subvaluesAll_trans h rest)

theorem mem_subvaluesOfEntries_trans {u v : Value} (h : u ∈ subvalues v) :
    ∀ entries : List (Value × Value), v ∈ subvaluesOfEntries entries →
      u ∈ subvaluesOfEntries entries
  | [], h' => by cases h'
  | (k, w) :: rest, h' => by
    rw [subvaluesOfEntries, List.mem_append, List.mem_append] at h' ⊢
    exact h'.imp (Or.imp (mem_subvalues_trans h k) (mem_subvalues_trans h w))
      (mem_subvaluesOfEntries_trans h rest)

end

/-! ### Parts that are read -/

theorem mem_of_lookup {key v : Value} {entries : List (Value × Value)}
    (h : lookup key entries = some v) : ∃ k, (k, v) ∈ entries := by
  induction entries with
  | nil => cases h
  | cons e rest ih =>
    obtain ⟨k, w⟩ := e
    rw [lookup] at h
    split at h
    · cases h
      exact ⟨k, List.mem_cons_self⟩
    · obtain ⟨k', hk'⟩ := ih h
      exact ⟨k', List.mem_cons_of_mem _ hk'⟩

theorem mem_subvalues_of_mem {k v : Value} {entries : List (Value × Value)} (h : (k, v) ∈ entries) :
    v ∈ subvalues (.map entries) := by
  rw [subvalues]
  refine List.mem_cons_of_mem _ (mem_subvaluesOfEntries_iff.mpr ⟨(k, v), h, .inr ?_⟩)
  exact mem_subvalues_self v

theorem mem_subvalues_of_find? {name : String} {v : Value} {entries : List (Value × Value)}
    (h : find? name entries = some v) : v ∈ subvalues (.map entries) := by
  obtain ⟨k, hk⟩ := mem_of_lookup h
  exact mem_subvalues_of_mem hk

theorem bare_mem_subvalues (v : Value) : v.bare ∈ subvalues v := by
  fun_induction bare v with
  | case1 levels content ih =>
    rw [subvalues]
    exact List.mem_cons_of_mem _ ih
  | case2 v => exact mem_subvalues_self v

/-- The entries of a map are inside of it. -/
theorem mem_subvalues_of_entries {v : Value} {es : List (Value × Value)} (h : v.entries = .ok es)
    {k w : Value} (hmem : (k, w) ∈ es) : w ∈ subvalues v := by
  have hbare : v.bare = .map es := by
    unfold entries at h
    split at h
    · next hv =>
      cases h
      exact hv
    · cases h
    · cases h
  refine mem_subvalues_trans ?_ v (bare_mem_subvalues v)
  rw [hbare]
  exact mem_subvalues_of_mem hmem

/-- What is found in a map, or in an empty map in place of it, is inside of it. -/
theorem mem_subvalues_of_orEmpty {v w : Value} {es : List (Value × Value)}
    (h : v.orEmpty.entries = .ok es) {k : Value} (hmem : (k, w) ∈ es) : w ∈ subvalues v := by
  unfold orEmpty orElse at h
  split at h
  · exact mem_subvalues_of_entries h hmem
  · cases h
    cases hmem

/-- What is inside of an entry under a name is inside of the map. -/
theorem mem_subvalues_of_get {v found u : Value} {name : String} (h : v.get name = .ok found)
    (hfilled : found ≠ .null) (hu : u ∈ subvalues found) : u ∈ subvalues v := by
  unfold get at h
  obtain ⟨es, hes, hfound⟩ := Except.map_eq_ok.mp h
  cases hfind : find? name es with
  | none =>
    rw [hfind] at hfound
    exact absurd hfound.symm hfilled
  | some w =>
    rw [hfind] at hfound
    cases hfound
    obtain ⟨k, hk⟩ := mem_of_lookup hfind
    exact mem_subvalues_trans hu v (mem_subvalues_of_entries hes hk)

/-- The schemas that a document holds for others are inside of it. -/
theorem mem_subvalues_of_schemasOf {document : Value} {schemas : List (Value × Value)}
    (h : Resolver.schemasOf document = .ok schemas) {label schema : Value}
    (hmem : (label, schema) ∈ schemas) : schema ∈ subvalues document := by
  simp only [Resolver.schemasOf, Except.bind_eq_ok] at h
  obtain ⟨components, hcomponents, described, hdescribed, hschemas⟩ := h
  have hinside := mem_subvalues_of_orEmpty hschemas hmem
  -- Without a description there would be no schema.
  have hne : described ≠ .null := by
    rintro rfl
    cases hschemas
    cases hmem
  unfold orEmpty orElse at hdescribed
  split at hdescribed
  · next hfilled =>
    refine mem_subvalues_of_get hcomponents ?_ (mem_subvalues_of_get hdescribed hne hinside)
    rintro rfl
    cases hfilled
  · cases hdescribed
    exact absurd rfl hne

/-! ### Links -/

/-- The schemas of a list are inside of it. -/
theorem mem_subvalues_of_parts {list schema : Value} {items : List Value}
    (h : Schema.parts list = .ok items) (hmem : schema ∈ items) : schema ∈ subvalues list := by
  have hbare : schema ∈ subvalues list.bare := by
    have hself : schema ∈ subvaluesAll items :=
      mem_subvaluesAll_iff.mpr ⟨schema, hmem, mem_subvalues_self schema⟩
    unfold Schema.parts at h
    split at h
    case h_4 =>
      obtain ⟨elements, -, h⟩ := Except.bind_eq_ok.mp h
      cases elements with
      | nil =>
        cases h
        cases hmem
      | cons first rest => cases h
    all_goals
      next hlist =>
        cases h
        rw [hlist, subvalues]
        exact List.mem_cons_of_mem _ hself
  exact mem_subvalues_trans hbare list (bare_mem_subvalues list)

/-- The schemas of properties are inside of what describes them. -/
theorem mem_subvalues_of_properties {described label schema : Value} {fields : List (Value × Value)}
    (h : Schema.properties described = .ok fields) (hmem : (label, schema) ∈ fields) :
    schema ∈ subvalues described := by
  unfold Schema.properties at h
  split at h
  · exact mem_subvalues_of_entries h hmem
  · cases h
    cases hmem

/-- The links of a schema stand in maps that are inside of it. -/
theorem exists_map_of_visits {link schema : Value} (h : Schema.Visits link schema) :
    ∃ entries, .map entries ∈ subvalues schema ∧ find? "$ref" entries = some link := by
  induction h with
  | again _ ih =>
    obtain ⟨entries, hmem, hlink⟩ := ih
    refine ⟨entries, ?_, hlink⟩
    rw [subvalues]
    exact List.mem_cons_of_mem _ hmem
  | here hlink => exact ⟨_, mem_subvalues_self _, hlink⟩
  | items _ hitems _ ih =>
    obtain ⟨entries, hmem, hlink⟩ := ih
    exact ⟨entries, mem_subvalues_trans hmem _ (mem_subvalues_of_find? hitems), hlink⟩
  | property _ hfind hfields hproperty _ ih =>
    obtain ⟨entries, hmem, hlink⟩ := ih
    have hschema := mem_subvalues_trans (mem_subvalues_of_properties hfields hproperty) _
      (mem_subvalues_of_find? hfind)
    exact ⟨entries, mem_subvalues_trans hmem _ hschema, hlink⟩
  | @part outer list _ _ _ hlist hitems hpart _ ih =>
    obtain ⟨entries, hmem, hlink⟩ := ih
    have hlist : list ∈ subvalues (.map outer) := by
      rcases Option.or_eq_some_iff.mp hlist with hfind | ⟨-, hfind⟩
      · exact mem_subvalues_of_find? hfind
      · exact mem_subvalues_of_find? hfind
    have hschema := mem_subvalues_trans (mem_subvalues_of_parts hitems hpart) _ hlist
    exact ⟨entries, mem_subvalues_trans hmem _ hschema, hlink⟩
  | value _ _ _ hfind _ ih =>
    obtain ⟨entries, hmem, hlink⟩ := ih
    exact ⟨entries, mem_subvalues_trans hmem _ (mem_subvalues_of_find? hfind), hlink⟩

/-- The links of a schema are inside of it. -/
theorem mem_subvalues_of_visits {link schema : Value} (h : Schema.Visits link schema) :
    link ∈ subvalues schema := by
  obtain ⟨entries, hmem, hlink⟩ := exists_map_of_visits h
  exact mem_subvalues_trans (mem_subvalues_of_find? hlink) _ hmem

end TypedClient.Value
