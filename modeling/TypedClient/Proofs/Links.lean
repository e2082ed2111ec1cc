import TypedClient.Proofs.Conversion
import TypedClient.Proofs.Tables
import TypedClient.Proofs.TypeNodes

namespace TypedClient.Schema

open ClientType (Inside)

/-!
# Links of a schema

A conversion meets the links at the places that it goes through, and no others: what stands beside a
link or under a keyword that the kind of the schema has no use for is passed over.

* `Visits` — the links that a conversion goes through.
* `Converts.mem_log_iff_linksTo` — the keys that a conversion meets are those of the links.
* `Converts.mem_log_iff_inside` — they are also the references of the type that comes out.
-/

/-! ### Places of links -/

/-- The schemas that a schema combines: all of them, or else one of them. -/
def combined (entries : List (Value × Value)) : Option Value :=
  (Value.find? "allOf" entries).or (Value.find? "oneOf" entries)

/-- The value `link` is a link at a place that the conversion of a schema goes through. -/
inductive Visits (link : Value) : Value → Prop
  | again {levels content} : Visits link content → Visits link (.again levels content)
  | here {entries} : Value.find? "$ref" entries = some link → Visits link (.map entries)
  | items {entries items} : IsOf entries "array" → Value.find? "items" entries = some items →
      Visits link items → Visits link (.map entries)
  | property {entries described fields label schema} : IsOf entries "object" →
      Value.find? "properties" entries = some described → properties described = .ok fields →
      (label, schema) ∈ fields → Visits link schema → Visits link (.map entries)
  | part {entries list items schema} : IsOf entries "object" →
      combined entries = some list → parts list = .ok items →
      schema ∈ items → Visits link schema → Visits link (.map entries)
  | value {entries element} : IsOf entries "object" →
      Value.find? "properties" entries = none → combined entries = none →
      Value.find? "additionalProperties" entries = some element →
      Visits link element → Visits link (.map entries)

/-- A link that the conversion of a schema goes through denotes a key. -/
def LinksTo (scope : Link.Scope) (schema : Value) (key : String) : Prop :=
  ∃ link, Visits link schema ∧ Link.keyOfValue scope link = .ok key

/-! ### Links of one schema -/

variable {scope : Link.Scope} {link : Value} {key : String} {entries : List (Value × Value)}

/-- A schema is of one type only. -/
theorem IsOf.unique {name other : String} (h : IsOf entries name) (h' : IsOf entries other) :
    name = other := by
  have heq := h.2.symm.trans h'.2
  cases heq
  rfl

theorem IsOf.not_visits {name : String} (h : IsOf entries name) (harray : name ≠ "array")
    (hobject : name ≠ "object") : ¬ Visits link (.map entries) := by
  intro hv
  cases hv with
  | here hlink =>
    rw [h.1] at hlink
    cases hlink
  | items h' => exact harray (h.unique h')
  | property h' | part h' | value h' => exact hobject (h.unique h')

theorem visits_of_ref {stands : Value} (hlink : Value.find? "$ref" entries = some stands) :
    Visits link (.map entries) ↔ link = stands := by
  refine ⟨fun h => ?_, ?_⟩
  · cases h with
    | here h =>
      rw [hlink] at h
      cases h
      rfl
    | items h | property h | part h | value h =>
      have href := h.1
      rw [hlink] at href
      cases href
  · rintro rfl
    exact .here hlink

theorem IsOf.visits_array {items : Value} (h : IsOf entries "array")
    (hitems : Value.find? "items" entries = some items) :
    Visits link (.map entries) ↔ Visits link items := by
  refine ⟨fun hv => ?_, .items h hitems⟩
  cases hv with
  | here hlink =>
    rw [h.1] at hlink
    cases hlink
  | items _ hitems' hv =>
    rw [hitems] at hitems'
    cases hitems'
    exact hv
  | property h' | part h' | value h' => exact absurd (h.unique h') (by decide)

/-- The links of the own properties of a schema. -/
def VisitsOwn (link : Value) (own : Option (List Property)) : Prop :=
  ∃ p ∈ own.getD [], Visits link p.schema

theorem Owns.visits {own : Option (List Property)} (hof : IsOf entries "object")
    (hown : Owns entries own) (h : VisitsOwn link own) : Visits link (.map entries) := by
  obtain ⟨p, hp, hv⟩ := h
  cases own with
  | none => cases hp
  | some own =>
    obtain ⟨v, hfind, hentries, -⟩ := hown
    exact .property hof hfind hentries (List.mem_map_of_mem hp) hv

/-- A link in the schema of a property is a link of the own properties. -/
theorem Owns.visitsOwn {own : Option (List Property)} {described label schema : Value}
    {fields : List (Value × Value)} (hown : Owns entries own)
    (hfind : Value.find? "properties" entries = some described)
    (hfields : properties described = .ok fields) (hmem : (label, schema) ∈ fields)
    (hv : Visits link schema) : VisitsOwn link own := by
  cases own with
  | none =>
    rw [Owns, hfind] at hown
    cases hown
  | some own =>
    obtain ⟨v, hfind', hentries, -⟩ := hown
    rw [hfind] at hfind'
    cases hfind'
    rw [hfields] at hentries
    cases hentries
    obtain ⟨p, hp, heq⟩ := List.mem_map.mp hmem
    cases heq
    exact ⟨p, hp, hv⟩

/-- The links of a schema of type `object` are those of its own properties, then those of the schemas
    that it combines, and only without any of these those of a map's values. -/
theorem IsOf.visits_object {own : Option (List Property)} (hof : IsOf entries "object")
    (hown : Owns entries own) :
    Visits link (.map entries) ↔ VisitsOwn link own
      ∨ (∃ list items, combined entries = some list ∧ parts list = .ok items
        ∧ ∃ schema ∈ items, Visits link schema)
      ∨ (own = none ∧ combined entries = none ∧ ∃ element,
        Value.find? "additionalProperties" entries = some element ∧ Visits link element) := by
  constructor
  · intro hv
    cases hv with
    | here hlink =>
      rw [hof.1] at hlink
      cases hlink
    | items h' => exact absurd (hof.unique h') (by decide)
    | property _ hfind hfields hmem hv => exact .inl (hown.visitsOwn hfind hfields hmem hv)
    | part _ hlist hitems hmem hv => exact .inr (.inl ⟨_, _, hlist, hitems, _, hmem, hv⟩)
    | value _ hnone hcombined helement hv =>
      refine .inr (.inr ⟨?_, hcombined, _, helement, hv⟩)
      cases own with
      | none => rfl
      | some own =>
        obtain ⟨v, hfind, -⟩ := hown
        rw [hnone] at hfind
        cases hfind
  · rintro (h | ⟨list, items, hlist, hitems, schema, hmem, hv⟩ | ⟨rfl, hnone, element, helement, hv⟩)
    · exact hown.visits hof h
    · exact .part hof hlist hitems hmem hv
    · exact .value hof hown hnone helement hv

/-! ### Links and keys -/

theorem mem_ownLog {own : Option (List Property)} :
    key ∈ ownLog own ↔ ∃ p ∈ own.getD [], key ∈ p.log := by
  rw [ownLog, List.mem_flatMap]

/-- The keys that a schema of type `object` links to. -/
theorem IsOf.linksTo_object {own : Option (List Property)} (hof : IsOf entries "object")
    (hown : Owns entries own) :
    LinksTo scope (.map entries) key ↔ (∃ p ∈ own.getD [], LinksTo scope p.schema key)
      ∨ (∃ list items, combined entries = some list ∧ parts list = .ok items
        ∧ ∃ schema ∈ items, LinksTo scope schema key)
      ∨ (own = none ∧ combined entries = none ∧ ∃ element,
        Value.find? "additionalProperties" entries = some element ∧ LinksTo scope element key) := by
  simp only [LinksTo, hof.visits_object hown, VisitsOwn]
  constructor
  · rintro ⟨link, ⟨p, hp, hv⟩ | ⟨list, items, hlist, hitems, schema, hmem, hv⟩
      | ⟨hnone, hcombined, element, helement, hv⟩, hkey⟩
    · exact .inl ⟨p, hp, link, hv, hkey⟩
    · exact .inr (.inl ⟨list, items, hlist, hitems, schema, hmem, link, hv, hkey⟩)
    · exact .inr (.inr ⟨hnone, hcombined, element, helement, link, hv, hkey⟩)
  · rintro (⟨p, hp, link, hv, hkey⟩ | ⟨list, items, hlist, hitems, schema, hmem, link, hv, hkey⟩
      | ⟨hnone, hcombined, element, helement, link, hv, hkey⟩)
    · exact ⟨link, .inl ⟨p, hp, hv⟩, hkey⟩
    · exact ⟨link, .inr (.inl ⟨list, items, hlist, hitems, schema, hmem, hv⟩), hkey⟩
    · exact ⟨link, .inr (.inr ⟨hnone, hcombined, element, helement, hv⟩), hkey⟩

/-- The keys that a schema links to that combines others are those of its own properties and those of
    the schemas that it combines. -/
theorem IsOf.linksTo_combined {own : Option (List Property)} {list : Value}
    {members : List Conversion} (hof : IsOf entries "object") (hown : Owns entries own)
    (hlist : combined entries = some list) (hitems : parts list = .ok (members.map (·.schema))) :
    LinksTo scope (.map entries) key ↔ (∃ p ∈ own.getD [], LinksTo scope p.schema key)
      ∨ ∃ c ∈ members, LinksTo scope c.schema key := by
  rw [hof.linksTo_object hown]
  constructor
  · rintro (h | ⟨list', items, hlist', hitems', schema, hmem, h⟩ | ⟨-, hnone, -⟩)
    · exact .inl h
    · rw [hlist] at hlist'
      cases hlist'
      rw [hitems] at hitems'
      cases hitems'
      obtain ⟨c, hc, rfl⟩ := List.mem_map.mp hmem
      exact .inr ⟨c, hc, h⟩
    · rw [hlist] at hnone
      cases hnone
  · rintro (h | ⟨c, hc, h⟩)
    · exact .inl h
    · exact .inr (.inl ⟨list, _, hlist, hitems, c.schema, List.mem_map_of_mem hc, h⟩)

/-- **The conversion meets what it goes through.**  The keys in the log are those that the links at the
    places of the schema denote. -/
theorem Converts.mem_log_iff_linksTo {schema : Value} {log : List String} {type : ClientType}
    (h : Converts scope schema log type) : key ∈ log ↔ LinksTo scope schema key := by
  induction h with
  | again _ ih =>
    rw [ih]
    constructor
    · rintro ⟨link, hv, hkey⟩
      exact ⟨link, .again hv, hkey⟩
    · rintro ⟨link, hv, hkey⟩
      cases hv with
      | again hv => exact ⟨link, hv, hkey⟩
  | link hlink hkey =>
    simp only [LinksTo, visits_of_ref hlink, exists_eq_left, hkey, Except.ok.injEq,
      List.mem_singleton]
    exact eq_comm
  | boolean hof =>
    simp [LinksTo, hof.not_visits (by decide) (by decide)]
  | number hof =>
    rcases hof with hof | hof
    all_goals simp [LinksTo, hof.not_visits (by decide) (by decide)]
  | string hof =>
    simp [LinksTo, hof.not_visits (by decide) (by decide)]
  | enum hof =>
    simp [LinksTo, hof.not_visits (by decide) (by decide)]
  | array hof hitems _ ih =>
    rw [ih]
    simp only [LinksTo, hof.visits_array hitems]
  | composition hof hown _ hlist hitems _ ihOwn ihMembers =>
    rw [hof.linksTo_combined hown (by rw [combined, hlist, Option.some_or]) hitems,
      List.mem_append, mem_ownLog, List.mem_flatMap]
    exact or_congr (exists_congr fun p => and_congr_right (ihOwn p))
      (exists_congr fun c => and_congr_right (ihMembers c))
  | union hof hown _ hallOf hlist hitems _ _ ihOwn ihMembers =>
    rw [hof.linksTo_combined hown (by rw [combined, hallOf, hlist, Option.none_or]) hitems,
      List.mem_append, mem_ownLog, List.mem_flatMap]
    exact or_congr (exists_congr fun p => and_congr_right (ihOwn p))
      (exists_congr fun c => and_congr_right (ihMembers c))
  | object hof hown _ hallOf honeOf ihOwn =>
    rw [hof.linksTo_object hown, combined, hallOf, honeOf, List.mem_flatMap]
    simp only [Option.getD_some, Option.or_none, reduceCtorEq, false_and, exists_false, or_false]
    exact exists_congr fun p => and_congr_right (ihOwn p)
  | freeFormMap hof hown hallOf honeOf hfind =>
    -- No link can be followed in `true`.
    rw [hof.linksTo_object hown, combined, hallOf, honeOf, hfind]
    simp only [Option.getD_none, List.not_mem_nil, false_and, exists_false, Option.or_none,
      reduceCtorEq, Option.some.injEq, exists_eq_left', true_and, false_or, false_iff]
    rintro ⟨link, hv, -⟩
    cases hv
  | map hof hown hallOf honeOf hfind _ _ ih =>
    rw [hof.linksTo_object hown, combined, hallOf, honeOf, hfind, ih]
    simp

/-- The type of the tag is a reference that one of the shared fields has. -/
theorem inside_of_tagTypeOf {shared : Option (List (Field ClientType))} {property : Value}
    (h : tagTypeOf shared property = .ok (some key)) :
    ∃ fields, shared = some fields ∧ ∃ f ∈ fields, Inside (.ref key) f.type := by
  unfold tagTypeOf at h
  split at h
  · next fields =>
    split at h
    · rw [Except.bind_eq_ok] at h
      obtain ⟨name, -, h⟩ := h
      split at h
      · next target _ hfind =>
        cases h
        exact ⟨fields, rfl, _, List.mem_of_find?_eq_some hfind, .here⟩
      · cases h
    · cases h
  · cases h

/-- The keys in the logs of properties are the references of their fields. -/
theorem exists_mem_log_iff_inside_fields {own : Option (List Property)}
    (ih : ∀ p ∈ own.getD [], key ∈ p.log ↔ Inside (.ref key) p.type) :
    (∃ p ∈ own.getD [], key ∈ p.log)
      ↔ ∃ fields, ownFields own = some fields ∧ ∃ f ∈ fields, Inside (.ref key) f.type := by
  cases own with
  | none => simp [ownFields]
  | some own =>
    simp only [ownFields, Option.getD_some, Option.map_some, Option.some.injEq, exists_eq_left',
      List.mem_map, exists_exists_and_eq_and, Property.field]
    exact exists_congr fun p => and_congr_right (ih p)

/-- The keys in the logs of members are the references of their types. -/
theorem exists_mem_log_iff_inside_types {members : List Conversion}
    (ih : ∀ c ∈ members, key ∈ c.log ↔ Inside (.ref key) c.type) :
    (∃ c ∈ members, key ∈ c.log) ↔ ∃ part ∈ members.map (·.type), Inside (.ref key) part := by
  simp only [List.mem_map, exists_exists_and_eq_and]
  exact exists_congr fun c => and_congr_right (ih c)

/-- The keys that the conversion of a schema meets are the references of its type. -/
theorem Converts.mem_log_iff_inside {schema : Value} {log : List String} {type : ClientType}
    (h : Converts scope schema log type) : key ∈ log ↔ Inside (.ref key) type := by
  induction h with
  | again _ ih => exact ih
  | link => rw [List.mem_singleton, ClientType.inside_ref_ref]
  | boolean | number | string | enum | freeFormMap => simp
  | array _ _ _ ih => rw [ih, ClientType.inside_ref_array]
  | map _ _ _ _ _ _ _ ih => rw [ih, ClientType.inside_ref_map]
  | @composition entries own list members _ _ _ _ _ _ ihOwn ihMembers =>
    -- The own fields are met first, but come last in the type.
    rw [List.mem_append, mem_ownLog, List.mem_flatMap, exists_mem_log_iff_inside_fields ihOwn,
      exists_mem_log_iff_inside_types ihMembers, ClientType.inside_ref_composition, or_comm]
    simp only [List.mem_append, or_and_right, exists_or]
    -- Without fields of its own, the composition has no such member.
    refine or_congr_right ?_
    cases ownFields own <;> simp
  | @union entries own list tag mapping tagType members _ _ _ _ _ _ _ htags ihOwn ihMembers =>
    rw [List.mem_append, mem_ownLog, List.mem_flatMap, exists_mem_log_iff_inside_fields ihOwn,
      exists_mem_log_iff_inside_types ihMembers, ClientType.inside_ref_union, or_comm]
    -- The type of the tag is no new reference, since a shared field has it.
    refine or_congr_right ⟨.inl, ?_⟩
    rintro (h | rfl)
    · exact h
    · obtain ⟨property, _, _, _, htagType, _⟩ := htags
      exact inside_of_tagTypeOf htagType
  | @object entries own _ _ _ _ _ ihOwn =>
    rw [List.mem_flatMap, ClientType.inside_ref_object]
    simp only [List.mem_map, exists_exists_and_eq_and]
    exact exists_congr fun p => and_congr_right (ihOwn p)

/-! ### Names of enums -/

/-- Fields of types that a map leaves as they are. -/
theorem map_field_eq_self {name : List String → Option String → Option String}
    {newKey : String → String} {own : List Property}
    (h : ∀ p ∈ own, p.type.mapNodes name newKey = p.type) :
    ((own.map Property.field).map fun f => { f with type := f.type.mapNodes name newKey })
      = own.map Property.field := by
  rw [List.map_map]
  refine List.map_congr_left fun p hp => ?_
  simp only [Function.comp_apply, Property.field, h p hp]

/-- Types that a map leaves as they are. -/
theorem map_type_eq_self {name : List String → Option String → Option String}
    {newKey : String → String} {members : List Conversion}
    (h : ∀ c ∈ members, c.type.mapNodes name newKey = c.type) :
    (members.map (·.type)).map (ClientType.mapNodes name newKey) = members.map (·.type) := by
  rw [List.map_map]
  exact List.map_congr_left fun c hc => h c hc

/-- A conversion names no enum. -/
theorem Converts.unnamed_eq {schema : Value} {log : List String} {type : ClientType}
    (h : Converts scope schema log type) : type.unnamed = type := by
  unfold ClientType.unnamed
  induction h with
  | again _ ih => exact ih
  | link | boolean | number | string | enum | freeFormMap => rfl
  | array _ _ _ ih => rw [ClientType.mapNodes, ih]
  | map _ _ _ _ _ _ _ ih => rw [ClientType.mapNodes, ih]
  | object _ _ _ _ _ ihOwn => rw [ClientType.mapNodes_object, map_field_eq_self ihOwn]
  | @composition _ own _ _ _ _ _ _ _ _ ihOwn ihMembers =>
    rw [ClientType.mapNodes_composition, List.map_append, map_type_eq_self ihMembers]
    -- The own properties make one more part of the composition.
    cases own with
    | none => rfl
    | some own =>
      rw [Option.getD_some] at ihOwn
      simp only [ownFields, Option.map_some, Option.toList_some, List.map_cons, List.map_nil,
        ClientType.mapNodes_object, map_field_eq_self ihOwn]
  | @union _ own _ _ mapping _ _ _ _ _ _ _ _ _ _ ihOwn ihMembers =>
    rw [ClientType.mapNodes_union, map_type_eq_self ihMembers, Table.map_values_id, Option.map_id_apply]
    cases own with
    | none => rfl
    | some own =>
      rw [Option.getD_some] at ihOwn
      simp only [ownFields, Option.map_some, map_field_eq_self ihOwn]

end TypedClient.Schema
