import TypedClient.Proofs.Results
import TypedClient.Schema

namespace TypedClient.Schema

/-!
# What a schema is converted to

The conversion of a schema as a relation: which type a schema describes, and which keys are met on the
way.  There is one rule for every kind of schema, and the conversions of the schemas inside of it are
premises, so that what holds of all conversions is proved by induction over the rules.

* `Conversion`, `Property` — a schema that is converted, alone or as a property of another one.
* `Owns`, `Tags` — what the properties and the discriminator of a schema say.
* `Converts` — the rules.
* `convert_eq_ok_iff` — a schema is converted to what the rules say.
-/

/-! ### Schemas inside of a schema -/

/-- A schema, the keys that its conversion meets, and the type that it describes. -/
structure Conversion where
  schema : Value
  log : List String
  type : ClientType

/-- A property of a schema under its name in the document. -/
structure Property extends Conversion where
  label : String
  required : Bool

/-- The field that a property describes. -/
def Property.field (p : Property) : Field ClientType :=
  ⟨Naming.normalize p.label, p.type, p.required⟩

/-- The entry of a document that a property stands in. -/
def Property.entry (p : Property) : Value × Value :=
  (.text p.label, p.schema)

/-- The keys that the conversions of the own properties of a schema meet. -/
def ownLog (own : Option (List Property)) : List String :=
  (own.getD []).flatMap (·.log)

/-- The fields that the own properties of a schema describe. -/
def ownFields (own : Option (List Property)) : Option (List (Field ClientType)) :=
  own.map fun properties => properties.map Property.field

/-- The schema with these entries has these properties of its own; none at all if it says nothing about
    properties. -/
def Owns (entries : List (Value × Value)) : Option (List Property) → Prop
  | none => Value.find? "properties" entries = none
  | some own => ∃ v, Value.find? "properties" entries = some v
      ∧ properties v = .ok (own.map Property.entry)
      ∧ ∀ p ∈ own,
        ((keyword entries "required").orElse (.list [])).holdsText p.label = .ok p.required

/-- The discriminator of the schema with these entries says this about its tag. -/
def Tags (scope : Link.Scope) (entries : List (Value × Value))
    (shared : Option (List (Field ClientType))) (tag : Option String)
    (mapping : Table String String) (tagType : Option String) : Prop :=
  ∃ property described pairs,
    (keyword entries "discriminator").orEmpty.get "propertyName" = .ok property
      ∧ tagTypeOf shared property = .ok tagType
      ∧ tagOf property = .ok tag
      ∧ (keyword entries "discriminator").orEmpty.get "mapping" = .ok described
      ∧ described.orEmpty.entries = .ok pairs
      ∧ mappingKeys scope pairs = .ok mapping

/-- A schema without a link whose type is `name`. -/
def IsOf (entries : List (Value × Value)) (name : String) : Prop :=
  Value.find? "$ref" entries = none ∧ effectiveType entries = .text name

/-! ### Rules -/

/-- A schema describes a type, and its conversion meets the keys of the log. -/
inductive Converts (scope : Link.Scope) : Value → List String → ClientType → Prop
  | again {levels content log type} : Converts scope content log type →
      Converts scope (.again levels content) log type
  | link {entries link key} : Value.find? "$ref" entries = some link →
      Link.keyOfValue scope link = .ok key →
      Converts scope (.map entries) [key] (.ref key)
  | boolean {entries} : IsOf entries "boolean" → Converts scope (.map entries) [] .boolean
  | number {entries} : IsOf entries "number" ∨ IsOf entries "integer" →
      Converts scope (.map entries) [] .number
  | string {entries} : IsOf entries "string" → (keyword entries "enum").isFilled = false →
      Converts scope (.map entries) [] .string
  | enum {entries values} : IsOf entries "string" → (keyword entries "enum").isFilled = true →
      enumValues (keyword entries "enum") = .ok values →
      Converts scope (.map entries) [] (.enum values none)
  | array {entries items log type} : IsOf entries "array" →
      Value.find? "items" entries = some items → Converts scope items log type →
      Converts scope (.map entries) log (.array type)
  | composition {entries own list} {members : List Conversion} : IsOf entries "object" →
      Owns entries own → (∀ p ∈ own.getD [], Converts scope p.schema p.log p.type) →
      Value.find? "allOf" entries = some list → parts list = .ok (members.map (·.schema)) →
      (∀ c ∈ members, Converts scope c.schema c.log c.type) →
      Converts scope (.map entries) (ownLog own ++ members.flatMap (·.log))
        (.composition (members.map (·.type) ++ (ownFields own).toList.map .object))
  | union {entries own list tag mapping tagType} {members : List Conversion} :
      IsOf entries "object" →
      Owns entries own → (∀ p ∈ own.getD [], Converts scope p.schema p.log p.type) →
      Value.find? "allOf" entries = none →
      Value.find? "oneOf" entries = some list → parts list = .ok (members.map (·.schema)) →
      (∀ c ∈ members, Converts scope c.schema c.log c.type) →
      Tags scope entries (ownFields own) tag mapping tagType →
      Converts scope (.map entries) (ownLog own ++ members.flatMap (·.log))
        (.union (members.map (·.type)) tag mapping (ownFields own) tagType)
  | object {entries own} : IsOf entries "object" →
      Owns entries (some own) → (∀ p ∈ own, Converts scope p.schema p.log p.type) →
      Value.find? "allOf" entries = none → Value.find? "oneOf" entries = none →
      Converts scope (.map entries) (own.flatMap (·.log)) (.object (own.map Property.field))
  | freeFormMap {entries} : IsOf entries "object" →
      Owns entries none →
      Value.find? "allOf" entries = none → Value.find? "oneOf" entries = none →
      Value.find? "additionalProperties" entries = some (.bool true) →
      Converts scope (.map entries) [] .freeFormMap
  | map {entries element log type} : IsOf entries "object" →
      Owns entries none →
      Value.find? "allOf" entries = none → Value.find? "oneOf" entries = none →
      Value.find? "additionalProperties" entries = some element → element.isMap = true →
      Converts scope element log type →
      Converts scope (.map entries) log (.map type)

/-! ### Lists of schemas -/

variable {scope : Link.Scope}

/-- Schemas are converted one after the other. -/
theorem convertAll_eq_ok_iff {schemas : List Value} {log : List String} {types : List ClientType} :
    convertAll scope schemas = ⟨log, .ok types⟩
      ↔ ∃ members : List Conversion, members.map (·.schema) = schemas
        ∧ (∀ c ∈ members, convert scope c.schema = ⟨c.log, .ok c.type⟩)
        ∧ members.flatMap (·.log) = log ∧ members.map (·.type) = types := by
  induction schemas generalizing log types with
  | nil =>
    rw [convertAll, Logged.pure_eq_ok]
    constructor
    · rintro ⟨rfl, rfl⟩
      exact ⟨[], rfl, by simp, rfl, rfl⟩
    · rintro ⟨members, hschemas, -, rfl, rfl⟩
      rw [List.map_eq_nil_iff] at hschemas
      subst hschemas
      exact ⟨rfl, rfl⟩
  | cons schema rest ih =>
    simp only [convertAll, Logged.bind_eq_ok, Logged.pure_eq_ok, ih]
    constructor
    · rintro ⟨first, type, _, hfirst, ⟨_, _, _, ⟨members, rfl, hall, rfl, rfl⟩, ⟨rfl, rfl⟩, rfl⟩, rfl⟩
      exact ⟨⟨schema, first, type⟩ :: members, rfl, by simpa [hfirst] using hall, by simp, by simp⟩
    · rintro ⟨members, hschemas, hall, rfl, rfl⟩
      obtain ⟨c, members, rfl, rfl, rfl⟩ := List.map_eq_cons_iff.mp hschemas
      rw [List.forall_mem_cons] at hall
      exact ⟨c.log, c.type, _, hall.1, ⟨_, _, _, ⟨members, rfl, hall.2, rfl, rfl⟩, ⟨rfl, rfl⟩, rfl⟩,
        by simp⟩

theorem asText_eq_ok_iff {v : Value} {s : String} : v.asText = .ok s ↔ v = .text s := by
  cases v <;> simp [Value.asText]

/-- Properties are converted one after the other. -/
theorem convertFields_eq_ok_iff {required : Value} {entries : List (Value × Value)}
    {log : List String} {fields : List (Field ClientType)} :
    convertFields scope required entries = ⟨log, .ok fields⟩
      ↔ ∃ own : List Property, own.map Property.entry = entries
        ∧ (∀ p ∈ own, required.holdsText p.label = .ok p.required)
        ∧ (∀ p ∈ own, convert scope p.schema = ⟨p.log, .ok p.type⟩)
        ∧ own.flatMap (·.log) = log ∧ own.map Property.field = fields := by
  induction entries generalizing log fields with
  | nil =>
    rw [convertFields, Logged.pure_eq_ok]
    constructor
    · rintro ⟨rfl, rfl⟩
      exact ⟨[], rfl, by simp, by simp, rfl, rfl⟩
    · rintro ⟨own, hentries, -, -, rfl, rfl⟩
      rw [List.map_eq_nil_iff] at hentries
      subst hentries
      exact ⟨rfl, rfl⟩
  | cons entry rest ih =>
    obtain ⟨key, schema⟩ := entry
    simp only [convertFields, Logged.bind_eq_ok, Logged.pure_eq_ok, Logged.lift_eq_ok, ih,
      asText_eq_ok_iff]
    constructor
    · rintro ⟨_, name, _, ⟨rfl, rfl⟩, ⟨first, type, _, hfirst, ⟨_, required, _, ⟨rfl, hrequired⟩,
        ⟨_, _, _, ⟨own, rfl, hholds, hall, rfl, rfl⟩, ⟨rfl, rfl⟩, rfl⟩, rfl⟩, rfl⟩, rfl⟩
      refine ⟨⟨⟨schema, first, type⟩, name, required⟩ :: own, rfl, ?_, ?_, ?_, rfl⟩
      · simpa [hrequired] using hholds
      · simpa [hfirst] using hall
      · simp
    · rintro ⟨own, hentries, hholds, hall, rfl, rfl⟩
      obtain ⟨p, own, rfl, hp, rfl⟩ := List.map_eq_cons_iff.mp hentries
      cases hp
      rw [List.forall_mem_cons] at hholds hall
      refine ⟨_, p.label, _, ⟨rfl, rfl⟩, ⟨p.log, p.type, _, hall.1, ⟨_, p.required, _,
        ⟨rfl, hholds.1⟩, ⟨_, _, _, ⟨own, rfl, hholds.2, hall.2, rfl, rfl⟩, ⟨rfl, rfl⟩, rfl⟩, rfl⟩,
        rfl⟩, ?_⟩
      simp

/-- A schema that says something about properties has what it says. -/
theorem owns_iff {entries : List (Value × Value)} {own : Option (List Property)} {v : Value}
    (hfind : Value.find? "properties" entries = some v) :
    Owns entries own
      ↔ ∃ held, own = some held ∧ properties v = .ok (held.map Property.entry) ∧ ∀ p ∈ held,
        ((keyword entries "required").orElse (.list [])).holdsText p.label = .ok p.required := by
  cases own with
  | none => simp [Owns, hfind]
  | some own => simp [Owns, hfind]

/-- The properties of a schema are converted if it has any. -/
theorem convertProperties_eq_ok_iff {entries : List (Value × Value)} {log : List String}
    {fields : Option (List (Field ClientType))} :
    convertProperties scope entries = ⟨log, .ok fields⟩
      ↔ ∃ own, Owns entries own
        ∧ (∀ p ∈ own.getD [], convert scope p.schema = ⟨p.log, .ok p.type⟩)
        ∧ ownLog own = log ∧ ownFields own = fields := by
  rw [convertProperties]
  split
  · next hfind =>
    rw [Logged.pure_eq_ok]
    constructor
    · rintro ⟨rfl, rfl⟩
      exact ⟨none, hfind, by simp, rfl, rfl⟩
    · rintro ⟨own, hown, -, rfl, rfl⟩
      cases own with
      | none => exact ⟨rfl, rfl⟩
      | some own =>
        obtain ⟨v, hv, -⟩ := hown
        rw [hfind] at hv
        cases hv
  · next v hfind =>
    simp only [owns_iff hfind]
    split
    · next described hdescribed =>
      simp only [Logged.bind_eq_ok, Logged.pure_eq_ok, convertFields_eq_ok_iff]
      constructor
      · rintro ⟨_, _, _, ⟨own, rfl, hholds, hall, rfl, rfl⟩, ⟨rfl, rfl⟩, rfl⟩
        exact ⟨some own, ⟨own, rfl, hdescribed, hholds⟩, hall, by simp [ownLog], rfl⟩
      · rintro ⟨_, ⟨own, rfl, hentries, hholds⟩, hall, rfl, rfl⟩
        rw [hdescribed] at hentries
        cases hentries
        exact ⟨_, _, _, ⟨own, rfl, hholds, hall, rfl, rfl⟩, ⟨rfl, rfl⟩, by simp [ownLog]⟩
    · next e hdescribed =>
      constructor
      · intro h
        exact absurd h Logged.throw_ne_ok
      · rintro ⟨_, ⟨own, rfl, hentries, -⟩, -⟩
        rw [hdescribed] at hentries
        cases hentries

/-! ### One schema -/

/-- The conversion of a schema of type `object`, told by the keywords that it has. -/
theorem convertObject_eq (entries : List (Value × Value)) :
    convertObject scope entries = (do
      let own ← convertProperties scope entries
      match Value.find? "allOf" entries, Value.find? "oneOf" entries, own,
          Value.find? "additionalProperties" entries with
      | some list, _, _, _ =>
        return .composition ((← convertAll scope (← parts list)) ++ own.toList.map .object)
      | none, some list, _, _ =>
        let discriminator := (keyword entries "discriminator").orEmpty
        let property ← discriminator.get "propertyName"
        let tagType ← tagTypeOf own property
        let members ← convertAll scope (← parts list)
        let tag ← tagOf property
        let mapping ← mappingKeys scope (← (← discriminator.get "mapping").orEmpty.entries)
        return .union members tag mapping own tagType
      | none, none, some fields, _ => return .object fields
      | none, none, none, some (.bool true) => return .freeFormMap
      | none, none, none, some element =>
        if element.isMap then return .map (← convert scope element)
        else throw (Failure.about (.map entries) (.invalidSchema (.map entries)))
      | none, none, none, none =>
        throw (Failure.about (.map entries) (.invalidSchema (.map entries)))) := by
  -- After the own properties, the keywords are tried in the order of the cases.
  rw [convertObject]
  congr 1
  funext own
  split
  · next list hlist =>
    simp only [hlist]
    split
    · next items hitems =>
      rw [hitems]
      rfl
    · next e he =>
      rw [he]
      rfl
  · next hallOf =>
    simp only [hallOf]
    split
    · next list hlist =>
      simp only [hlist]
      split
      · next items hitems =>
        rw [hitems]
        rfl
      · next e he =>
        rw [he]
        rfl
    · next honeOf =>
      simp only [honeOf]
      cases own with
      | some own => rfl
      | none =>
        simp only
        split
        · next hfind => rw [hfind]
        · next element hne hfind =>
          rw [hfind]
          split
          all_goals grind
        · next hfind => rw [hfind]

/-- A union of converted members; its discriminator is read before and after them. -/
theorem tags_iff {entries : List (Value × Value)} {shared : Option (List (Field ClientType))}
    {list : Value} {log : List String} {type : ClientType} :
    (do
      let property ← (keyword entries "discriminator").orEmpty.get "propertyName"
      let tagType ← tagTypeOf shared property
      let members ← convertAll scope (← parts list)
      let tag ← tagOf property
      let mapping ← mappingKeys scope
        (← (← (keyword entries "discriminator").orEmpty.get "mapping").orEmpty.entries)
      return ClientType.union members tag mapping shared tagType : Logged ClientType) = ⟨log, .ok type⟩
      ↔ ∃ (members : List Conversion) (tag : _) (mapping : _) (tagType : _),
        parts list = .ok (members.map (·.schema))
        ∧ (∀ c ∈ members, convert scope c.schema = ⟨c.log, .ok c.type⟩)
        ∧ Tags scope entries shared tag mapping tagType
        ∧ members.flatMap (·.log) = log
        ∧ .union (members.map (·.type)) tag mapping shared tagType = type := by
  simp only [Logged.bind_eq_ok, Logged.pure_eq_ok, Logged.lift_eq_ok, convertAll_eq_ok_iff]
  -- Only the members meet keys, so all other logs are empty.
  constructor
  · rintro ⟨_, property, _, ⟨rfl, hproperty⟩, ⟨_, tagType, _, ⟨rfl, htagType⟩, ⟨_, items, _,
      ⟨rfl, hitems⟩, ⟨_, _, _, ⟨members, rfl, hall, rfl, rfl⟩, ⟨_, tag, _, ⟨rfl, htag⟩,
      ⟨_, described, _, ⟨rfl, hdescribed⟩, ⟨_, pairs, _, ⟨rfl, hpairs⟩, ⟨_, mapping, _,
      ⟨rfl, hmapping⟩, ⟨rfl, rfl⟩, rfl⟩, rfl⟩, rfl⟩, rfl⟩, rfl⟩, rfl⟩, rfl⟩, rfl⟩
    refine ⟨members, tag, mapping, tagType, hitems, hall, ?_, by simp, rfl⟩
    exact ⟨property, described, pairs, hproperty, htagType, htag, hdescribed, hpairs, hmapping⟩
  · rintro ⟨members, tag, mapping, tagType, hitems, hall, htags, rfl, rfl⟩
    obtain ⟨property, described, pairs, hproperty, htagType, htag, hdescribed, hpairs, hmapping⟩ :=
      htags
    refine ⟨_, property, _, ⟨rfl, hproperty⟩, ⟨_, tagType, _, ⟨rfl, htagType⟩, ⟨_, _, _,
      ⟨rfl, hitems⟩, ⟨_, _, _, ⟨members, rfl, hall, rfl, rfl⟩, ⟨_, tag, _, ⟨rfl, htag⟩,
      ⟨_, described, _, ⟨rfl, hdescribed⟩, ⟨_, pairs, _, ⟨rfl, hpairs⟩, ⟨_, mapping, _,
      ⟨rfl, hmapping⟩, ⟨rfl, rfl⟩, rfl⟩, rfl⟩, rfl⟩, rfl⟩, rfl⟩, rfl⟩, rfl⟩, ?_⟩
    simp

/-- A schema in a list of schemas is smaller than the schema that the list belongs to. -/
theorem sizeOf_lt_of_part {entries : List (Value × Value)} {name : String} {list schema : Value}
    {items : List Value} (hlist : Value.find? name entries = some list)
    (hitems : parts list = .ok items) (h : schema ∈ items) : sizeOf schema < sizeOf entries := by
  have hfind := Value.sizeOf_lt_of_find? hlist
  have hparts := sizeOf_le_of_parts hitems
  have hmem := List.sizeOf_lt_of_mem h
  omega

/-- The schema of a property is smaller than the schema that the property belongs to. -/
theorem sizeOf_lt_of_owned {entries : List (Value × Value)} {own : Option (List Property)}
    (hown : Owns entries own) {p : Property} (h : p ∈ own.getD []) :
    sizeOf p.schema < sizeOf entries := by
  cases own with
  | none => cases h
  | some own =>
    obtain ⟨v, hv, hentries, -⟩ := hown
    have hfind := Value.sizeOf_lt_of_find? hv
    have hproperties := sizeOf_le_of_properties hentries
    have hmem := List.sizeOf_lt_of_mem (List.mem_map_of_mem (f := Property.entry) h)
    rw [Option.getD_some] at hmem
    simp only [Property.entry, Prod.mk.sizeOf_spec] at hmem hproperties
    omega

/-- What a schema of type `object` is converted to by the rules, if the schemas inside of it are. -/
theorem Converts.of_convertObject {entries : List (Value × Value)} {log : List String}
    {type : ClientType} (hof : IsOf entries "object")
    (ih : ∀ schema log type, sizeOf schema < sizeOf entries →
      convert scope schema = ⟨log, .ok type⟩ → Converts scope schema log type)
    (h : convertObject scope entries = ⟨log, .ok type⟩) : Converts scope (.map entries) log type := by
  -- The own properties come first, whatever keywords follow.
  simp only [convertObject_eq, Logged.bind_eq_ok, convertProperties_eq_ok_iff] at h
  obtain ⟨_, _, rest, ⟨own, hown, howned, rfl, rfl⟩, h, rfl⟩ := h
  have howned : ∀ p ∈ own.getD [], Converts scope p.schema p.log p.type :=
    fun p hp => ih _ _ _ (sizeOf_lt_of_owned hown hp) (howned p hp)
  split at h
  · next list hlist =>
    simp only [Logged.bind_eq_ok, Logged.lift_eq_ok, Logged.pure_eq_ok, convertAll_eq_ok_iff] at h
    obtain ⟨_, items, _, ⟨rfl, hitems⟩, ⟨_, _, _, ⟨members, rfl, hall, rfl, rfl⟩, ⟨rfl, rfl⟩, rfl⟩,
      rfl⟩ := h
    rw [List.append_nil, List.nil_append]
    refine .composition hof hown howned hlist hitems fun c hc => ih _ _ _ ?_ (hall c hc)
    exact sizeOf_lt_of_part hlist hitems (List.mem_map_of_mem hc)
  · next list hallOf hlist =>
    obtain ⟨members, tag, mapping, tagType, hitems, hall, htags, rfl, rfl⟩ := tags_iff.mp h
    refine .union hof hown howned hallOf hlist hitems (fun c hc => ih _ _ _ ?_ (hall c hc)) htags
    exact sizeOf_lt_of_part hlist hitems (List.mem_map_of_mem hc)
  · next fields hallOf honeOf hfields =>
    cases own with
    | none => cases hfields
    | some own =>
      cases hfields
      obtain ⟨rfl, rfl⟩ := Logged.pure_eq_ok.mp h
      rw [List.append_nil]
      exact .object hof hown howned hallOf honeOf
  · next hallOf honeOf hnone hmap =>
    cases own with
    | some own => cases hnone
    | none =>
      obtain ⟨rfl, rfl⟩ := Logged.pure_eq_ok.mp h
      exact .freeFormMap hof hown hallOf honeOf hmap
  · next element _ hallOf honeOf hnone hfind =>
    cases own with
    | some own => cases hnone
    | none =>
      split at h
      · next hisMap =>
        simp only [Logged.bind_eq_ok, Logged.pure_eq_ok] at h
        obtain ⟨_, value, _, hvalue, ⟨rfl, rfl⟩, rfl⟩ := h
        have hvalue := ih _ _ _ (Value.sizeOf_lt_of_find? hfind) hvalue
        rw [List.append_nil]
        exact .map hof hown hallOf honeOf hfind hisMap hvalue
      · exact absurd h Logged.throw_ne_ok
  · exact absurd h Logged.throw_ne_ok

/-- A schema whose conversion gives a type is converted by the rules. -/
theorem Converts.of_convert {schema : Value} {log : List String} {type : ClientType}
    (h : convert scope schema = ⟨log, .ok type⟩) : Converts scope schema log type := by
  -- Every schema that the conversion goes into is smaller.
  induction hn : sizeOf schema using Nat.strongRecOn generalizing schema log type with
  | ind n ih =>
    subst hn
    unfold convert at h
    split at h
    · next levels content =>
      have hlt : sizeOf content < sizeOf (Value.again levels content) := by
        simp only [Value.again.sizeOf_spec]
        omega
      exact .again (ih _ hlt h rfl)
    · exact absurd h Logged.throw_ne_ok
    · next entries =>
      have inner : ∀ schema log type, sizeOf schema < sizeOf entries →
          convert scope schema = ⟨log, .ok type⟩ → Converts scope schema log type := by
        intro schema log type hlt h
        refine ih _ ?_ h rfl
        simp only [Value.map.sizeOf_spec]
        omega
      split at h
      · next link hlink =>
        simp only [Logged.bind_eq_ok, Logged.lift_eq_ok, Logged.note_eq_ok, Logged.pure_eq_ok] at h
        obtain ⟨_, key, _, ⟨rfl, hkey⟩, ⟨_, _, _, rfl, ⟨rfl, rfl⟩, rfl⟩, rfl⟩ := h
        exact .link hlink hkey
      · next href =>
        split at h
        · next htype =>
          obtain ⟨rfl, rfl⟩ := Logged.pure_eq_ok.mp h
          exact .boolean ⟨href, htype⟩
        · next htype =>
          obtain ⟨rfl, rfl⟩ := Logged.pure_eq_ok.mp h
          exact .number (.inl ⟨href, htype⟩)
        · next htype =>
          obtain ⟨rfl, rfl⟩ := Logged.pure_eq_ok.mp h
          exact .number (.inr ⟨href, htype⟩)
        · next htype =>
          split at h
          · next henum =>
            simp only [Logged.bind_eq_ok, Logged.lift_eq_ok, Logged.pure_eq_ok] at h
            obtain ⟨_, values, _, ⟨rfl, hvalues⟩, ⟨rfl, rfl⟩, rfl⟩ := h
            exact .enum ⟨href, htype⟩ henum hvalues
          · next henum =>
            obtain ⟨rfl, rfl⟩ := Logged.pure_eq_ok.mp h
            exact .string ⟨href, htype⟩ (Bool.eq_false_iff.mpr henum)
        · next htype =>
          split at h
          · next items hitems =>
            simp only [Logged.bind_eq_ok, Logged.pure_eq_ok] at h
            obtain ⟨_, element, _, helement, ⟨rfl, rfl⟩, rfl⟩ := h
            rw [List.append_nil]
            exact .array ⟨href, htype⟩ hitems
              (inner _ _ _ (Value.sizeOf_lt_of_find? hitems) helement)
          · exact absurd h Logged.throw_ne_ok
        · next htype => exact .of_convertObject ⟨href, htype⟩ inner h
        · exact absurd h Logged.throw_ne_ok
        · exact absurd h Logged.throw_ne_ok
    · exact absurd h Logged.throw_ne_ok

/-- What a schema is converted to by the rules is what its conversion gives. -/
theorem Converts.convert_eq {schema : Value} {log : List String} {type : ClientType}
    (h : Converts scope schema log type) : convert scope schema = ⟨log, .ok type⟩ := by
  induction h with
  | again _ ih =>
    rw [convert]
    exact ih
  | link hlink hkey =>
    rw [convert, hlink]
    simp only [Logged.bind_eq_ok, Logged.lift_eq_ok, Logged.note_eq_ok, Logged.pure_eq_ok]
    exact ⟨_, _, _, ⟨rfl, hkey⟩, ⟨_, (), _, rfl, ⟨rfl, rfl⟩, rfl⟩, rfl⟩
  | boolean hof =>
    simp only [convert, hof.1, hof.2]
    rfl
  | number hof =>
    rcases hof with hof | hof
    · simp only [convert, hof.1, hof.2]
      rfl
    · simp only [convert, hof.1, hof.2]
      rfl
  | string hof henum =>
    simp only [convert, hof.1, hof.2, henum]
    rfl
  | enum hof henum hvalues =>
    simp only [convert, hof.1, hof.2, henum, if_true, hvalues]
    rfl
  | array hof hitems _ ih =>
    simp only [convert, hof.1, hof.2]
    split
    · next found hfound =>
      rw [hitems] at hfound
      cases hfound
      rw [ih]
      simp [bind, pure, Logged.bind, Logged.pure]
    · next hnone =>
      rw [hitems] at hnone
      cases hnone
  | composition hof hown _ hlist hitems _ ihOwn ihMembers =>
    simp only [convert, hof.1, hof.2, convertObject_eq, hlist, Logged.bind_eq_ok, Logged.lift_eq_ok,
      Logged.pure_eq_ok]
    exact ⟨_, _, _, convertProperties_eq_ok_iff.mpr ⟨_, hown, ihOwn, rfl, rfl⟩, ⟨_, _, _,
      ⟨rfl, hitems⟩, ⟨_, _, _, convertAll_eq_ok_iff.mpr ⟨_, rfl, ihMembers, rfl, rfl⟩, ⟨rfl, rfl⟩, rfl⟩,
      rfl⟩, by simp⟩
  | union hof hown _ hallOf hlist hitems _ htags ihOwn ihMembers =>
    simp only [convert, hof.1, hof.2, convertObject_eq, hallOf, hlist]
    rw [Logged.bind_eq_ok]
    exact ⟨_, _, _, convertProperties_eq_ok_iff.mpr ⟨_, hown, ihOwn, rfl, rfl⟩,
      tags_iff.mpr ⟨_, _, _, _, hitems, ihMembers, htags, rfl, rfl⟩, rfl⟩
  | object hof hown _ hallOf honeOf ihOwn =>
    simp only [convert, hof.1, hof.2, convertObject_eq, hallOf, honeOf, Logged.bind_eq_ok]
    exact ⟨_, _, _, convertProperties_eq_ok_iff.mpr ⟨_, hown, ihOwn, rfl, rfl⟩, rfl, by simp [ownLog]⟩
  | freeFormMap hof hown hallOf honeOf hmap =>
    simp only [convert, hof.1, hof.2, convertObject_eq, hallOf, honeOf, hmap, Logged.bind_eq_ok]
    exact ⟨_, _, _, convertProperties_eq_ok_iff.mpr ⟨_, hown, by simp, rfl, rfl⟩, rfl, rfl⟩
  | map hof hown hallOf honeOf hfind hisMap _ ih =>
    simp only [convert, hof.1, hof.2, convertObject_eq, hallOf, honeOf, hfind, Logged.bind_eq_ok]
    refine ⟨_, _, _, convertProperties_eq_ok_iff.mpr ⟨_, hown, by simp, rfl, rfl⟩, ?_, rfl⟩
    -- An element that is a map is not `true`.
    split
    case h_4 heq =>
      cases heq
      cases hisMap
    case h_5 heq =>
      cases heq
      rw [if_pos hisMap, ih]
      simp [bind, pure, Logged.bind, Logged.pure]
    all_goals contradiction

/-- A schema is converted to what the rules say. -/
theorem convert_eq_ok_iff {schema : Value} {log : List String} {type : ClientType} :
    convert scope schema = ⟨log, .ok type⟩ ↔ Converts scope schema log type :=
  ⟨Converts.of_convert, Converts.convert_eq⟩

end TypedClient.Schema
