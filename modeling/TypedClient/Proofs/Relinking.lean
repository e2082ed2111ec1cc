import TypedClient.Proofs.Renaming
import TypedClient.Proofs.Tables

namespace TypedClient.Schema

/-!
# Schemas that say the same from another place

A schema can move to another file, and the schemas that it links to can move as well.  It says the same
as before if its links are written so that they denote the new keys; what a conversion does not read may
change in any way.

* `Move` — where links stand before and after, and the key that every key becomes.
* `Relinked` — a schema, and one that says the same after a move.
* `Relinked.preserves` — they are converted to the same type, but for the keys.
-/

/-! ### Links -/

/-- Where links stand before and after a move, and the key that every key becomes. -/
structure Move where
  origin : Link.Scope
  target : Link.Scope
  key : String → String

/-- The link `link'` denotes after a move what `link` denoted before. -/
def Move.Follows (m : Move) (link link' : Value) : Prop :=
  ∃ key, Link.keyOfValue m.origin link = .ok key ∧ Link.keyOfValue m.target link' = .ok (m.key key)

/-- An entry of a discriminator mapping that gives its value what it gave it before. -/
def Move.FollowsEntry (m : Move) (entry entry' : Value × Value) : Prop :=
  entry'.1 = entry.1 ∧ ∃ link link', Link.ofMapping entry.2 = .ok link
    ∧ Link.ofMapping entry'.2 = .ok link' ∧ m.Follows link link'

/-! ### Schemas inside of a schema -/

/-- A schema and the one that takes its place. -/
structure Moved where
  before : Value
  after : Value

/-- A property of a schema and the one that takes its place under the same name. -/
structure MovedProperty extends Moved where
  label : String

/-- Two schemas have properties that correspond to each other, or both say nothing about properties. -/
def MovesOwn (entries entries' : List (Value × Value)) : Option (List MovedProperty) → Prop
  | none => Value.find? "properties" entries = none ∧ Value.find? "properties" entries' = none
  | some own => ∃ v v', Value.find? "properties" entries = some v
      ∧ Value.find? "properties" entries' = some v'
      ∧ properties v = .ok (own.map fun p => (.text p.label, p.before))
      ∧ properties v' = .ok (own.map fun p => (.text p.label, p.after))

/-- Two schemas have schemas under a keyword that correspond to each other, or both do without it. -/
def MovesParts (name : String) (entries entries' : List (Value × Value)) :
    Option (List Moved) → Prop
  | none => Value.find? name entries = none ∧ Value.find? name entries' = none
  | some members => ∃ v v', Value.find? name entries = some v ∧ Value.find? name entries' = some v'
      ∧ parts v = .ok (members.map (·.before)) ∧ parts v' = .ok (members.map (·.after))

/-- Two schemas allow values that correspond to each other, or both allow any values. -/
def MovesValues (entries entries' : List (Value × Value)) : Option Moved → Prop
  | none => Value.find? "additionalProperties" entries = some (.bool true)
      ∧ Value.find? "additionalProperties" entries' = some (.bool true)
  | some element => Value.find? "additionalProperties" entries = some element.before
      ∧ Value.find? "additionalProperties" entries' = some element.after

/-- The discriminator of a schema, empty if there is none. -/
def discriminatorOf (entries : List (Value × Value)) : Value :=
  (keyword entries "discriminator").orEmpty

/-- Two schemas have discriminators with the same field, and mappings that correspond to each other. -/
def MovesTags (m : Move) (entries entries' : List (Value × Value)) : Prop :=
  (discriminatorOf entries').get "propertyName" = (discriminatorOf entries).get "propertyName"
    ∧ ∃ described described' pairs pairs',
      (discriminatorOf entries).get "mapping" = .ok described ∧ described.orEmpty.entries = .ok pairs
        ∧ (discriminatorOf entries').get "mapping" = .ok described'
        ∧ described'.orEmpty.entries = .ok pairs'
        ∧ List.Forall₂ m.FollowsEntry pairs pairs'

/-! ### One schema -/

/-- The second schema says after a move what the first one said before.  The links of both denote the
    same schemas, and everything else that a conversion reads is the same. -/
inductive Relinked (m : Move) : Value → Value → Prop
  | again {levels content schema'} : Relinked m content schema' →
      Relinked m (.again levels content) schema'
  | again' {schema levels content'} : Relinked m schema content' →
      Relinked m schema (.again levels content')
  | link {entries entries' link link'} : Value.find? "$ref" entries = some link →
      Value.find? "$ref" entries' = some link' → m.Follows link link' →
      Relinked m (.map entries) (.map entries')
  | plain {entries entries' name} : IsOf entries name → IsOf entries' name →
      name ≠ "array" → name ≠ "object" → keyword entries' "enum" = keyword entries "enum" →
      Relinked m (.map entries) (.map entries')
  | array {entries entries' items items'} : IsOf entries "array" → IsOf entries' "array" →
      Value.find? "items" entries = some items → Value.find? "items" entries' = some items' →
      Relinked m items items' → Relinked m (.map entries) (.map entries')
  /-- What comes later is only read if nothing comes before it: alternatives if there are no parts, and a
      map's values if there are no fields either. -/
  | object {entries entries' own allOf oneOf element} :
      IsOf entries "object" → IsOf entries' "object" →
      MovesOwn entries entries' own → (∀ p ∈ own.getD [], Relinked m p.before p.after) →
      keyword entries' "required" = keyword entries "required" →
      MovesParts "allOf" entries entries' allOf →
      (∀ c ∈ allOf.getD [], Relinked m c.before c.after) →
      (allOf = none → MovesParts "oneOf" entries entries' oneOf) →
      (∀ c ∈ oneOf.getD [], Relinked m c.before c.after) →
      (allOf = none → oneOf ≠ none → MovesTags m entries entries') →
      (own = none → allOf = none → oneOf = none → MovesValues entries entries' element) →
      (∀ c ∈ element, Relinked m c.before c.after) → Relinked m (.map entries) (.map entries')

variable {m : Move} {entries entries' : List (Value × Value)} {schema schema' : Value}
  {log : List String} {type : ClientType}

/-- Schemas are maps. -/
theorem Relinked.isMap (h : Relinked m schema schema') :
    schema.isMap = true ∧ schema'.isMap = true := by
  induction h with
  | again _ ih => exact ⟨ih.1, ih.2⟩
  | again' _ ih => exact ⟨ih.1, ih.2⟩
  | link | plain | array | object => exact ⟨rfl, rfl⟩

/-! ### Discriminators -/

theorem tagTypeOf_rename {key : String → String} {shared : Option (List (Field ClientType))}
    {property : Value} {tagType : Option String} (h : tagTypeOf shared property = .ok tagType) :
    tagTypeOf (shared.map fun fields => fields.map (Field.rename key)) property
      = .ok (tagType.map key) := by
  cases shared with
  | none =>
    cases h
    rfl
  | some fields =>
    simp only [tagTypeOf, Option.map_some] at h ⊢
    split at h
    · next hfilled =>
      rw [if_pos hfilled]
      obtain ⟨name, hname, h⟩ := Except.bind_eq_ok.mp h
      rw [hname, Except.ok_bind, List.find?_map]
      -- Fields are found by their names, which stay as they are.
      have hpred : ((fun f : Field ClientType => f.name == Naming.normalize name) ∘ Field.rename key)
          = fun f => f.name == Naming.normalize name := rfl
      rw [hpred]
      cases hfind : fields.find? fun f => f.name == Naming.normalize name with
      | none =>
        rw [hfind] at h
        cases h
        rfl
      | some f =>
        rw [hfind] at h
        obtain ⟨label, type, required⟩ := f
        cases type with
        | ref target =>
          cases h
          rfl
        | _ =>
          -- A tag of any other type has no name.
          cases h
          simp [Field.rename, Except.pure_eq_ok]
    · next hfilled =>
      rw [if_neg hfilled]
      cases h
      rfl

/-- Mappings that correspond to each other give the keys before and after. -/
theorem mappingKeys_follows {pairs pairs' : List (Value × Value)} {mapping : Table String String}
    (h : List.Forall₂ m.FollowsEntry pairs pairs') (hmapping : mappingKeys m.origin pairs = .ok mapping) :
    mappingKeys m.target pairs' = .ok (mapping.map fun (v, k) => (v, m.key k)) := by
  simp only [mappingKeys, Except.bind_eq_ok, Except.pure_eq_ok, Except.mapM_eq_ok] at hmapping ⊢
  obtain ⟨keys, hkeys, rfl⟩ := hmapping
  refine ⟨keys.map fun (v, k) => (v, m.key k), ?_, Table.ofList_map_values m.key keys⟩
  rw [List.forall₂_map_right_iff]
  induction h generalizing keys with
  | nil =>
    cases hkeys
    exact .nil
  | @cons entry entry' rest rest' hentry _ ih =>
    obtain _ | ⟨hfirst, hrest⟩ := hkeys
    refine .cons ?_ (ih _ hrest)
    obtain ⟨hvalue, link, link', hlink, hlink', key, hkey, hkey'⟩ := hentry
    obtain ⟨value, described⟩ := entry
    obtain ⟨value', described'⟩ := entry'
    cases hvalue
    simp only at hfirst hlink hlink' ⊢
    obtain ⟨text, htext, link₀, hlink₀, key₀, hkey₀, rfl⟩ := hfirst
    rw [hlink] at hlink₀
    cases hlink₀
    rw [hkey] at hkey₀
    cases hkey₀
    exact ⟨text, htext, link', hlink', _, hkey', rfl⟩

/-- Discriminators that correspond to each other say the same, but for the keys. -/
theorem Tags.follows {shared : Option (List (Field ClientType))} {tag : Option String}
    {mapping : Table String String} {tagType : Option String} (hmoves : MovesTags m entries entries')
    (h : Tags m.origin entries shared tag mapping tagType) :
    Tags m.target entries' (shared.map fun fields => fields.map (Field.rename m.key)) tag
      (mapping.map fun (v, k) => (v, m.key k)) (tagType.map m.key) := by
  obtain ⟨hproperty', described, described', pairs, pairs', hdescribed, hpairs, hdescribed', hpairs',
    hfollows⟩ := hmoves
  obtain ⟨property, described₀, pairs₀, hproperty, htagType, htag, hdescribed₀, hpairs₀, hmapping⟩ := h
  rw [discriminatorOf] at hdescribed
  rw [hdescribed] at hdescribed₀
  cases hdescribed₀
  rw [hpairs] at hpairs₀
  cases hpairs₀
  exact ⟨property, described', pairs', hproperty'.trans hproperty, tagTypeOf_rename htagType, htag,
    hdescribed', hpairs', mappingKeys_follows hfollows hmapping⟩

/-! ### Lists of schemas -/

/-- Whatever the first schema is converted to, the second one is converted to after the move. -/
def Move.Preserves (m : Move) (schema schema' : Value) : Prop :=
  ∀ log type, Converts m.origin schema log type →
    Converts m.target schema' (log.map m.key) (type.rename m.key)

/-- The schemas that take the place of members are converted one by one. -/
theorem exists_moved_members {moved : List Moved} {members : List Conversion}
    (hpreserves : ∀ c ∈ moved, m.Preserves c.before c.after)
    (hschemas : moved.map (·.before) = members.map (·.schema))
    (hmembers : ∀ c ∈ members, Converts m.origin c.schema c.log c.type) :
    ∃ members' : List Conversion, moved.map (·.after) = members'.map (·.schema)
      ∧ (∀ c ∈ members', Converts m.target c.schema c.log c.type)
      ∧ members'.flatMap (·.log) = (members.flatMap (·.log)).map m.key
      ∧ members'.map (·.type) = (members.map (·.type)).map (.rename m.key) := by
  induction moved generalizing members with
  | nil =>
    obtain rfl := List.map_eq_nil_iff.mp hschemas.symm
    exact ⟨[], rfl, nofun, rfl, rfl⟩
  | cons c moved ih =>
    obtain ⟨first, rest, rfl, hfirst, hrest⟩ := List.map_eq_cons_iff.mp hschemas.symm
    rw [List.forall_mem_cons] at hpreserves hmembers
    obtain ⟨members', hschemas', hmembers', hlog, htypes⟩ := ih hpreserves.2 hrest.symm hmembers.2
    have hbefore : Converts m.origin c.before first.log first.type := by
      have hschema : first.schema = c.before := hfirst
      rw [← hschema]
      exact hmembers.1
    refine ⟨⟨c.after, first.log.map m.key, first.type.rename m.key⟩ :: members', ?_, ?_, ?_, ?_⟩
    · rw [List.map_cons, List.map_cons, hschemas']
    · exact List.forall_mem_cons.mpr ⟨hpreserves.1 _ _ hbefore, hmembers'⟩
    · rw [List.flatMap_cons, List.flatMap_cons, hlog, List.map_append]
    · rw [List.map_cons, List.map_cons, List.map_cons, htypes]

/-- The schemas that take the place of properties are converted one by one, under the same names. -/
theorem exists_moved_properties {required : Value} {moved : List MovedProperty} {own : List Property}
    (hpreserves : ∀ p ∈ moved, m.Preserves p.before p.after)
    (hentries : (moved.map fun p => (Value.text p.label, p.before)) = own.map Property.entry)
    (hown : ∀ p ∈ own, Converts m.origin p.schema p.log p.type)
    (hrequired : ∀ p ∈ own, required.holdsText p.label = .ok p.required) :
    ∃ own' : List Property,
      (moved.map fun p => (Value.text p.label, p.after)) = own'.map Property.entry
      ∧ (∀ p ∈ own', Converts m.target p.schema p.log p.type)
      ∧ (∀ p ∈ own', required.holdsText p.label = .ok p.required)
      ∧ own'.flatMap (·.log) = (own.flatMap (·.log)).map m.key
      ∧ own'.map Property.field = (own.map Property.field).map (.rename m.key) := by
  induction moved generalizing own with
  | nil =>
    obtain rfl := List.map_eq_nil_iff.mp hentries.symm
    exact ⟨[], rfl, nofun, nofun, rfl, rfl⟩
  | cons p moved ih =>
    obtain ⟨first, rest, rfl, hfirst, hrest⟩ := List.map_eq_cons_iff.mp hentries.symm
    rw [List.forall_mem_cons] at hpreserves hown hrequired
    obtain ⟨own', hentries', hown', hrequired', hlog, hfields⟩ :=
      ih hpreserves.2 hrest.symm hown.2 hrequired.2
    obtain ⟨hlabel, hschema⟩ := Prod.mk.inj hfirst
    refine ⟨⟨⟨p.after, first.log.map m.key, first.type.rename m.key⟩, first.label, first.required⟩
      :: own', ?_, ?_, ?_, ?_, ?_⟩
    · rw [List.map_cons, List.map_cons, hentries', ← hlabel]
      rfl
    · refine List.forall_mem_cons.mpr ⟨hpreserves.1 _ _ ?_, hown'⟩
      rw [← hschema]
      exact hown.1
    · exact List.forall_mem_cons.mpr ⟨hrequired.1, hrequired'⟩
    · rw [List.flatMap_cons, List.flatMap_cons, hlog, List.map_append]
    · rw [List.map_cons, List.map_cons, List.map_cons, hfields]
      rfl

/-- The own properties of a schema that takes the place of another. -/
theorem Owns.moved {moved : Option (List MovedProperty)} {own : Option (List Property)}
    (hmoves : MovesOwn entries entries' moved)
    (hpreserves : ∀ p ∈ moved.getD [], m.Preserves p.before p.after)
    (hrequired : keyword entries' "required" = keyword entries "required")
    (hown : Owns entries own) (howned : ∀ p ∈ own.getD [], Converts m.origin p.schema p.log p.type) :
    ∃ own', Owns entries' own' ∧ (∀ p ∈ own'.getD [], Converts m.target p.schema p.log p.type)
      ∧ ownLog own' = (ownLog own).map m.key
      ∧ ownFields own' = (ownFields own).map fun fields => fields.map (.rename m.key) := by
  cases moved with
  | none =>
    cases own with
    | none => exact ⟨none, hmoves.2, nofun, rfl, rfl⟩
    | some own =>
      obtain ⟨v, hv, -⟩ := hown
      rw [hmoves.1] at hv
      cases hv
  | some moved =>
    -- The labels stay, so a field is required after the move if it was before.
    obtain ⟨v, v', hv, hv', hentries, hentries'⟩ := hmoves
    obtain ⟨own, rfl, hown, hholds⟩ := (owns_iff hv).mp hown
    rw [hentries] at hown
    obtain ⟨own', hmap, hconverts, hholds', hlog, hfields⟩ :=
      exists_moved_properties hpreserves (Except.ok.inj hown) howned hholds
    refine ⟨some own', (owns_iff hv').mpr ⟨own', rfl, ?_, ?_⟩, hconverts, hlog, congrArg some hfields⟩
    · rw [hentries']
      exact congrArg Except.ok hmap
    · rwa [hrequired]

/-- The schemas under a keyword of a schema that takes the place of another. -/
theorem MovesParts.exists_members {name : String} {moved : Option (List Moved)} {list : Value}
    {members : List Conversion} (hmoves : MovesParts name entries entries' moved)
    (hpreserves : ∀ c ∈ moved.getD [], m.Preserves c.before c.after)
    (hlist : Value.find? name entries = some list)
    (hparts : parts list = .ok (members.map (·.schema)))
    (hmembers : ∀ c ∈ members, Converts m.origin c.schema c.log c.type) :
    moved ≠ none ∧ ∃ (list' : Value) (members' : List Conversion),
      Value.find? name entries' = some list' ∧ parts list' = .ok (members'.map (·.schema))
      ∧ (∀ c ∈ members', Converts m.target c.schema c.log c.type)
      ∧ members'.flatMap (·.log) = (members.flatMap (·.log)).map m.key
      ∧ members'.map (·.type) = (members.map (·.type)).map (.rename m.key) := by
  cases moved with
  | none =>
    rw [hmoves.1] at hlist
    cases hlist
  | some moved =>
    obtain ⟨v, v', hv, hv', hschemas, hschemas'⟩ := hmoves
    rw [hlist] at hv
    cases hv
    rw [hparts] at hschemas
    obtain ⟨members', hmap, hconverts, hlog, htypes⟩ :=
      exists_moved_members hpreserves (Except.ok.inj hschemas).symm hmembers
    refine ⟨nofun, v', members', hv', ?_, hconverts, hlog, htypes⟩
    rw [hschemas']
    exact congrArg Except.ok hmap

/-- A keyword that one schema does without, the other does without as well. -/
theorem MovesParts.eq_none {name : String} {moved : Option (List Moved)}
    (hmoves : MovesParts name entries entries' moved) (hnone : Value.find? name entries = none) :
    moved = none ∧ Value.find? name entries' = none := by
  cases moved with
  | none => exact ⟨rfl, hmoves.2⟩
  | some moved =>
    obtain ⟨v, v', hv, -⟩ := hmoves
    rw [hnone] at hv
    cases hv

/-- Properties that one schema does without, the other does without as well. -/
theorem MovesOwn.eq_none {moved : Option (List MovedProperty)} (hmoves : MovesOwn entries entries' moved)
    (hnone : Value.find? "properties" entries = none) :
    moved = none ∧ Value.find? "properties" entries' = none := by
  cases moved with
  | none => exact ⟨rfl, hmoves.2⟩
  | some moved =>
    obtain ⟨v, v', hv, -⟩ := hmoves
    rw [hnone] at hv
    cases hv

/-! ### The conversion -/

/-- A plain schema that takes the place of another is converted to the same plain type. -/
theorem preserves_plain {name : String} (hof : IsOf entries name) (hof' : IsOf entries' name)
    (harray : name ≠ "array") (hobject : name ≠ "object")
    (henum : keyword entries' "enum" = keyword entries "enum") :
    m.Preserves (.map entries) (.map entries') := by
  intro log type hc
  -- The type tells which rule applies, and the values of an enum are the same.
  cases hc with
  | link hlink =>
    rw [hof.1] at hlink
    cases hlink
  | boolean h =>
    obtain rfl := hof.unique h
    exact .boolean hof'
  | number h =>
    rcases h with h | h
    · obtain rfl := hof.unique h
      exact .number (.inl hof')
    · obtain rfl := hof.unique h
      exact .number (.inr hof')
  | string h hfilled =>
    obtain rfl := hof.unique h
    rw [← henum] at hfilled
    exact .string hof' hfilled
  | enum h hfilled hvalues =>
    obtain rfl := hof.unique h
    rw [← henum] at hfilled hvalues
    exact .enum hof' hfilled hvalues
  | array h => exact absurd (hof.unique h) harray
  | composition h | union h | object h | freeFormMap h | map h => exact absurd (hof.unique h) hobject

/-- The fields of a schema are renamed as an object. -/
theorem toList_map_object {key : String → String} (shared : Option (List (Field ClientType))) :
    (shared.map fun fields => fields.map (Field.rename key)).toList.map ClientType.object
      = (shared.toList.map .object).map (.rename key) := by
  cases shared with
  | none => rfl
  | some fields =>
    simp only [Option.map_some, Option.toList_some, List.map_cons, List.map_nil,
      ClientType.rename_object]

/-- A schema of type `object` that takes the place of another is converted to the same kind of type.
    Which kind this is depends on the keywords that are there, and these are the same. -/
theorem preserves_object {own : Option (List MovedProperty)} {allOf oneOf : Option (List Moved)}
    {element : Option Moved} (hof : IsOf entries "object") (hof' : IsOf entries' "object")
    (hown : MovesOwn entries entries' own)
    (hrequired : keyword entries' "required" = keyword entries "required")
    (hallOf : MovesParts "allOf" entries entries' allOf)
    (honeOf : allOf = none → MovesParts "oneOf" entries entries' oneOf)
    (htags : allOf = none → oneOf ≠ none → MovesTags m entries entries')
    (hvalues : own = none → allOf = none → oneOf = none → MovesValues entries entries' element)
    (ihOwn : ∀ p ∈ own.getD [], m.Preserves p.before p.after)
    (ihAllOf : ∀ c ∈ allOf.getD [], m.Preserves c.before c.after)
    (ihOneOf : ∀ c ∈ oneOf.getD [], m.Preserves c.before c.after)
    (hmap : ∀ c ∈ element, c.before.isMap = true ∧ c.after.isMap = true)
    (ihElement : ∀ c ∈ element, m.Preserves c.before c.after) :
    m.Preserves (.map entries) (.map entries') := by
  intro log type hc
  cases hc with
  | link hlink =>
    rw [hof.1] at hlink
    cases hlink
  | boolean h | string h | enum h | array h => exact absurd (hof.unique h) (by decide)
  | number h => exact absurd (h.imp hof.unique hof.unique) (by decide)
  | @composition _ properties _ _ _ howns howned hlist hparts hmembers =>
    -- The own fields are one more member of the composition.
    obtain ⟨own', howns', howned', hlog, hfields⟩ := howns.moved hown ihOwn hrequired howned
    obtain ⟨-, list', members', hlist', hparts', hmembers', hlog', htypes⟩ :=
      hallOf.exists_members ihAllOf hlist hparts hmembers
    have hc := Converts.composition hof' howns' howned' hlist' hparts' hmembers'
    rw [hlog, hlog', htypes, hfields, toList_map_object, ← List.map_append, ← List.map_append] at hc
    rwa [ClientType.rename_composition]
  | union _ howns howned hnone hlist hparts hmembers hsaid =>
    obtain ⟨own', howns', howned', hlog, hfields⟩ := howns.moved hown ihOwn hrequired howned
    -- Without `allOf` the second schema goes on with `oneOf`, as the first one does.
    obtain ⟨rfl, hnone'⟩ := hallOf.eq_none hnone
    obtain ⟨hsome, list', members', hlist', hparts', hmembers', hlog', htypes⟩ :=
      (honeOf rfl).exists_members ihOneOf hlist hparts hmembers
    have hsaid' := hsaid.follows (htags rfl hsome)
    rw [← hfields] at hsaid'
    have hc := Converts.union hof' howns' howned' hnone' hlist' hparts' hmembers' hsaid'
    rw [hlog, hlog', htypes, hfields, ← List.map_append] at hc
    rwa [ClientType.rename_union]
  | @object _ properties _ howns howned hnone hnone₂ =>
    obtain ⟨own', howns', howned', hlog, hfields⟩ := howns.moved hown ihOwn hrequired howned
    obtain ⟨rfl, hnone'⟩ := hallOf.eq_none hnone
    obtain ⟨-, hnone₂'⟩ := (honeOf rfl).eq_none hnone₂
    cases own' with
    | none => cases hfields
    | some own' =>
      have hc := Converts.object hof' howns' howned' hnone' hnone₂'
      have hlog : own'.flatMap (·.log) = (properties.flatMap (·.log)).map m.key := hlog
      have hfields : own'.map Property.field
        = (properties.map Property.field).map (Field.rename m.key) := Option.some.inj hfields
      rw [hlog, hfields] at hc
      rwa [ClientType.rename_object]
  | freeFormMap _ howns hnone hnone₂ hfind =>
    obtain ⟨rfl, howns'⟩ := hown.eq_none howns
    obtain ⟨rfl, hnone'⟩ := hallOf.eq_none hnone
    obtain ⟨rfl, hnone₂'⟩ := (honeOf rfl).eq_none hnone₂
    have hmoves := hvalues rfl rfl rfl
    cases element with
    | none => exact .freeFormMap hof' howns' hnone' hnone₂' hmoves.2
    | some element =>
      -- Only schemas are moved, and `true` is none.
      have hbool : element.before = .bool true := Option.some.inj (hmoves.1.symm.trans hfind)
      have hisMap := (hmap element rfl).1
      rw [hbool] at hisMap
      cases hisMap
  | map _ howns hnone hnone₂ hfind hisMap hvalue =>
    obtain ⟨rfl, howns'⟩ := hown.eq_none howns
    obtain ⟨rfl, hnone'⟩ := hallOf.eq_none hnone
    obtain ⟨rfl, hnone₂'⟩ := (honeOf rfl).eq_none hnone₂
    have hmoves := hvalues rfl rfl rfl
    cases element with
    | none =>
      rw [hmoves.1] at hfind
      cases hfind
      cases hisMap
    | some element =>
      rw [hmoves.1] at hfind
      cases hfind
      exact .map hof' howns' hnone' hnone₂' hmoves.2 (hmap _ rfl).2 (ihElement _ rfl _ _ hvalue)

/-- **A schema that takes the place of another is converted to the same type**, but for the keys. -/
theorem Relinked.preserves (h : Relinked m schema schema') : m.Preserves schema schema' := by
  induction h with
  | again _ ih =>
    intro log type hc
    cases hc with
    | again hc => exact ih log type hc
  | again' _ ih => exact fun log type hc => .again (ih log type hc)
  | link hlink hlink' hfollows =>
    -- With a link, no other rule applies.
    intro log type hc
    obtain ⟨key, hkey, hkey'⟩ := hfollows
    cases hc with
    | link h hkey₀ =>
      rw [hlink] at h
      cases h
      rw [hkey] at hkey₀
      cases hkey₀
      exact .link hlink' hkey'
    | number h =>
      rcases h with h | h
      all_goals
        rw [h.1] at hlink
        cases hlink
    | boolean h | string h | enum h | array h | composition h | union h | object h | freeFormMap h
    | map h =>
      rw [h.1] at hlink
      cases hlink
  | plain hof hof' harray hobject henum => exact preserves_plain hof hof' harray hobject henum
  | array hof hof' hitems hitems' _ ih =>
    intro log type hc
    cases hc with
    | link hlink =>
      rw [hof.1] at hlink
      cases hlink
    | number h => exact absurd (h.imp hof.unique hof.unique) (by decide)
    | array _ hfind hc =>
      rw [hitems] at hfind
      cases hfind
      exact .array hof' hitems' (ih _ _ hc)
    | boolean h | string h | enum h | composition h | union h | object h | freeFormMap h | map h =>
      exact absurd (hof.unique h) (by decide)
  | object hof hof' hown _ hrequired hallOf _ honeOf _ htags hvalues helement ihOwn ihAllOf ihOneOf
      ihElement =>
    exact preserves_object hof hof' hown hrequired hallOf honeOf htags hvalues ihOwn ihAllOf ihOneOf
      (fun c hc => (helement c hc).isMap) ihElement

/-- The keys that a schema links to in the place of another are the new ones of the keys that the other
    one linked to. -/
theorem Relinked.linksTo_iff (h : Relinked m schema schema') (hc : Converts m.origin schema log type)
    {key : String} :
    LinksTo m.target schema' key ↔ ∃ old, LinksTo m.origin schema old ∧ m.key old = key := by
  rw [← (h.preserves _ _ hc).mem_log_iff_linksTo, List.mem_map]
  simp only [hc.mem_log_iff_linksTo]

end TypedClient.Schema
