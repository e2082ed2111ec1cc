import Mathlib
import TypedClient.Proofs.Conversion

namespace TypedClient.Schema

/-!
# The grammar of schemas

Which schemas can be converted does not depend on where they stand.  It is said here by a grammar: a schema is a
link, has a type without parts, or has parts that are schemas themselves.  The keywords of objects are looked at in
a fixed order, and a keyword behind counts only if those in front are absent.

* `Shaped` — every keyword has the kind of value that it must have.
* `ValidLink` — a link that points below the schemas of a file.
* `HasType` — the type of a schema, which may be left to its other keywords.
* `Accepts` — the grammar.
* `convert_succeeds_iff` — a shaped schema is converted exactly if it is in the grammar.
-/

/-! ### Links -/

/-- The file that a link names, if any; blanks around the link do not count. -/
def linkedFile (link : String) : String :=
  String.ofList (Text.before '#' (Text.trim link.toList))

/-- If a link names its file by an address, the address can be taken apart. -/
def HasAddress (link : String) : Prop :=
  Locator.isUrl (linkedFile link) = true → ∃ address, Url.split "" (linkedFile link) = .ok address

/-- A link to a schema: a file or nothing, the path of schemas, and a name. -/
def ValidLink (link : String) : Prop :=
  ∃ file name : List Char, Text.trim link.toList = file ++ '#' :: (Link.schemasPath.toList ++ name)
    ∧ '#' ∉ file ∧ name ≠ []

/-- An entry of a mapping is a link, or the name of a schema of the same file. -/
def mappedLink (link : String) : String :=
  if '#' ∈ link.toList then link else "#" ++ Link.schemasPath ++ link

theorem after?_eq_some_iff {mark : Char} {cs rest : List Char} :
    Text.after? mark cs = some rest ↔ ∃ front, cs = front ++ mark :: rest ∧ mark ∉ front := by
  induction cs with
  | nil => simp [Text.after?]
  | cons c cs ih =>
    rw [Text.after?]
    by_cases hc : c = mark
    · subst hc
      rw [if_pos rfl, Option.some.injEq]
      constructor
      · rintro rfl
        exact ⟨[], rfl, List.not_mem_nil⟩
      · rintro ⟨front, heq, hfront⟩
        cases front with
        | nil =>
          cases heq
          rfl
        | cons first front =>
          cases heq
          exact absurd List.mem_cons_self hfront
    · rw [if_neg hc, ih]
      constructor
      · rintro ⟨front, rfl, hfront⟩
        refine ⟨c :: front, rfl, ?_⟩
        rw [List.mem_cons, not_or]
        exact ⟨fun h => hc h.symm, hfront⟩
      · rintro ⟨front, heq, hfront⟩
        cases front with
        | nil =>
          cases heq
          exact absurd rfl hc
        | cons first front =>
          cases heq
          exact ⟨front, rfl, fun h => hfront (List.mem_cons_of_mem _ h)⟩

/-- A file whose address can be taken apart has a canonical name. -/
theorem exists_canonicalFile {file : String}
    (h : Locator.isUrl file = true → ∃ address, Url.split "" file = .ok address) :
    ∃ canonical, Locator.canonicalFile file = .ok canonical := by
  rw [Locator.canonicalFile]
  by_cases hurl : Locator.isUrl file = true
  · obtain ⟨address, haddress⟩ := h hurl
    rw [if_pos hurl, haddress]
    exact ⟨_, rfl⟩
  · rw [if_neg hurl]
    exact ⟨_, rfl⟩

variable {scope : Link.Scope} {link : String}

theorem exists_targetFile (scope : Link.Scope) (h : HasAddress link) : ∃ file, Link.targetFile scope (linkedFile link) = .ok file := by
  rw [Link.targetFile]
  by_cases hempty : linkedFile link = ""
  · rw [if_pos hempty]
    exact ⟨_, rfl⟩
  · obtain ⟨canonical, hcanonical⟩ := exists_canonicalFile h
    rw [if_neg hempty, hcanonical]
    exact ⟨_, rfl⟩

/-- A link denotes a key exactly if it is valid. -/
theorem exists_keyOf_iff (scope : Link.Scope) (h : HasAddress link) :
    (∃ key, Link.keyOf scope link = .ok key) ↔ ValidLink link := by
  rw [Link.keyOf]
  constructor
  · rintro ⟨key, hkey⟩
    split at hkey
    · cases hkey
    · next pointer hpointer =>
      split at hkey
      · next hpath =>
        obtain ⟨file, hfile, hmark⟩ := after?_eq_some_iff.mp hpointer
        rw [Bool.and_eq_true, List.isPrefixOf_iff_prefix, bne_iff_ne] at hpath
        obtain ⟨⟨name, rfl⟩, hne⟩ := hpath
        refine ⟨file, name, hfile, hmark, ?_⟩
        rintro rfl
        exact hne (by rw [List.append_nil])
      · cases hkey
  · rintro ⟨file, name, heq, hmark, hname⟩
    obtain ⟨target, htarget⟩ := exists_targetFile scope h
    have hafter := after?_eq_some_iff.mpr ⟨file, heq, hmark⟩
    have hpath : (Link.schemasPath.toList.isPrefixOf (Link.schemasPath.toList ++ name)
        && (Link.schemasPath.toList ++ name).length != Link.schemasPath.toList.length) = true := by
      rw [Bool.and_eq_true, List.isPrefixOf_iff_prefix, bne_iff_ne, List.length_append]
      have := List.length_pos_of_ne_nil hname
      exact ⟨List.prefix_append .., by omega⟩
    rw [linkedFile] at htarget
    simp only [hafter, hpath, if_true, htarget, Except.ok_bind]
    exact ⟨_, rfl⟩

/-! ### Mappings -/

theorem contains_mark_iff (mark : Char) (text : String) :
    Text.contains text (String.ofList [mark]) = true ↔ mark ∈ text.toList := by
  rw [Text.contains, String.toList_ofList]
  induction text.toList with
  | nil => simp [Text.occursIn]
  | cons c cs ih =>
    have hfirst : [mark].isPrefixOf (c :: cs) = (mark == c) := by
      rw [List.isPrefixOf_cons_cons, List.isPrefixOf_nil_left, Bool.and_true]
    rw [Text.occursIn, hfirst, Bool.or_eq_true, ih, beq_iff_eq, List.mem_cons]

/-- What an entry of a mapping stands for. -/
theorem ofMapping_text (link : String) : Link.ofMapping (.text link) = .ok (.text (mappedLink link)) := by
  have hholds : (Value.text link).holdsText "#" = .ok (Text.contains link "#") := rfl
  have hdisplayed : (Value.text link).asDisplayed = .ok link := rfl
  have hmark : Text.contains link "#" = true ↔ '#' ∈ link.toList := contains_mark_iff '#' link
  rw [Link.ofMapping, hholds, Except.ok_bind, mappedLink]
  by_cases hin : '#' ∈ link.toList
  · rw [if_pos hin, if_pos (hmark.mpr hin)]
    rfl
  · rw [if_neg hin, if_neg (hmark.not.mpr hin), hdisplayed]
    rfl

/-- The entries of a mapping have a text on either side. -/
def MappingShape (links : List (Value × Value)) : Prop :=
  ∀ entry ∈ links, ∃ value link, entry = (.text value, .text link) ∧ HasAddress (mappedLink link)

/-- A list is related to some list exactly if each of its elements is related to something. -/
theorem exists_forall₂_iff {α β : Type} {R : α → β → Prop} {xs : List α} :
    (∃ ys, List.Forall₂ R xs ys) ↔ ∀ x ∈ xs, ∃ y, R x y := by
  induction xs with
  | nil => simp
  | cons x xs ih =>
    rw [List.forall_mem_cons, ← ih]
    constructor
    · rintro ⟨ys, h⟩
      obtain ⟨y, ys, hxy, hrest, rfl⟩ := List.forall₂_cons_left_iff.mp h
      exact ⟨⟨y, hxy⟩, ys, hrest⟩
    · rintro ⟨⟨y, hxy⟩, ys, hrest⟩
      exact ⟨y :: ys, .cons hxy hrest⟩

/-- The mapping of a discriminator has keys exactly if its links are valid. -/
theorem exists_mappingKeys_iff (scope : Link.Scope) {links : List (Value × Value)} (hshape : MappingShape links) :
    (∃ mapping, mappingKeys scope links = .ok mapping)
      ↔ ∀ value link, (value, .text link) ∈ links → ValidLink (mappedLink link) := by
  -- The links of a mapping are taken one by one, so it is enough to look at one of them.
  have hentry : ∀ value link, HasAddress (mappedLink link) → ((∃ pair : String × String, (do
      return (← (Value.text value).asDisplayed, ← Link.keyOfValue scope (← Link.ofMapping (.text link)))) = .ok pair)
        ↔ ValidLink (mappedLink link)) := by
    intro value link haddress
    have hdisplayed : (Value.text value).asDisplayed = .ok value := rfl
    rw [← exists_keyOf_iff scope haddress]
    simp only [hdisplayed, ofMapping_text, Except.ok_bind, Link.keyOfValue, Except.bind_eq_ok, Except.pure_eq_ok]
    constructor
    · rintro ⟨pair, key, hkey, rfl⟩
      exact ⟨key, hkey⟩
    · rintro ⟨key, hkey⟩
      exact ⟨_, key, hkey, rfl⟩
  have hall : (∃ mapping, mappingKeys scope links = .ok mapping) ↔ ∀ entry ∈ links, ∃ pair : String × String, (do
      return (← entry.1.asDisplayed, ← Link.keyOfValue scope (← Link.ofMapping entry.2))) = .ok pair := by
    rw [← exists_forall₂_iff]
    simp only [mappingKeys, Except.bind_eq_ok, Except.pure_eq_ok, Except.mapM_eq_ok]
    constructor
    · rintro ⟨mapping, pairs, hpairs, rfl⟩
      exact ⟨pairs, hpairs⟩
    · rintro ⟨pairs, hpairs⟩
      exact ⟨_, pairs, hpairs, rfl⟩
  rw [hall]
  constructor
  · intro h value link hmem
    obtain ⟨value', link', heq, haddress⟩ := hshape _ hmem
    cases heq
    exact (hentry _ link haddress).mp (h _ hmem)
  · intro h entry hmem
    obtain ⟨value, link, rfl, haddress⟩ := hshape entry hmem
    exact (hentry value link haddress).mpr (h _ _ hmem)

/-! ### Shapes -/

/-- The keywords of a schema have the kinds of values that they must have.  The values of an enum must have texts;
    only numbers with thousands of digits have none. -/
structure KeywordShapes (entries : List (Value × Value)) : Prop where
  ref : ∀ v, Value.find? "$ref" entries = some v → ∃ link, v = .text link ∧ HasAddress link
  properties : ∀ v, Value.find? "properties" entries = some v →
    ∃ fields, v = .map fields ∧ ∀ field ∈ fields, ∃ label, field.1 = .text label
  allOf : ∀ v, Value.find? "allOf" entries = some v → ∃ items, v = .list items
  oneOf : ∀ v, Value.find? "oneOf" entries = some v → ∃ items, v = .list items
  enum : ∀ v, Value.find? "enum" entries = some v →
    ∃ items, v = .list items ∧ ∀ item ∈ items, item.hasText = true
  required : ∀ v, Value.find? "required" entries = some v → ∃ items, v = .list items
  discriminator : ∀ v, Value.find? "discriminator" entries = some v → ∃ described, v = .map described
    ∧ (∀ name, Value.find? "propertyName" described = some name → ∃ s, name = .text s)
    ∧ ∀ mapping, Value.find? "mapping" described = some mapping → ∃ links, mapping = .map links ∧ MappingShape links

/-- The value stands in the schema with these entries where a schema is expected. -/
inductive Child (entries : List (Value × Value)) : Value → Prop
  | items {v} : Value.find? "items" entries = some v → Child entries v
  | property {fields field} : Value.find? "properties" entries = some (.map fields) → field ∈ fields →
      Child entries field.2
  | part {items v} : Value.find? "allOf" entries = some (.list items) → v ∈ items → Child entries v
  | member {items v} : Value.find? "oneOf" entries = some (.list items) → v ∈ items → Child entries v
  | value {v} : Value.find? "additionalProperties" entries = some v → Child entries v

/-- The value is no map, or a map whose keywords have the right shape, all the way down. -/
inductive Shaped : Value → Prop
  | other {v} : v.isMap = false → Shaped v
  | map {entries} : KeywordShapes entries → (∀ v, Child entries v → Shaped v) → Shaped (.map entries)

/-! ### The grammar -/

/-- The type of a schema.  If the schema does not tell it, a keyword of objects makes it an object, and otherwise
    a value of an enum makes it a text. -/
inductive HasType (entries : List (Value × Value)) : String → Prop
  | told {name} : Value.find? "type" entries = some (.text name) → HasType entries name
  | object (name) : keyword entries "type" = .null → name ∈ objectKeywords →
      (Value.find? name entries).isSome = true → HasType entries "object"
  | string {items} : keyword entries "type" = .null → (∀ name ∈ objectKeywords, Value.find? name entries = none) →
      Value.find? "enum" entries = some (.list items) → items ≠ [] → HasType entries "string"

/-- A schema without a link that is of a type. -/
def Plain (entries : List (Value × Value)) (name : String) : Prop :=
  Value.find? "$ref" entries = none ∧ HasType entries name

/-- The links of a discriminator's mapping are valid. -/
def ValidMapping (entries : List (Value × Value)) : Prop :=
  ∀ described links, Value.find? "discriminator" entries = some (.map described) →
    Value.find? "mapping" described = some (.map links) →
    ∀ value link, (value, .text link) ∈ links → ValidLink (mappedLink link)

/-- The types without parts. -/
def scalarTypes : List String :=
  ["boolean", "number", "integer", "string"]

/-- The schemas of the grammar.  The forms of an object are looked at in the order of the rules, and their keywords
    count only if those of the rules above are absent. -/
inductive Accepts : Value → Prop
  | link {entries link} : Value.find? "$ref" entries = some (.text link) → ValidLink link → Accepts (.map entries)
  | scalar {entries name} : Plain entries name → name ∈ scalarTypes → Accepts (.map entries)
  | array {entries items} : Plain entries "array" → Value.find? "items" entries = some items → Accepts items →
      Accepts (.map entries)
  | composition {entries parts} : Plain entries "object" →
      (∀ fields, Value.find? "properties" entries = some (.map fields) → ∀ field ∈ fields, Accepts field.2) →
      Value.find? "allOf" entries = some (.list parts) → (∀ part ∈ parts, Accepts part) →
      Accepts (.map entries)
  | union {entries members} : Plain entries "object" →
      (∀ fields, Value.find? "properties" entries = some (.map fields) → ∀ field ∈ fields, Accepts field.2) →
      Value.find? "allOf" entries = none →
      Value.find? "oneOf" entries = some (.list members) → (∀ member ∈ members, Accepts member) →
      ValidMapping entries → Accepts (.map entries)
  | object {entries fields} : Plain entries "object" →
      Value.find? "allOf" entries = none → Value.find? "oneOf" entries = none →
      Value.find? "properties" entries = some (.map fields) → (∀ field ∈ fields, Accepts field.2) →
      Accepts (.map entries)
  | freeFormMap {entries} : Plain entries "object" → Value.find? "allOf" entries = none →
      Value.find? "oneOf" entries = none → Value.find? "properties" entries = none →
      Value.find? "additionalProperties" entries = some (.bool true) → Accepts (.map entries)
  | map {entries element} : Plain entries "object" → Value.find? "allOf" entries = none →
      Value.find? "oneOf" entries = none → Value.find? "properties" entries = none →
      Value.find? "additionalProperties" entries = some element → Accepts element → Accepts (.map entries)

/-! ### Shapes and types -/

variable {entries : List (Value × Value)}

theorem keyword_eq_text_iff {name text : String} :
    keyword entries name = .text text ↔ Value.find? name entries = some (.text text) := by
  rw [keyword]
  cases Value.find? name entries <;> simp

/-- A schema whose type is told is of this type. -/
theorem effectiveType_of_told (h : keyword entries "type" ≠ .null) : effectiveType entries = keyword entries "type" := by
  rw [effectiveType]
  split
  · next hnull => exact absurd hnull h
  · rfl

/-- Without a type, the other keywords decide. -/
theorem effectiveType_of_null (h : keyword entries "type" = .null) : effectiveType entries
    = if objectKeywords.any fun name => (Value.find? name entries).isSome then .text "object"
      else if (keyword entries "enum").isFilled then .text "string" else .null := by
  rw [effectiveType, h]

/-- An enum with values is a list that is not empty. -/
theorem enum_isFilled_iff (h : KeywordShapes entries) : (keyword entries "enum").isFilled = true
    ↔ ∃ items, Value.find? "enum" entries = some (.list items) ∧ items ≠ [] := by
  rw [keyword]
  cases henum : Value.find? "enum" entries with
  | none => simp [Value.isFilled]
  | some v =>
    obtain ⟨items, rfl, -⟩ := h.enum v henum
    simp [Value.isFilled]

/-- A schema has the type that its conversion goes by. -/
theorem hasType_iff (h : KeywordShapes entries) {name : String} :
    HasType entries name ↔ effectiveType entries = .text name := by
  by_cases hnull : keyword entries "type" = .null
  · rw [effectiveType_of_null hnull]
    -- A schema that tells no type is an object by its keywords, or else a text by its values.
    by_cases hobject : objectKeywords.any (fun name => (Value.find? name entries).isSome) = true
    · rw [if_pos hobject]
      obtain ⟨found, hmem, hfound⟩ := List.any_eq_true.mp hobject
      constructor
      · intro htype
        cases htype with
        | told htold =>
          rw [keyword_eq_text_iff.mpr htold] at hnull
          cases hnull
        | object => rfl
        | string _ hnone =>
          rw [hnone found hmem] at hfound
          cases hfound
      · intro heq
        cases heq
        exact .object found hnull hmem hfound
    · rw [if_neg hobject]
      have hnone : ∀ name ∈ objectKeywords, Value.find? name entries = none := by
        intro name hmem
        rw [List.any_eq_true, not_exists] at hobject
        exact Option.not_isSome_iff_eq_none.mp fun hsome => hobject name ⟨hmem, hsome⟩
      constructor
      · intro htype
        cases htype with
        | told htold =>
          rw [keyword_eq_text_iff.mpr htold] at hnull
          cases hnull
        | object _ _ hmem hfound =>
          rw [hnone _ hmem] at hfound
          cases hfound
        | string _ _ henum hne => rw [if_pos ((enum_isFilled_iff h).mpr ⟨_, henum, hne⟩)]
      · intro heq
        split at heq
        · next hfilled =>
          cases heq
          obtain ⟨items, henum, hne⟩ := (enum_isFilled_iff h).mp hfilled
          exact .string hnull hnone henum hne
        · cases heq
  · rw [effectiveType_of_told hnull, keyword_eq_text_iff]
    constructor
    · intro htype
      cases htype with
      | told htold => exact htold
      | object _ hnull' => exact absurd hnull' hnull
      | string hnull' => exact absurd hnull' hnull
    · exact .told

/-- A plain schema of a type is one that the conversion takes for it. -/
theorem plain_iff_isOf (h : KeywordShapes entries) {name : String} : Plain entries name ↔ IsOf entries name :=
  and_congr_right fun _ => hasType_iff h

/-! ### Discriminators -/

/-- A map of the right shape is there or has no entries. -/
theorem exists_orEmpty_eq (name : String) (h : ∀ v, Value.find? name entries = some v → ∃ inner, v = .map inner) :
    ∃ inner, (keyword entries name).orEmpty = .map inner
      ∧ (Value.find? name entries = none ∧ inner = [] ∨ Value.find? name entries = some (.map inner)) := by
  rw [keyword]
  cases hfind : Value.find? name entries with
  | none => exact ⟨[], rfl, .inl ⟨rfl, rfl⟩⟩
  | some v =>
    obtain ⟨inner, rfl⟩ := h v hfind
    cases inner with
    | nil => exact ⟨[], rfl, .inr rfl⟩
    | cons entry rest => exact ⟨entry :: rest, rfl, .inr rfl⟩

/-- A discriminator of the right shape has a mapping, which is empty if there is none. -/
theorem exists_links (h : KeywordShapes entries) : ∃ described links,
    (keyword entries "discriminator").orEmpty = .map described
      ∧ (keyword described "propertyName" = .null ∨ ∃ s, keyword described "propertyName" = .text s)
      ∧ (keyword described "mapping").orEmpty = .map links ∧ MappingShape links
      ∧ (ValidMapping entries ↔ ∀ value link, (value, .text link) ∈ links → ValidLink (mappedLink link)) := by
  -- Without a discriminator, and without a mapping, there are no links that could be wrong.
  obtain ⟨described, hdescribed, ⟨hnone, rfl⟩ | hfind⟩ := exists_orEmpty_eq "discriminator" fun v hv => by
    obtain ⟨described, hv, -⟩ := h.discriminator v hv
    exact ⟨described, hv⟩
  · refine ⟨[], [], hdescribed, .inl rfl, rfl, by simp [MappingShape], iff_of_true ?_ (by simp)⟩
    intro described links hfind
    rw [hnone] at hfind
    cases hfind
  obtain ⟨_, heq, hproperty, hmapping⟩ := h.discriminator _ hfind
  cases heq
  have hname : keyword described "propertyName" = .null ∨ ∃ s, keyword described "propertyName" = .text s := by
    rw [keyword]
    cases hp : Value.find? "propertyName" described with
    | none => exact .inl rfl
    | some name => exact .inr (hproperty name hp)
  obtain ⟨links, hlinks, ⟨hnone, rfl⟩ | hfind'⟩ := exists_orEmpty_eq "mapping" fun v hv => by
    obtain ⟨links, hv, -⟩ := hmapping v hv
    exact ⟨links, hv⟩
  · refine ⟨described, [], hdescribed, hname, hlinks, by simp [MappingShape], iff_of_true ?_ (by simp)⟩
    intro described' links' hdisc hmap
    rw [hfind] at hdisc
    cases hdisc
    rw [hnone] at hmap
    cases hmap
  · obtain ⟨_, heq, hshape⟩ := hmapping _ hfind'
    cases heq
    refine ⟨described, links, hdescribed, hname, hlinks, hshape, ?_⟩
    constructor
    · exact fun hvalid => hvalid described links hfind hfind'
    · intro hvalid described' links' hdisc hmap
      rw [hfind] at hdisc
      cases hdisc
      rw [hfind'] at hmap
      cases hmap
      exact hvalid

theorem exists_tagTypeOf (shared : Option (List (Field ClientType))) {property : Value}
    (h : property = .null ∨ ∃ s, property = .text s) : ∃ tagType, tagTypeOf shared property = .ok tagType := by
  cases shared with
  | none => exact ⟨none, rfl⟩
  | some fields =>
    rcases h with rfl | ⟨s, rfl⟩
    · exact ⟨none, rfl⟩
    · have htext : (Value.text s).asText = .ok s := rfl
      rw [tagTypeOf, htext]
      by_cases hfilled : (Value.text s).isFilled = true
      · rw [if_pos hfilled, Except.ok_bind]
        split
        · exact ⟨_, rfl⟩
        · exact ⟨_, rfl⟩
      · rw [if_neg hfilled]
        exact ⟨_, rfl⟩

theorem exists_tagOf {property : Value} (h : property = .null ∨ ∃ s, property = .text s) :
    ∃ tag, tagOf property = .ok tag := by
  rcases h with rfl | ⟨s, rfl⟩
  · exact ⟨none, rfl⟩
  · have htext : (Value.text s).asText = .ok s := rfl
    rw [tagOf, htext]
    by_cases hfilled : (Value.text s).isFilled = true
    · rw [if_pos hfilled]
      exact ⟨_, rfl⟩
    · rw [if_neg hfilled]
      exact ⟨_, rfl⟩

/-- A discriminator of the right shape says something about the tag exactly if its links are valid. -/
theorem exists_tags_iff (scope : Link.Scope) (h : KeywordShapes entries) (shared : Option (List (Field ClientType))) :
    (∃ tag mapping tagType, Tags scope entries shared tag mapping tagType) ↔ ValidMapping entries := by
  obtain ⟨described, links, hdescribed, hname, hlinks, hshape, hvalid⟩ := exists_links h
  have hget : ∀ key, (Value.map described).get key = .ok (keyword described key) := fun _ => rfl
  have hentries : (Value.map links).entries = .ok links := rfl
  rw [hvalid, ← exists_mappingKeys_iff scope hshape]
  constructor
  · rintro ⟨tag, mapping, tagType, property, given, pairs, -, -, -, hgiven, hpairs, hmapping⟩
    rw [hdescribed, hget] at hgiven
    cases hgiven
    rw [hlinks, hentries] at hpairs
    cases hpairs
    exact ⟨mapping, hmapping⟩
  · rintro ⟨mapping, hmapping⟩
    obtain ⟨tagType, htagType⟩ := exists_tagTypeOf shared hname
    obtain ⟨tag, htag⟩ := exists_tagOf hname
    refine ⟨tag, mapping, tagType, keyword described "propertyName", keyword described "mapping", links, ?_,
      htagType, htag, ?_, ?_, hmapping⟩
    · rw [hdescribed, hget]
    · rw [hdescribed, hget]
    · rw [hlinks, hentries]

/-! ### Schemas inside of a schema -/

/-- Values that have conversions are the schemas of these conversions. -/
theorem exists_conversions (scope : Link.Scope) {items : List Value}
    (h : ∀ item ∈ items, ∃ log type, Converts scope item log type) : ∃ members : List Conversion,
      members.map (·.schema) = items ∧ ∀ c ∈ members, Converts scope c.schema c.log c.type := by
  induction items with
  | nil => exact ⟨[], rfl, by simp⟩
  | cons item items ih =>
    obtain ⟨⟨log, type, hitem⟩, hrest⟩ := List.forall_mem_cons.mp h
    obtain ⟨members, rfl, hmembers⟩ := ih hrest
    exact ⟨⟨item, log, type⟩ :: members, rfl, List.forall_mem_cons.mpr ⟨hitem, hmembers⟩⟩

/-- The properties that fields describe; which of them are required can always be told from a list. -/
theorem exists_properties (required : List Value) {fields : List (Value × Value)}
    (hlabels : ∀ field ∈ fields, ∃ label, field.1 = .text label)
    (h : ∀ field ∈ fields, ∃ log type, Converts scope field.2 log type) : ∃ own : List Property,
      own.map Property.entry = fields ∧ (∀ p ∈ own, Converts scope p.schema p.log p.type)
        ∧ ∀ p ∈ own, (Value.list required).holdsText p.label = .ok p.required := by
  induction fields with
  | nil => exact ⟨[], rfl, by simp, by simp⟩
  | cons field fields ih =>
    obtain ⟨⟨label, hlabel⟩, hlabels⟩ := List.forall_mem_cons.mp hlabels
    obtain ⟨⟨log, type, hfield⟩, hrest⟩ := List.forall_mem_cons.mp h
    obtain ⟨own, rfl, hconverts, hholds⟩ := ih hlabels hrest
    obtain ⟨key, schema⟩ := field
    cases hlabel
    refine ⟨⟨⟨schema, log, type⟩, label, required.any (· == .text label)⟩ :: own, rfl, ?_, ?_⟩
    · exact List.forall_mem_cons.mpr ⟨hfield, hconverts⟩
    · exact List.forall_mem_cons.mpr ⟨rfl, hholds⟩

theorem properties_map (fields : List (Value × Value)) : properties (.map fields) = .ok fields := by
  cases fields <;> rfl

/-- The own properties of a schema whose properties can be converted. -/
theorem exists_owns (scope : Link.Scope) (h : KeywordShapes entries)
    (hfields : ∀ fields, Value.find? "properties" entries = some (.map fields) →
      ∀ field ∈ fields, ∃ log type, Converts scope field.2 log type) :
    ∃ own, Owns entries own ∧ (∀ p ∈ own.getD [], Converts scope p.schema p.log p.type)
      ∧ (own = none ↔ Value.find? "properties" entries = none) := by
  cases hfind : Value.find? "properties" entries with
  | none => exact ⟨none, hfind, by simp, by simp⟩
  | some v =>
    obtain ⟨fields, rfl, hlabels⟩ := h.properties v hfind
    have hrequired : ∃ required, (keyword entries "required").orElse (.list []) = .list required := by
      rw [keyword]
      cases hr : Value.find? "required" entries with
      | none => exact ⟨[], rfl⟩
      | some v =>
        obtain ⟨items, rfl⟩ := h.required v hr
        cases items with
        | nil => exact ⟨[], rfl⟩
        | cons item rest => exact ⟨item :: rest, rfl⟩
    obtain ⟨required, hrequired⟩ := hrequired
    obtain ⟨own, rfl, hconverts, hholds⟩ := exists_properties required hlabels (hfields _ hfind)
    refine ⟨some own, ⟨_, hfind, properties_map _, ?_⟩, hconverts, by simp⟩
    rw [hrequired]
    exact hholds

/-! ### Conversion and grammar -/

variable {schema : Value} {log : List String} {type : ClientType}

/-- Only maps are converted. -/
theorem Converts.isMap (h : Converts scope schema log type) : schema.isMap = true := by
  induction h with
  | again _ ih => exact ih
  | _ => rfl

/-- What is converted of the right shape is a map with keywords of the right shape. -/
theorem Shaped.keywordShapes (h : Shaped (.map entries)) :
    KeywordShapes entries ∧ ∀ v, Child entries v → Shaped v := by
  cases h with
  | other hmap => cases hmap
  | map hkeywords hchildren => exact ⟨hkeywords, hchildren⟩

/-- The properties of a schema are in the grammar if those that the schema owns are. -/
theorem Owns.accepts {own : Option (List Property)} (hown : Owns entries own)
    (h : ∀ p ∈ own.getD [], Accepts p.schema) (fields : List (Value × Value))
    (hfind : Value.find? "properties" entries = some (.map fields)) : ∀ field ∈ fields, Accepts field.2 := by
  obtain ⟨held, rfl, hentries, -⟩ := (owns_iff hfind).mp hown
  rw [properties_map] at hentries
  cases hentries
  intro field hmem
  obtain ⟨p, hp, rfl⟩ := List.mem_map.mp hmem
  exact h p hp

/-- The schema of an owned property stands where a schema is expected. -/
theorem Owns.child {own : Option (List Property)} (h : KeywordShapes entries) (hown : Owns entries own)
    {p : Property} (hp : p ∈ own.getD []) : Child entries p.schema := by
  cases own with
  | none => cases hp
  | some own =>
    obtain ⟨v, hfind, hentries, -⟩ := hown
    obtain ⟨fields, rfl, -⟩ := h.properties v hfind
    rw [properties_map] at hentries
    cases hentries
    exact .property hfind (List.mem_map_of_mem (f := Property.entry) hp)

/-- What is converted is in the grammar. -/
theorem Converts.accepts (h : Converts scope schema log type) (hshaped : Shaped schema) : Accepts schema := by
  induction h with
  -- No value of the right shapes stands for another one.
  | again h _ =>
    cases hshaped with
    | other hmap =>
      have := h.isMap
      rw [Value.isMap, Value.bare] at hmap
      rw [Value.isMap, hmap] at this
      cases this
  | @link entries v key hfind hkey =>
    obtain ⟨hkeywords, -⟩ := hshaped.keywordShapes
    obtain ⟨link, rfl, haddress⟩ := hkeywords.ref v hfind
    exact .link hfind ((exists_keyOf_iff scope haddress).mp ⟨key, hkey⟩)
  | boolean hof =>
    exact .scalar ((plain_iff_isOf hshaped.keywordShapes.1).mpr hof) (by decide)
  | number hof =>
    rcases hof with hof | hof
    · exact .scalar ((plain_iff_isOf hshaped.keywordShapes.1).mpr hof) (by decide)
    · exact .scalar ((plain_iff_isOf hshaped.keywordShapes.1).mpr hof) (by decide)
  | string hof =>
    exact .scalar ((plain_iff_isOf hshaped.keywordShapes.1).mpr hof) (by decide)
  | enum hof =>
    exact .scalar ((plain_iff_isOf hshaped.keywordShapes.1).mpr hof) (by decide)
  | array hof hitems _ ih =>
    obtain ⟨hkeywords, hchildren⟩ := hshaped.keywordShapes
    exact .array ((plain_iff_isOf hkeywords).mpr hof) hitems (ih (hchildren _ (.items hitems)))
  | @composition entries own list members hof hown _ hlist hitems _ ihOwn ihMembers =>
    obtain ⟨hkeywords, hchildren⟩ := hshaped.keywordShapes
    obtain ⟨items, rfl⟩ := hkeywords.allOf list hlist
    cases hitems
    refine .composition ((plain_iff_isOf hkeywords).mpr hof) (hown.accepts fun p hp => ?_) hlist fun part hpart => ?_
    · exact ihOwn p hp (hchildren _ (hown.child hkeywords hp))
    · obtain ⟨c, hc, rfl⟩ := List.mem_map.mp hpart
      exact ihMembers c hc (hchildren _ (.part hlist hpart))
  | @union entries own list tag mapping tagType members hof hown _ hallOf hlist hitems _ htags ihOwn ihMembers =>
    obtain ⟨hkeywords, hchildren⟩ := hshaped.keywordShapes
    obtain ⟨items, rfl⟩ := hkeywords.oneOf list hlist
    cases hitems
    refine .union ((plain_iff_isOf hkeywords).mpr hof) (hown.accepts fun p hp => ?_) hallOf hlist
      (fun member hmember => ?_) ((exists_tags_iff scope hkeywords _).mp ⟨tag, mapping, tagType, htags⟩)
    · exact ihOwn p hp (hchildren _ (hown.child hkeywords hp))
    · obtain ⟨c, hc, rfl⟩ := List.mem_map.mp hmember
      exact ihMembers c hc (hchildren _ (.member hlist hmember))
  | @object entries own hof hown _ hallOf honeOf ihOwn =>
    obtain ⟨hkeywords, hchildren⟩ := hshaped.keywordShapes
    obtain ⟨v, hfind, -⟩ := id hown
    obtain ⟨fields, rfl, -⟩ := hkeywords.properties v hfind
    refine .object ((plain_iff_isOf hkeywords).mpr hof) hallOf honeOf hfind ?_
    exact hown.accepts (fun p hp => ihOwn p hp (hchildren _ (hown.child hkeywords hp))) fields hfind
  | freeFormMap hof hown hallOf honeOf hmap =>
    exact .freeFormMap ((plain_iff_isOf hshaped.keywordShapes.1).mpr hof) hallOf honeOf hown hmap
  | map hof hown hallOf honeOf hfind _ _ ih =>
    obtain ⟨hkeywords, hchildren⟩ := hshaped.keywordShapes
    exact .map ((plain_iff_isOf hkeywords).mpr hof) hallOf honeOf hown hfind (ih (hchildren _ (.value hfind)))

/-- The values of an enum of the right shape have texts. -/
theorem exists_enumValues (h : KeywordShapes entries) (henum : (keyword entries "enum").isFilled = true) :
    ∃ values, enumValues (keyword entries "enum") = .ok values := by
  obtain ⟨items, hfind, -⟩ := (enum_isFilled_iff h).mp henum
  obtain ⟨_, heq, htexts⟩ := h.enum _ hfind
  cases heq
  have helements : (Value.list items).elements = .ok items := rfl
  have hkeyword : keyword entries "enum" = .list items := by rw [keyword, hfind, Option.getD_some]
  simp only [hkeyword, enumValues, helements, Except.ok_bind, Except.mapM_eq_ok]
  refine exists_forall₂_iff.mpr fun item hitem => ⟨item.display, ?_⟩
  rw [Value.asDisplayed, if_pos (htexts item hitem)]

/-- A type without parts is always converted; the values of an enum have texts. -/
theorem exists_converts_of_scalar (h : KeywordShapes entries) {name : String} (hof : IsOf entries name)
    (hscalar : name ∈ scalarTypes) : ∃ log type, Converts scope (.map entries) log type := by
  simp only [scalarTypes, List.mem_cons, List.not_mem_nil, or_false] at hscalar
  rcases hscalar with rfl | rfl | rfl | rfl
  · exact ⟨_, _, .boolean hof⟩
  · exact ⟨_, _, .number (.inl hof)⟩
  · exact ⟨_, _, .number (.inr hof)⟩
  · by_cases henum : (keyword entries "enum").isFilled = true
    · obtain ⟨values, hvalues⟩ := exists_enumValues h henum
      exact ⟨_, _, .enum hof henum hvalues⟩
    · exact ⟨_, _, .string hof (Bool.eq_false_iff.mpr henum)⟩

/-- What is in the grammar is converted. -/
theorem Accepts.exists_converts (h : Accepts schema) (hshaped : Shaped schema) :
    ∃ log type, Converts scope schema log type := by
  induction h with
  | @link entries link hfind hvalid =>
    obtain ⟨link', heq, haddress⟩ := hshaped.keywordShapes.1.ref _ hfind
    cases heq
    obtain ⟨key, hkey⟩ := (exists_keyOf_iff scope haddress).mpr hvalid
    exact ⟨_, _, .link hfind hkey⟩
  | scalar hplain hname =>
    have hkeywords := hshaped.keywordShapes.1
    exact exists_converts_of_scalar hkeywords ((plain_iff_isOf hkeywords).mp hplain) hname
  | array hplain hitems _ ih =>
    obtain ⟨hkeywords, hchildren⟩ := hshaped.keywordShapes
    obtain ⟨log, type, hconverts⟩ := ih (hchildren _ (.items hitems))
    exact ⟨_, _, .array ((plain_iff_isOf hkeywords).mp hplain) hitems hconverts⟩
  | composition hplain _ hlist _ ihFields ihParts =>
    obtain ⟨hkeywords, hchildren⟩ := hshaped.keywordShapes
    obtain ⟨own, hown, howned, -⟩ := exists_owns scope hkeywords fun fields hfind field hfield =>
      ihFields fields hfind field hfield (hchildren _ (.property hfind hfield))
    obtain ⟨members, rfl, hmembers⟩ := exists_conversions scope fun part hpart =>
      ihParts part hpart (hchildren _ (.part hlist hpart))
    exact ⟨_, _, .composition ((plain_iff_isOf hkeywords).mp hplain) hown howned hlist rfl hmembers⟩
  | union hplain _ hallOf hlist _ hmapping ihFields ihMembers =>
    obtain ⟨hkeywords, hchildren⟩ := hshaped.keywordShapes
    obtain ⟨own, hown, howned, -⟩ := exists_owns scope hkeywords fun fields hfind field hfield =>
      ihFields fields hfind field hfield (hchildren _ (.property hfind hfield))
    obtain ⟨members, rfl, hmembers⟩ := exists_conversions scope fun member hmember =>
      ihMembers member hmember (hchildren _ (.member hlist hmember))
    obtain ⟨tag, mapping, tagType, htags⟩ := (exists_tags_iff scope hkeywords (ownFields own)).mpr hmapping
    exact ⟨_, _, .union ((plain_iff_isOf hkeywords).mp hplain) hown howned hallOf hlist rfl hmembers htags⟩
  | object hplain hallOf honeOf hfind _ ihFields =>
    obtain ⟨hkeywords, hchildren⟩ := hshaped.keywordShapes
    obtain ⟨own, hown, howned, hnone⟩ := exists_owns scope hkeywords fun fields hfind' field hfield => by
      rw [hfind] at hfind'
      cases hfind'
      exact ihFields field hfield (hchildren _ (.property hfind hfield))
    cases own with
    | none =>
      rw [hnone.mp rfl] at hfind
      cases hfind
    | some own => exact ⟨_, _, .object ((plain_iff_isOf hkeywords).mp hplain) hown howned hallOf honeOf⟩
  | freeFormMap hplain hallOf honeOf hnone hmap =>
    have hof := (plain_iff_isOf hshaped.keywordShapes.1).mp hplain
    exact ⟨_, _, .freeFormMap hof hnone hallOf honeOf hmap⟩
  | map hplain hallOf honeOf hnone hfind _ ih =>
    obtain ⟨hkeywords, hchildren⟩ := hshaped.keywordShapes
    obtain ⟨log, type, hconverts⟩ := ih (hchildren _ (.value hfind))
    exact ⟨_, _, .map ((plain_iff_isOf hkeywords).mp hplain) hnone hallOf honeOf hfind hconverts.isMap hconverts⟩

/-- **The grammar of schemas.**  A schema of the right shape is converted, wherever it stands, exactly if it is in
    the grammar. -/
theorem convert_succeeds_iff (hshaped : Shaped schema) :
    (∃ log type, convert scope schema = ⟨log, .ok type⟩) ↔ Accepts schema := by
  simp only [convert_eq_ok_iff]
  constructor
  · rintro ⟨log, type, h⟩
    exact h.accepts hshaped
  · exact fun h => h.exists_converts hshaped

/-- A list of links to pets. -/
def petLinks : Value :=
  .map [(.text "type", .text "array"), (.text "items", .map [(.text "$ref", .text "pets.json#/components/schemas/Pet")])]

theorem petLinks_converted : Shaped petLinks ∧ Accepts petLinks
    ∧ ∃ log type, convert ⟨"", ""⟩ petLinks = ⟨log, .ok type⟩ := by
  have haddress : HasAddress "pets.json#/components/schemas/Pet" := by
    have hlocal : Locator.isUrl (linkedFile "pets.json#/components/schemas/Pet") = false := by cbv
    intro h
    rw [hlocal] at h
    cases h
  have hlink : ValidLink "pets.json#/components/schemas/Pet" :=
    ⟨"pets.json".toList, "Pet".toList, by decide, by decide, by decide⟩
  have hitem : Shaped (.map [(.text "$ref", .text "pets.json#/components/schemas/Pet")]) := by
    refine .map ⟨fun v h => ?_, nofun, nofun, nofun, nofun, nofun, nofun⟩ fun v h => ?_
    · cases h
      exact ⟨_, rfl, haddress⟩
    · cases h <;> contradiction
  have hshaped : Shaped petLinks := by
    refine .map ⟨nofun, nofun, nofun, nofun, nofun, nofun, nofun⟩ fun v h => ?_
    cases h with
    | items h =>
      cases h
      exact hitem
    | property h | part h | member h | value h => cases h
  have haccepts : Accepts petLinks := .array ⟨rfl, .told rfl⟩ rfl (.link rfl hlink)
  exact ⟨hshaped, haccepts, (convert_succeeds_iff hshaped).mpr haccepts⟩

/-! ### The order of the forms -/

/-- The forms of an object without their order: one of them is there, whatever stands beside it. -/
def AnyForm (entries : List (Value × Value)) : Prop :=
  (∃ parts, Value.find? "allOf" entries = some (.list parts) ∧ ∀ part ∈ parts, Accepts part)
    ∨ (∃ members, Value.find? "oneOf" entries = some (.list members) ∧ (∀ member ∈ members, Accepts member)
      ∧ ValidMapping entries)
    ∨ (∃ fields, Value.find? "properties" entries = some (.map fields))
    ∨ Value.find? "additionalProperties" entries = some (.bool true)
    ∨ ∃ element, Value.find? "additionalProperties" entries = some element ∧ Accepts element

/-- A schema is of one type only. -/
theorem Plain.unique {name other : String} (h : Plain entries name) (hshape : KeywordShapes entries)
    (h' : Plain entries other) : name = other := by
  have heq := ((hasType_iff hshape).mp h.2).symm.trans ((hasType_iff hshape).mp h'.2)
  cases heq
  rfl

/-- Every object of the grammar has one of the forms. -/
theorem Accepts.anyForm (h : Accepts (.map entries)) (hplain : Plain entries "object")
    (hshape : KeywordShapes entries) : AnyForm entries := by
  cases h with
  | link hfind =>
    rw [hplain.1] at hfind
    cases hfind
  | scalar hplain' hname =>
    rw [← hplain.unique hshape hplain'] at hname
    exact absurd hname (by decide)
  | array hplain' =>
    exact absurd (hplain.unique hshape hplain') (by decide)
  | composition _ _ hlist hparts => exact .inl ⟨_, hlist, hparts⟩
  | union _ _ _ hlist hmembers hmapping => exact .inr (.inl ⟨_, hlist, hmembers, hmapping⟩)
  | object _ _ _ hfind => exact .inr (.inr (.inl ⟨_, hfind⟩))
  | freeFormMap _ _ _ _ hmap => exact .inr (.inr (.inr (.inl hmap)))
  | map _ _ _ _ hfind helement => exact .inr (.inr (.inr (.inr ⟨_, hfind, helement⟩)))

/-- The keywords of an object with fields and with a part that is no schema. -/
def emptyPart : List (Value × Value) :=
  [(.text "allOf", .list [.map []]), (.text "properties", .map [])]

/-- The order matters: an object is not converted for its fields if one of its parts is no schema. -/
theorem emptyPart_not_converted : Shaped (.map emptyPart) ∧ Plain emptyPart "object"
    ∧ (∀ fields, Value.find? "properties" emptyPart = some (.map fields) → ∀ field ∈ fields, Accepts field.2)
    ∧ AnyForm emptyPart ∧ ∀ scope, ¬ ∃ log type, convert scope (.map emptyPart) = ⟨log, .ok type⟩ := by
  have hempty : Shaped (.map []) := by
    refine .map ⟨nofun, nofun, nofun, nofun, nofun, nofun, nofun⟩ fun v h => ?_
    cases h <;> contradiction
  have hshaped : Shaped (.map emptyPart) := by
    refine .map ⟨nofun, fun v h => ?_, fun v h => ?_, nofun, nofun, nofun, nofun⟩ fun v h => ?_
    · cases h
      exact ⟨[], rfl, by simp⟩
    · cases h
      exact ⟨_, rfl⟩
    · cases h with
      | part h hv =>
        cases h
        rw [List.mem_singleton.mp hv]
        exact hempty
      | property h hv =>
        cases h
        cases hv
      | items h | member h | value h => cases h
  have hobject : Plain emptyPart "object" := ⟨rfl, .object "allOf" rfl (by decide) rfl⟩
  refine ⟨hshaped, hobject, ?_, .inr (.inr (.inl ⟨_, rfl⟩)), ?_⟩
  · intro fields h
    cases h
    simp
  · rintro scope ⟨log, type, h⟩
    -- The part has no keywords, so it has no type.
    have huntyped : ∀ name, ¬ Plain [] name := by
      rintro name ⟨-, htype⟩
      cases htype with
      | told h | object _ _ _ h | string _ _ h => cases h
    have hpart : ¬ Accepts (.map []) := by
      intro h
      cases h with
      | link h => cases h
      | scalar h | array h | composition h | union h | object h | freeFormMap h | map h => exact huntyped _ h
    have haccepts := (convert_eq_ok_iff.mp h).accepts hshaped
    cases haccepts with
    | link h | array _ h | freeFormMap _ h | map _ h | object _ h | union _ _ h => cases h
    | scalar hplain hname =>
      rw [← hobject.unique hshaped.keywordShapes.1 hplain] at hname
      exact absurd hname (by decide)
    | composition _ _ h hparts =>
      cases h
      exact hpart (hparts _ (by simp))

end TypedClient.Schema
