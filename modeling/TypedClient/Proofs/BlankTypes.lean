import TypedClient.Proofs.FieldNames
import TypedClient.Proofs.WrittenTypes

namespace TypedClient

open ClientType (Inside)

/-!
# Types that leave a blank

The text of a type is empty, or has parentheses with nothing between them, if something in it is written with an
operator and there is nothing to write.  An enum is made only from a list that is not empty, but schemas are combined
from whatever list the schema has.

* `Schema.CombinesNothing` — a schema that is combined from an empty list.
* `Schema.exists_isHollow_iff` — such schemas are where types come from in which nothing is combined.
* `Output.TypeExpr.Filled` — a written form with something to write everywhere.
* `Output.TypeExpr.Encloses` — what stands between parentheses in the text of a written form.
* `Output.TypeWriter.WritesBlank` — the text of a type has nothing in it, or nothing between parentheses.
* `Schema.blanks_iff` — which types leave blanks, and which schemas they come from.
-/

/-- A type that combines others, but none are there. -/
def ClientType.IsHollow : ClientType → Prop
  | .composition parts => parts = []
  | .union members _ _ _ _ => members = []
  | _ => False

/-! ### Values with something in them -/

namespace Value

theorem isFilled_bare (v : Value) : v.bare.isFilled = v.isFilled := by
  fun_induction bare v with
  | case1 levels content ih => exact ih
  | case2 => rfl

/-- A text that is not empty has characters. -/
theorem characters_ne_nil {s : String} (h : s ≠ "") : Text.characters s ≠ [] := by
  rw [Text.characters, ne_eq, List.map_eq_nil_iff]
  intro hnumbers
  refine h (String.toList_eq_nil_iff.mp ?_)
  unfold Text.numbers at hnumbers
  split at hnumbers
  · assumption
  · cases hnumbers
  · split at hnumbers <;> cases hnumbers

/-- What does not count as absent is not empty. -/
theorem elements_ne_nil {v : Value} {items : List Value} (hfilled : v.isFilled = true) (h : v.elements = .ok items) :
    items ≠ [] := by
  rw [← isFilled_bare] at hfilled
  unfold elements elements? at h
  generalize v.bare = plain at h hfilled
  rintro rfl
  cases plain with
  | text s =>
    have hnil : (Text.characters s).map Value.text = [] := Except.ok.inj h
    exact characters_ne_nil (by simpa [isFilled] using hfilled) (List.map_eq_nil_iff.mp hnil)
  | list xs | tuple xs | set xs | map xs | bytes xs => simp_all [isFilled]
  | _ => cases h

end Value

/-! ### Schemas that are gone through -/

namespace Schema

variable {scope : Link.Scope} {entries part : List (Value × Value)} {log : List String} {type node : ClientType}

theorem eq_of_enters_ref {link : Value} (hlink : Value.find? "$ref" entries = some link)
    (h : Enters part (.map entries)) : part = entries := by
  cases h with
  | here => rfl
  | items hof | property hof | part hof | value hof =>
    have href := hof.1
    rw [hlink] at href
    cases href

/-- A schema that is no array and no object has no schemas inside of it. -/
theorem IsOf.eq_of_enters {name : String} (hof : IsOf entries name) (harray : name ≠ "array")
    (hobject : name ≠ "object") (h : Enters part (.map entries)) : part = entries := by
  cases h with
  | here => rfl
  | items hof' => exact absurd (hof.unique hof') harray
  | property hof' | part hof' | value hof' => exact absurd (hof.unique hof') hobject

theorem IsOf.enters_array {items : Value} (hof : IsOf entries "array") (hitems : Value.find? "items" entries = some items)
    (h : Enters part (.map entries)) : part = entries ∨ Enters part items := by
  cases h with
  | here => exact .inl rfl
  | items _ hitems' h =>
    rw [hitems] at hitems'
    cases hitems'
    exact .inr h
  | property hof' | part hof' | value hof' => exact absurd (hof.unique hof') (by decide)

/-- The own properties of a schema are known but for what they are converted to. -/
theorem Owns.exists_schema_eq {own : Option (List Property)} {other : List Property} (h : Owns entries own)
    (hother : Owns entries (some other)) {p : Property} (hp : p ∈ other) : ∃ q ∈ own.getD [], q.schema = p.schema := by
  obtain ⟨v, hfind, hentries, -⟩ := hother
  obtain ⟨held, rfl, hheld, -⟩ := (owns_iff hfind).mp h
  rw [hentries] at hheld
  have hmem : p.entry ∈ held.map Property.entry := by
    rw [← Except.ok.inj hheld]
    exact List.mem_map_of_mem hp
  obtain ⟨q, hq, heq⟩ := List.mem_map.mp hmem
  exact ⟨q, hq, congrArg Prod.snd heq⟩

/-- The schemas inside of a schema of type `object` are inside of its own properties, then inside of the schemas that
    it combines, and only without any of these inside of a map's values. -/
theorem IsOf.enters_object {own : Option (List Property)} (hof : IsOf entries "object") (hown : Owns entries own)
    (h : Enters part (.map entries)) :
    part = entries ∨ (∃ p ∈ own.getD [], Enters part p.schema)
      ∨ (∃ list items, combined entries = some list ∧ parts list = .ok items ∧ ∃ schema ∈ items, Enters part schema)
      ∨ (own = none ∧ combined entries = none ∧ ∃ element,
        Value.find? "additionalProperties" entries = some element ∧ Enters part element) := by
  cases h with
  | here => exact .inl rfl
  | items hof' => exact absurd (hof.unique hof') (by decide)
  | property _ hother hp h =>
    obtain ⟨q, hq, hschema⟩ := hown.exists_schema_eq hother hp
    rw [← hschema] at h
    exact .inr (.inl ⟨q, hq, h⟩)
  | part _ hlist hitems hmem h => exact .inr (.inr (.inl ⟨_, _, hlist, hitems, _, hmem, h⟩))
  | value _ hnone hcombined helement h =>
    refine .inr (.inr (.inr ⟨?_, hcombined, _, helement, h⟩))
    cases own with
    | none => rfl
    | some own =>
      obtain ⟨v, hfind, -⟩ := hown
      rw [hnone] at hfind
      cases hfind

/-- A schema inside of one that combines schemas. -/
theorem IsOf.enters_combined {own : Option (List Property)} {list : Value} {members : List Conversion}
    (hof : IsOf entries "object") (hown : Owns entries own) (hlist : combined entries = some list)
    (hitems : parts list = .ok (members.map (·.schema))) (h : Enters part (.map entries)) :
    part = entries ∨ (∃ p ∈ own.getD [], Enters part p.schema) ∨ ∃ c ∈ members, Enters part c.schema := by
  rcases hof.enters_object hown h with heq | h | ⟨list', items, hlist', hitems', schema, hmem, h⟩ | ⟨-, hnone, -⟩
  · exact .inl heq
  · exact .inr (.inl h)
  · rw [hlist] at hlist'
    cases hlist'
    rw [hitems] at hitems'
    cases hitems'
    obtain ⟨c, hc, rfl⟩ := List.mem_map.mp hmem
    exact .inr (.inr ⟨c, hc, h⟩)
  · rw [hlist] at hnone
    cases hnone

/-- A schema inside of one of type `object` that combines no schemas. -/
theorem IsOf.enters_uncombined {own : Option (List Property)} (hof : IsOf entries "object") (hown : Owns entries own)
    (hallOf : Value.find? "allOf" entries = none) (honeOf : Value.find? "oneOf" entries = none)
    (h : Enters part (.map entries)) :
    part = entries ∨ (∃ p ∈ own.getD [], Enters part p.schema)
      ∨ ∃ element, own = none ∧ Value.find? "additionalProperties" entries = some element ∧ Enters part element := by
  have hnone : combined entries = none := by rw [combined, hallOf, honeOf, Option.none_or]
  rcases hof.enters_object hown h with heq | h | ⟨_, _, hlist, -⟩ | ⟨hown, -, element, helement, h⟩
  · exact .inl heq
  · exact .inr (.inl h)
  · rw [hnone] at hlist
    cases hlist
  · exact .inr (.inr ⟨element, hown, helement, h⟩)

/-- A schema that the conversion of another one goes through is converted, to a node of the other one's type. -/
def ConvertsInside (scope : Link.Scope) (part : List (Value × Value)) (type : ClientType) : Prop :=
  ∃ log node, Converts scope (.map part) log node ∧ Inside node type

theorem ConvertsInside.mono {inner outer : ClientType} (h : ConvertsInside scope part inner)
    (hinside : Inside inner outer) : ConvertsInside scope part outer := by
  obtain ⟨log, node, hconverts, hnode⟩ := h
  exact ⟨log, node, hconverts, hnode.trans hinside⟩

/-- The type of a schema that the conversion goes through is a node. -/
theorem Converts.convertsInside {schema : Value} (h : Converts scope schema log type) (henters : Enters part schema) :
    ConvertsInside scope part type := by
  induction h with
  | again _ ih =>
    cases henters with
    | again henters => exact ih henters
  | link hlink hkey =>
    obtain rfl := eq_of_enters_ref hlink henters
    exact ⟨_, _, .link hlink hkey, .here⟩
  | boolean hof =>
    obtain rfl := hof.eq_of_enters (by decide) (by decide) henters
    exact ⟨_, _, .boolean hof, .here⟩
  | number hof =>
    obtain rfl := hof.elim (·.eq_of_enters (by decide) (by decide) henters)
      (·.eq_of_enters (by decide) (by decide) henters)
    exact ⟨_, _, .number hof, .here⟩
  | string hof hfilled =>
    obtain rfl := hof.eq_of_enters (by decide) (by decide) henters
    exact ⟨_, _, .string hof hfilled, .here⟩
  | enum hof hfilled hvalues =>
    obtain rfl := hof.eq_of_enters (by decide) (by decide) henters
    exact ⟨_, _, .enum hof hfilled hvalues, .here⟩
  | array hof hitems helement ih =>
    rcases hof.enters_array hitems henters with rfl | henters
    · exact ⟨_, _, .array hof hitems helement, .here⟩
    · exact (ih henters).mono (.element .here)
  | @composition entries own list members hof hown howned hlist hitems hmembers ihOwn ihMembers =>
    -- The own properties make the last part; the schemas that are combined make those in front of it.
    have hcombined : combined entries = some list := by rw [combined, hlist, Option.some_or]
    rcases hof.enters_combined hown hcombined hitems henters with rfl | ⟨p, hp, henters⟩ | ⟨c, hc, henters⟩
    · exact ⟨_, _, .composition hof hown howned hlist hitems hmembers, .here⟩
    · cases own with
      | none => cases hp
      | some own =>
        have hobject : Inside p.type (.object (own.map Property.field)) := .field (List.mem_map_of_mem hp) .here
        exact (ihOwn p hp henters).mono (.part (List.mem_append_right _ (List.mem_singleton_self _)) hobject)
    · exact (ihMembers c hc henters).mono (.part (List.mem_append_left _ (List.mem_map_of_mem hc)) .here)
  | @union entries own list _ _ _ members hof hown howned hallOf hlist hitems hmembers htags ihOwn ihMembers =>
    have hcombined : combined entries = some list := by rw [combined, hallOf, hlist, Option.none_or]
    rcases hof.enters_combined hown hcombined hitems henters with rfl | ⟨p, hp, henters⟩ | ⟨c, hc, henters⟩
    · exact ⟨_, _, .union hof hown howned hallOf hlist hitems hmembers htags, .here⟩
    · cases own with
      | none => cases hp
      | some own => exact (ihOwn p hp henters).mono (.shared (.field (List.mem_map_of_mem hp) .here))
    · exact (ihMembers c hc henters).mono (.member (List.mem_map_of_mem hc) .here)
  | object hof hown howned hallOf honeOf ihOwn =>
    rcases hof.enters_uncombined hown hallOf honeOf henters with rfl | ⟨p, hp, henters⟩ | ⟨_, hother, -⟩
    · exact ⟨_, _, .object hof hown howned hallOf honeOf, .here⟩
    · exact (ihOwn p hp henters).mono (.field (List.mem_map_of_mem hp) .here)
    · cases hother
  | freeFormMap hof hown hallOf honeOf hfind =>
    rcases hof.enters_uncombined hown hallOf honeOf henters with rfl | ⟨p, hp, -⟩ | ⟨element, -, hfind', henters⟩
    · exact ⟨_, _, .freeFormMap hof hown hallOf honeOf hfind, .here⟩
    · cases hp
    · rw [hfind] at hfind'
      cases hfind'
      cases henters
  | map hof hown hallOf honeOf hfind hmap helement ih =>
    rcases hof.enters_uncombined hown hallOf honeOf henters with rfl | ⟨p, hp, -⟩ | ⟨element, -, hfind', henters⟩
    · exact ⟨_, _, .map hof hown hallOf honeOf hfind hmap helement, .here⟩
    · cases hp
    · rw [hfind] at hfind'
      cases hfind'
      exact (ih henters).mono (.value .here)

/-! ### Empty lists -/

/-- A schema that is combined from an empty list.  Next to `allOf`, fields of its own are one more part. -/
structure CombinesNothing (entries : List (Value × Value)) : Prop where
  isOf : IsOf entries "object"
  list : ∃ list, combined entries = some list ∧ parts list = .ok []
  own : Value.find? "allOf" entries = none ∨ Value.find? "properties" entries = none

/-- Nothing is combined in the type of a schema exactly if the schema is combined from an empty list. -/
theorem Converts.isHollow_iff (h : Converts scope (.map entries) log type) : type.IsHollow ↔ CombinesNothing entries := by
  constructor
  · intro hhollow
    cases h with
    | @composition _ own list members hof hown _ hlist hitems =>
      obtain ⟨hmembers, hfields⟩ := List.append_eq_nil_iff.mp hhollow
      rw [List.map_eq_nil_iff.mp hmembers, List.map_nil] at hitems
      refine ⟨hof, ⟨list, by rw [combined, hlist, Option.some_or], hitems⟩, .inr ?_⟩
      cases own with
      | none => exact hown
      | some own => cases hfields
    | @union _ _ list _ _ _ members hof _ _ hallOf hlist hitems =>
      rw [List.map_eq_nil_iff.mp hhollow, List.map_nil] at hitems
      exact ⟨hof, ⟨list, by rw [combined, hallOf, hlist, Option.none_or], hitems⟩, .inl hallOf⟩
    | _ => cases hhollow
  · rintro ⟨hobject, ⟨list', hcombined, hnil⟩, hown'⟩
    have hnot : ∀ {name}, IsOf entries name → name ≠ "object" → False := fun hof hne => hne (hof.unique hobject)
    cases h with
    | link hlink =>
      rw [hobject.1] at hlink
      cases hlink
    | boolean hof | string hof | enum hof | array hof => exact (hnot hof (by decide)).elim
    | number hof => exact (hof.elim (hnot · (by decide)) (hnot · (by decide))).elim
    | @composition _ own _ members _ hown _ hlist hitems =>
      rw [combined, hlist, Option.some_or] at hcombined
      cases hcombined
      rw [hnil] at hitems
      have hmembers := List.map_eq_nil_iff.mp (Except.ok.inj hitems).symm
      subst hmembers
      rw [hlist] at hown'
      cases own with
      | none => rfl
      | some own =>
        obtain ⟨v, hfind, -⟩ := hown
        rw [hown'.resolve_left (Option.some_ne_none _)] at hfind
        cases hfind
    | union _ _ _ hallOf hlist hitems =>
      rw [combined, hallOf, hlist, Option.none_or] at hcombined
      cases hcombined
      rw [hnil] at hitems
      exact List.map_eq_nil_iff.mpr (List.map_eq_nil_iff.mp (Except.ok.inj hitems).symm)
    | object _ _ _ hallOf honeOf | freeFormMap _ _ hallOf honeOf | map _ _ hallOf honeOf =>
      rw [combined, hallOf, honeOf, Option.none_or] at hcombined
      cases hcombined

/-- **Empty lists of schemas.**  Nothing is combined somewhere in a type exactly if the conversion goes through a
    schema that is combined from an empty list. -/
theorem Converts.exists_isHollow_iff {schema : Value} (h : Converts scope schema log type) :
    (∃ node, Inside node type ∧ node.IsHollow) ↔ ∃ part, Enters part schema ∧ CombinesNothing part := by
  constructor
  · rintro ⟨node, hinside, hhollow⟩
    cases h.comesFrom hinside with
    | whole hpart hconverts => exact ⟨_, hpart, hconverts.isHollow_iff.mp hhollow⟩
    | own hnode | tag hnode =>
      subst hnode
      cases hhollow
  · rintro ⟨part, hpart, hnothing⟩
    obtain ⟨_, node, hconverts, hinside⟩ := h.convertsInside hpart
    exact ⟨node, hinside, hconverts.isHollow_iff.mpr hnothing⟩

/-- **Enums have values.** -/
theorem Converts.values_ne_nil {schema : Value} {values : List String} {assigned : Option String}
    (h : Converts scope schema log type) (hinside : Inside (.enum values assigned) type) : values ≠ [] := by
  cases h.comesFrom hinside with
  | whole _ hconverts =>
    cases hconverts with
    | enum _ hfilled hvalues =>
      obtain ⟨items, hitems, htexts⟩ := Except.bind_eq_ok.mp hvalues
      rintro rfl
      cases Except.mapM_eq_ok.mp htexts
      exact Value.elements_ne_nil hfilled hitems rfl
  | own hnode | tag hnode => cases hnode

end Schema

namespace Output

/-! ### Written forms -/

theorem intercalate_ne_empty {sep : String} {texts : List String} (hne : texts ≠ []) (h : ∀ text ∈ texts, text ≠ "") :
    sep.intercalate texts ≠ "" := by
  cases texts with
  | nil => exact absurd rfl hne
  | cons first rest =>
    have hfirst := h first List.mem_cons_self
    cases rest with
    | nil => simpa using hfirst
    | cons second rest => simp [String.intercalate_cons_cons, hfirst]

namespace TypeExpr

/-- There is something to write everywhere: no list of a written form is empty, and no name. -/
inductive Filled : TypeExpr → Prop
  | builtin {type} : Filled (.builtin type)
  | named {space name} : qualifiedText space name ≠ "" → Filled (.named space name)
  | literals {values} : values ≠ [] → Filled (.literals values)
  | record {value} : Filled value → Filled (.record value)
  | array {element} : Filled element → Filled (.array element)
  | object {fields : List (Field TypeExpr)} : (∀ f ∈ fields, Filled f.type) → Filled (.object fields)
  | all {parts} : parts ≠ [] → (∀ part ∈ parts, Filled part) → Filled (.all parts)
  | any {variants : List (Variant TypeExpr)} : variants ≠ [] → (∀ v ∈ variants, Filled v.type) → Filled (.any variants)

/-- The text `inner` stands between parentheses that are put around a piece of the written form. -/
inductive Encloses (inner : String) : Nat → TypeExpr → Prop
  | element {depth e} : e.isCompound = true → e.text depth = inner → Encloses inner depth (.array e)
  | part {depth parts e} : e ∈ parts → e.isCompound = true → e.text depth = inner → Encloses inner depth (.all parts)
  | variant {depth variants} {v : Variant TypeExpr} : v ∈ variants → v.tag = none → v.type.isCompound = true →
      v.type.text depth = inner → Encloses inner depth (.any variants)
  | inValue {depth e} : Encloses inner depth e → Encloses inner depth (.record e)
  | inElement {depth e} : Encloses inner depth e → Encloses inner depth (.array e)
  | inField {depth fields} {f : Field TypeExpr} : f ∈ fields → Encloses inner (depth + 1) f.type →
      Encloses inner depth (.object fields)
  | inPart {depth parts e} : e ∈ parts → Encloses inner depth e → Encloses inner depth (.all parts)
  | inVariant {depth variants} {v : Variant TypeExpr} : v ∈ variants → Encloses inner depth v.type →
      Encloses inner depth (.any variants)

variable {e : TypeExpr} {depth : Nat} {inner : String}

theorem lines_eq_map (depth : Nat) (fields : List (Field TypeExpr)) :
    lines depth fields = fields.map fun f => line depth f.name f.required (f.type.text (depth + 1)) := by
  induction fields with
  | nil => rfl
  | cons f rest ih => rw [lines, ih, List.map_cons]

/-- The parentheses are in the text, with what stands between them. -/
theorem Encloses.holds (h : Encloses inner depth e) : Holds ["(" ++ inner ++ ")"] (e.text depth) := by
  induction h with
  | element hcompound htext =>
    rw [text, parenthesized, if_pos hcompound, htext]
    exact (Holds.singleton _).append_right _
  | part hmem hcompound htext =>
    rw [text, operands_eq_map]
    refine Holds.intercalate_of_mem _ (List.mem_map_of_mem hmem) ?_
    rw [parenthesized, if_pos hcompound, htext]
    exact .singleton _
  | variant hmem htag hcompound htext =>
    rw [text, alternatives_eq_map]
    refine Holds.intercalate_of_mem _ (List.mem_map_of_mem hmem) ?_
    rw [htag, variantText, parenthesized, if_pos hcompound, htext]
    exact .singleton _
  | inValue _ ih =>
    rw [text]
    exact (ih.append_left _).append_right _
  | inElement _ ih =>
    rw [text]
    exact (holds_parenthesized _ ih).append_right _
  | inField hmem _ ih =>
    rw [text_object (List.ne_nil_of_mem hmem), lines_eq_map]
    exact holds_block (Holds.intercalate_of_mem _ (List.mem_map_of_mem hmem) (holds_line _ _ _ ih)) _
  | inPart hmem _ ih =>
    rw [text, operands_eq_map]
    exact Holds.intercalate_of_mem _ (List.mem_map_of_mem hmem) (holds_parenthesized _ ih)
  | @inVariant _ _ v hmem _ ih =>
    rw [text, alternatives_eq_map]
    refine Holds.intercalate_of_mem _ (List.mem_map_of_mem hmem) ?_
    cases v.tag with
    | none => exact holds_parenthesized _ ih
    | some tagged =>
      exact ((((ih.append_left "Omit<").append_right ", '").append_right tagged.1).append_right "'> & ").append_right _

theorem parenthesized_ne_empty {text : String} (h : text ≠ "") : e.parenthesized text ≠ "" := by
  unfold parenthesized
  split
  · simp
  · exact h

theorem variantText_ne_empty {tag : Option (String × Tag)} {text : String} (h : text ≠ "") :
    e.variantText tag text ≠ "" := by
  cases tag with
  | none => exact parenthesized_ne_empty h
  | some tagged => simp [variantText]

/-- What has something to write everywhere has a text. -/
theorem Filled.text_ne_empty (h : e.Filled) (depth : Nat) : e.text depth ≠ "" := by
  induction h generalizing depth with
  | @builtin type => cases type <;> simp [text, Builtin.text]
  | named hname => exact hname
  | literals hne =>
    refine intercalate_ne_empty (by simpa using hne) (List.forall_mem_map.mpr fun value _ => ?_)
    simp [literal, literalChars]
  | record | array => simp [text]
  | @object fields =>
    cases fields with
    | nil => simp [text, braced]
    | cons f rest => simp [text, block, braced]
  | all hne _ ih =>
    rw [text, operands_eq_map]
    refine intercalate_ne_empty (by simpa using hne) (List.forall_mem_map.mpr fun part hpart => ?_)
    exact parenthesized_ne_empty (ih part hpart depth)
  | any hne _ ih =>
    rw [text, alternatives_eq_map]
    refine intercalate_ne_empty (by simpa using hne) (List.forall_mem_map.mpr fun v hv => ?_)
    exact variantText_ne_empty (ih v hv depth)

/-- What has something to write everywhere has something between any parentheses. -/
theorem Filled.not_encloses (h : e.Filled) : ¬ Encloses "" depth e := by
  intro hencloses
  induction hencloses with
  | element _ htext =>
    cases h with
    | array h => exact h.text_ne_empty _ htext
  | part hmem _ htext =>
    cases h with
    | all _ h => exact (h _ hmem).text_ne_empty _ htext
  | variant hmem _ _ htext =>
    cases h with
    | any _ h => exact (h _ hmem).text_ne_empty _ htext
  | inValue _ ih =>
    cases h with
    | record h => exact ih h
  | inElement _ ih =>
    cases h with
    | array h => exact ih h
  | inField hmem _ ih =>
    cases h with
    | object h => exact ih (h _ hmem)
  | inPart hmem _ ih =>
    cases h with
    | all _ h => exact ih (h _ hmem)
  | inVariant hmem _ ih =>
    cases h with
    | any _ h => exact ih (h _ hmem)

end TypeExpr

/-! ### Types -/

namespace TypeWriter

variable {w : TypeWriter} {depth : Nat} {type : ClientType} {text : String}

/-- The type can be written. -/
def IsWritten (w : TypeWriter) (type : ClientType) : Prop :=
  ∃ depth text, (w.write depth type).result = .ok text

/-- What is written for the type has nothing in it, or nothing between two parentheses. -/
def WritesBlank (w : TypeWriter) (type : ClientType) : Prop :=
  ∃ depth e, (w.write depth type).result = .ok (e.text depth) ∧ w.describe type = .ok e
    ∧ (e.text depth = "" ∨ e.Encloses "" depth)

/-- The type is a reference to a declaration without a name, and nothing stands in front of names. -/
def IsNameless (w : TypeWriter) (type : ClientType) : Prop :=
  ∃ key d, type = .ref key ∧ w.registry.get? key = some d ∧ d.name = "" ∧ w.qualifier = none

/-- Nothing is written at a node. -/
def IsGap (w : TypeWriter) (type : ClientType) : Prop :=
  type.IsHollow ∨ w.IsNameless type

/-! #### No gaps, no blanks -/

theorem qualifiedText_eq_empty_iff {space : Option String} {name : String} :
    qualifiedText space name = "" ↔ name = "" ∧ space = none := by
  cases space with
  | none => simp [qualifiedText]
  | some space => simp [qualifiedText]

theorem PrintsVariant.exists_write {tag tagType : Option String} {mapping : Table String String} {member : ClientType}
    {v : PrintedVariant} (h : w.PrintsVariant depth tag mapping tagType member v) :
    ∃ text, (w.write depth member).result = .ok text := by
  cases h with
  | tagged _ _ htext | plain _ htext => exact ⟨_, htext⟩

theorem exists_of_writeOperands {types : List ClientType} {log texts : List String}
    (h : w.writeOperands depth types = ⟨log, .ok texts⟩) :
    ∀ type ∈ types, ∃ text, (w.write depth type).result = .ok text := by
  induction types generalizing log texts with
  | nil => nofun
  | cons type rest ih =>
    rw [writeOperands] at h
    obtain ⟨_, text, _, htext, hrest, -⟩ := Logged.bind_eq_ok.mp h
    obtain ⟨_, others, _, hothers, -, -⟩ := Logged.bind_eq_ok.mp hrest
    exact List.forall_mem_cons.mpr ⟨⟨text, by rw [htext]⟩, ih hothers⟩

/-- The fields that are shown have something to write, if it holds of each field that is written. -/
theorem filled_of_describeFields {omitted : Option String} {fields : List (Field ClientType)}
    {shown : List (Field TypeExpr)} {lines : List String} (h : w.describeFields omitted fields = .ok shown)
    (hlines : List.Forall₂ (w.PrintsField depth) (shownFields omitted (some fields)) lines)
    (hfields : ∀ f ∈ fields, ∀ text e, (w.write (depth + 1) f.type).result = .ok text → w.describe f.type = .ok e →
      e.Filled) : (TypeExpr.object shown).Filled := by
  refine .object fun s hs => ?_
  obtain ⟨f, hf, -, -, he⟩ := exists_of_forall₂ (forall₂_of_describeFields h) hs
  obtain ⟨_, -, text, htext, -⟩ := exists_of_forall₂ hlines.flip hf
  exact hfields f (List.mem_of_mem_filter hf) text _ htext he

/-- A composition has something to write, if it has parts and it holds of each of them. -/
theorem filled_of_describeParts {types : List ClientType} {parts : List TypeExpr} {log texts : List String}
    (hne : types ≠ []) (h : w.describeParts types = .ok parts) (htexts : w.writeOperands depth types = ⟨log, .ok texts⟩)
    (htypes : ∀ type ∈ types, ∀ text e, (w.write depth type).result = .ok text → w.describe type = .ok e → e.Filled) :
    (TypeExpr.all parts).Filled := by
  have hforall := describeParts_eq_ok.mp h
  refine .all ?_ fun part hpart => ?_
  · rintro rfl
    exact hne (List.forall₂_nil_right_iff.mp hforall)
  · obtain ⟨type, htype, he⟩ := exists_of_forall₂ hforall hpart
    obtain ⟨text, htext⟩ := exists_of_writeOperands htexts type htype
    exact htypes type htype text part htext he

/-- A choice has something to write, if it has members and it holds of each of them. -/
theorem filled_of_describeVariants {tag tagType : Option String} {mapping values : Table String String}
    {members : List ClientType} {variants : List (Variant TypeExpr)} {printed : List PrintedVariant}
    (hne : members ≠ []) (h : w.describeVariants tag values tagType members = .ok variants)
    (hprinted : List.Forall₂ (w.PrintsVariant depth tag mapping tagType) members printed)
    (hmembers : ∀ member ∈ members, ∀ text e, (w.write depth member).result = .ok text →
      w.describe member = .ok e → e.Filled) : (TypeExpr.any variants).Filled := by
  have hforall := forall₂_of_describeVariants h
  refine .any ?_ fun v hv => ?_
  · rintro rfl
    exact hne (List.forall₂_nil_right_iff.mp hforall)
  · obtain ⟨member, hm, he, -⟩ := exists_of_forall₂ hforall hv
    obtain ⟨_, -, hprints⟩ := exists_of_forall₂ hprinted.flip hm
    obtain ⟨text, htext⟩ := hprints.exists_write
    exact hmembers member hm text v.type htext he

/-- The lines of an object are those of its fields. -/
theorem exists_lines_of_object {fields : List (Field ClientType)}
    (h : (w.write depth (.object fields)).result = .ok text) :
    ∃ lines, List.Forall₂ (w.PrintsField depth) (shownFields none (some fields)) lines := by
  cases fields with
  | nil => exact ⟨[], .nil⟩
  | cons f rest =>
    have hwrote := Logged.eq_mk_of_result h
    rw [write] at hwrote
    · obtain ⟨_, lines, _, hlines, -, -⟩ := Logged.bind_eq_ok.mp hwrote
      exact ⟨lines, forall₂_of_writeFields hlines⟩
    · exact List.cons_ne_nil f rest

/-- Nothing that is written in the type is a gap, and its enums have values. -/
structure NoGaps (w : TypeWriter) (type : ClientType) : Prop where
  values : ∀ values assigned, Inside (.enum values assigned) type → values ≠ []
  nodes : ∀ node, Inside node type → w.IsWritten node → ¬ w.IsGap node

theorem NoGaps.mono {inner outer : ClientType} (h : w.NoGaps outer) (hinside : Inside inner outer) : w.NoGaps inner where
  values values assigned hin := h.values values assigned (hin.trans hinside)
  nodes node hin := h.nodes node (hin.trans hinside)

/-- **No gaps, no blanks.**  A type without gaps has something to write everywhere. -/
theorem NoGaps.filled (h : w.NoGaps type) {e : TypeExpr} (hwrite : (w.write depth type).result = .ok text)
    (hdescribe : w.describe type = .ok e) : e.Filled := by
  replace hdescribe := hasForm_of_describe hdescribe
  induction hdescribe generalizing depth text with
  | string | number | boolean | void => exact .builtin
  | freeFormMap => exact .record .builtin
  | assigned hname =>
    refine .named fun hempty => ?_
    -- An enum whose assigned name is empty is written with its values.
    rw [(qualifiedText_eq_empty_iff.mp hempty).1] at hname
    simp [enumName?, Option.filter_eq_some_iff] at hname
  | @literals values assigned => exact .literals (h.values values assigned .here)
  | @ref target d hd =>
    refine .named fun hempty => h.nodes _ .here ⟨depth, text, hwrite⟩ (.inr ?_)
    exact ⟨target, d, rfl, hd, qualifiedText_eq_empty_iff.mp hempty⟩
  | array _ ih =>
    have hwrote := Logged.eq_mk_of_result hwrite
    rw [write] at hwrote
    obtain ⟨_, inner, _, hinner, -, -⟩ := Logged.bind_eq_ok.mp hwrote
    exact .array (ih (h.mono (.element .here)) (by rw [hinner]))
  | map _ ih =>
    have hwrote := Logged.eq_mk_of_result hwrite
    rw [write] at hwrote
    obtain ⟨_, inner, _, hinner, -, -⟩ := Logged.bind_eq_ok.mp hwrote
    exact .record (ih (h.mono (.value .here)) (by rw [hinner]))
  | object hshown _ ih =>
    obtain ⟨lines, hlines⟩ := exists_lines_of_object hwrite
    exact filled_of_describeFields hshown hlines fun f hf _ e htext he =>
      ih f hf e he (h.mono (.field hf .here)) htext
  | @composition types parts hparts _ ih =>
    have hne : types ≠ [] := fun hnil => h.nodes _ .here ⟨depth, text, hwrite⟩ (.inl hnil)
    have hwrote := Logged.eq_mk_of_result hwrite
    rw [write] at hwrote
    obtain ⟨_, texts, _, htexts, -, -⟩ := Logged.bind_eq_ok.mp hwrote
    exact filled_of_describeParts hne hparts htexts fun type htype _ e htext he =>
      ih type htype e he (h.mono (.part htype .here)) htext
  | @union members tag mapping shared tagType values variants _ hvariants _ ih =>
    have hne : members ≠ [] := fun hnil => h.nodes _ .here ⟨depth, text, hwrite⟩ (.inl hnil)
    obtain ⟨lines, printed, hprints⟩ := exists_printsUnion hwrite
    exact filled_of_describeVariants hne hvariants hprints.of_members fun member hm _ e htext he =>
      ih member hm e he (h.mono (.member hm .here)) htext
  | @shared members tag mapping fields tagType values variants shown _ hvariants _ hshown _ ihm ihs =>
    have hne : members ≠ [] := fun hnil => h.nodes _ .here ⟨depth, text, hwrite⟩ (.inl hnil)
    obtain ⟨lines, printed, hprints⟩ := exists_printsUnion hwrite
    have hany := filled_of_describeVariants hne hvariants hprints.of_members fun member hm _ e htext he =>
      ihm member hm e he (h.mono (.member hm .here)) htext
    have hobject := filled_of_describeFields hshown hprints.of_shown fun f hf _ e htext he =>
      ihs f hf e he (h.mono (.shared (.field hf .here))) htext
    refine .all (List.cons_ne_nil _ _) ?_
    simpa using ⟨hobject, hany⟩

/-! #### Gaps are blanks -/

/-- **Gaps are blanks.**  Where nothing is combined, or a name is empty, the text has nothing in it; if a union with
    fields of its own has no members, there is nothing between the parentheses behind them. -/
theorem IsGap.writesBlank (hgap : w.IsGap type) (h : w.IsWritten type) : w.WritesBlank type := by
  obtain ⟨depth, text, hwrite⟩ := h
  obtain ⟨e, hdescribe, hwrote⟩ := w.exists_describe type depth _ text (Logged.eq_mk_of_result hwrite)
  refine ⟨depth, e, by rw [hwrite, hwrote.text_eq], hdescribe, ?_⟩
  rcases hgap with hhollow | ⟨key, d, rfl, hd, hname, hspace⟩
  · cases type with
    | composition parts =>
      obtain rfl : parts = [] := hhollow
      cases hdescribe
      exact .inl rfl
    | union members tag mapping shared tagType =>
      obtain rfl : members = [] := hhollow
      obtain ⟨values, variants, -, hvariants, rfl | ⟨fields, shown, -, -, rfl⟩⟩ := exists_of_describe_union hdescribe
      · cases hvariants
        exact .inl rfl
      · cases hvariants
        exact .inr (.part (List.mem_cons_of_mem _ (List.mem_singleton_self _)) rfl rfl)
    | _ => cases hhollow
  · rw [describe, declaration_eq_ok.mpr hd] at hdescribe
    cases hdescribe
    exact .inl (qualifiedText_eq_empty_iff.mpr ⟨hname, hspace⟩)

/-- What is written for some node leaves a blank exactly if a gap is written. -/
theorem exists_writesBlank_iff (hvalues : ∀ values assigned, Inside (.enum values assigned) type → values ≠ []) :
    (∃ node, Inside node type ∧ w.WritesBlank node) ↔ ∃ node, Inside node type ∧ w.IsWritten node ∧ w.IsGap node := by
  constructor
  · rintro ⟨node, hinside, depth, e, hwrite, hdescribe, hblank⟩
    by_contra hnone
    have hgaps : w.NoGaps node :=
      ⟨fun values assigned hin => hvalues values assigned (hin.trans hinside),
        fun inner hin hwritten hgap => hnone ⟨inner, hin.trans hinside, hwritten, hgap⟩⟩
    have hfilled := hgaps.filled hwrite hdescribe
    exact hblank.elim (hfilled.text_ne_empty depth) hfilled.not_encloses
  · rintro ⟨node, hinside, hwritten, hgap⟩
    exact ⟨node, hinside, hgap.writesBlank hwritten⟩

end TypeWriter

end Output

/-! ### Schemas -/

namespace Schema

open Output (TypeWriter)

/-- **Blanks in types.**  In the type that a schema describes, every enum has values.  A composition without parts or
    a union without members is in it exactly if the conversion goes through a schema that is combined from an empty
    list.  However types are written, the text of some node has nothing in it, or nothing between two parentheses,
    exactly if such a composition or union is written or a reference to a declaration without a name. -/
theorem blanks_iff {scope : Link.Scope} {schema : Value} {log : List String} {type : ClientType}
    (h : convert scope schema = ⟨log, .ok type⟩) :
    (∀ values assigned, Inside (.enum values assigned) type → values ≠ [])
      ∧ ((∃ node, Inside node type ∧ node.IsHollow) ↔ ∃ part, Enters part schema ∧ CombinesNothing part)
      ∧ ∀ w : TypeWriter, (∃ node, Inside node type ∧ w.WritesBlank node)
        ↔ ∃ node, Inside node type ∧ w.IsWritten node ∧ w.IsGap node := by
  have hconverts := convert_eq_ok_iff.mp h
  have hvalues : ∀ values assigned, Inside (.enum values assigned) type → values ≠ [] :=
    fun _ _ => hconverts.values_ne_nil
  exact ⟨hvalues, hconverts.exists_isHollow_iff, fun w => TypeWriter.exists_writesBlank_iff hvalues⟩

/-- A truth value, or one of two texts. -/
def switchMembers : List Conversion :=
  [⟨.map [(.text "type", .text "boolean")], [], .boolean⟩,
    ⟨.map [(.text "enum", .list [.text "low", .text "high"])], [], .enum ["low", "high"] none⟩]

def switch : List (Value × Value) :=
  [(.text "oneOf", .list (switchMembers.map (·.schema)))]

def switchType : ClientType :=
  .union (switchMembers.map (·.type)) none [] none none

theorem convert_switch : convert ⟨"", ""⟩ (.map switch) = ⟨[], .ok switchType⟩ := by
  have hmembers : ∀ c ∈ switchMembers, Converts ⟨"", ""⟩ c.schema c.log c.type := by
    rw [switchMembers, List.forall_mem_cons, List.forall_mem_singleton]
    exact ⟨.boolean ⟨rfl, rfl⟩, .enum ⟨rfl, rfl⟩ rfl rfl⟩
  have hown : Owns switch none := rfl
  have htags : Tags ⟨"", ""⟩ switch (ownFields none) none [] none :=
    ⟨.null, .null, [], rfl, rfl, rfl, rfl, rfl, rfl⟩
  exact (Converts.union ⟨rfl, rfl⟩ hown (by simp) rfl rfl rfl hmembers htags).convert_eq

/-- Nothing is left blank where each list has something in it. -/
theorem switch_has_no_blanks :
    convert ⟨"", ""⟩ (.map switch) = ⟨[], .ok switchType⟩
      ∧ plainWriter.write 0 switchType = ⟨[], .ok "boolean | ('low' | 'high')"⟩
      ∧ ¬ ∃ node, Inside node switchType ∧ plainWriter.WritesBlank node := by
  refine ⟨convert_switch, by cbv, fun hblank => ?_⟩
  obtain ⟨node, hinside, -, hhollow | ⟨key, d, -, hd, -⟩⟩ :=
    ((blanks_iff convert_switch).2.2 plainWriter).mp hblank
  · cases hinside with
    | here => cases hhollow
    | member hmem hinside =>
      simp only [switchMembers, List.map_cons, List.map_nil, List.mem_cons, List.not_mem_nil, or_false] at hmem
      rcases hmem with rfl | rfl
      · cases hinside
        cases hhollow
      · cases hinside
        cases hhollow
  · cases hd

/-- A schema that is combined from an empty list has a type without a text. -/
theorem empty_allOf_blank :
    convert ⟨"", ""⟩ (.map [(.text "allOf", .list [])]) = ⟨[], .ok (.composition [])⟩
      ∧ plainWriter.write 0 (.composition []) = ⟨[], .ok ""⟩
      ∧ plainWriter.write 0 (.array (.composition [])) = ⟨[], .ok "()[]"⟩ := by
  refine ⟨convert_eq_ok_iff.mpr ?_, by cbv, by cbv⟩
  exact @Converts.composition _ _ none _ [] ⟨rfl, rfl⟩ rfl (by simp) rfl rfl (by simp)

end Schema

end TypedClient
