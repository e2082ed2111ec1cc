import TypedClient.Proofs.Links
import TypedClient.Proofs.TypeSyntax
import TypedClient.Proofs.UnionParts

namespace TypedClient

/-!
# Names of fields

A field is written with its name as it is, without quotes.  The line declares the field only if the name is one
of the language, and the lines of an object declare as many fields only if no two names are the same.  The name is
what is left of the label that the property has in the document, so both depend on the labels alone.

* `Enters` — the schemas that a conversion goes through.
* `Converts.comesFrom` — every node of a type comes from one of these schemas.
* `Converts.exists_describedIn` — every object of a type has the fields of one of them.
* `Lettering` — the characters that names are made of.
* `Lettering.declared` — the name that a line declares.
* `Separates` — labels that give names of their own.
* `declares_iff` — the fields of an object are declared, each once, exactly if their labels give names of their own.
-/

/-! ### Schemas inside of a schema -/

namespace Schema

open ClientType (Inside)

/-- The schema with the entries `part` is one that the conversion of a schema goes through. -/
inductive Enters (part : List (Value × Value)) : Value → Prop
  | again {levels content} : Enters part content → Enters part (.again levels content)
  | here : Enters part (.map part)
  | items {entries items} : IsOf entries "array" → Value.find? "items" entries = some items →
      Enters part items → Enters part (.map entries)
  | property {entries} {own : List Property} {p} : IsOf entries "object" → Owns entries (some own) →
      p ∈ own → Enters part p.schema → Enters part (.map entries)
  | part {entries list items schema} : IsOf entries "object" →
      combined entries = some list → parts list = .ok items →
      schema ∈ items → Enters part schema → Enters part (.map entries)
  | value {entries element} : IsOf entries "object" →
      Value.find? "properties" entries = none → combined entries = none →
      Value.find? "additionalProperties" entries = some element →
      Enters part element → Enters part (.map entries)

/-- The fields are those of the own properties of a schema that a conversion goes through. -/
def DescribedIn (schema : Value) (fields : List (Field ClientType)) (own : List Property) : Prop :=
  ∃ part, Enters part schema ∧ IsOf part "object" ∧ Owns part (some own) ∧ fields = own.map Property.field

/-- A node of the type of a schema comes from one schema that the conversion goes through.  It is the type of this
    schema, or the object with its own fields; apart from these there is only the reference at a tag. -/
inductive ComesFrom (scope : Link.Scope) (schema : Value) (node : ClientType) : Prop
  | whole {part log} : Enters part schema → Converts scope (.map part) log node → ComesFrom scope schema node
  | own {fields own} : node = .object fields → DescribedIn schema fields own → ComesFrom scope schema node
  | tag {key} : node = .ref key → ComesFrom scope schema node

variable {scope : Link.Scope} {entries : List (Value × Value)} {node : ClientType}

/-- What comes from a schema inside of another one comes from the other one. -/
theorem ComesFrom.mono {inner outer : Value} (h : ComesFrom scope inner node)
    (henters : ∀ part, Enters part inner → Enters part outer) : ComesFrom scope outer node := by
  cases h with
  | whole hpart hconverts => exact .whole (henters _ hpart) hconverts
  | own hnode hown =>
    obtain ⟨part, hpart, hown⟩ := hown
    exact .own hnode ⟨part, henters part hpart, hown⟩
  | tag hnode => exact .tag hnode

/-- A node of the object that the own properties describe. -/
theorem comesFrom_own {own : List Property} (hof : IsOf entries "object") (hown : Owns entries (some own))
    (ih : ∀ p ∈ own, Inside node p.type → ComesFrom scope p.schema node)
    (h : Inside node (.object (own.map Property.field))) : ComesFrom scope (.map entries) node := by
  cases h with
  | here => exact .own rfl ⟨entries, .here, hof, hown, rfl⟩
  | field hf h =>
    obtain ⟨p, hp, rfl⟩ := List.mem_map.mp hf
    exact (ih p hp h).mono fun _ => .property hof hown hp

/-- A node of the type of a schema that is combined with others. -/
theorem comesFrom_member {list : Value} {members : List Conversion} {type : ClientType}
    (hof : IsOf entries "object") (hlist : combined entries = some list)
    (hitems : parts list = .ok (members.map (·.schema)))
    (ih : ∀ c ∈ members, Inside node c.type → ComesFrom scope c.schema node)
    (hmem : type ∈ members.map (·.type)) (h : Inside node type) : ComesFrom scope (.map entries) node := by
  obtain ⟨c, hc, rfl⟩ := List.mem_map.mp hmem
  exact (ih c hc h).mono fun _ => .part hof hlist hitems (List.mem_map_of_mem hc)

/-- **Nodes come from schemas.**  Every node of the type that a schema describes comes from one schema that the
    conversion goes through. -/
theorem Converts.comesFrom {schema : Value} {log : List String} {type : ClientType}
    (h : Converts scope schema log type) (hinside : Inside node type) : ComesFrom scope schema node := by
  induction h with
  | again _ ih => exact (ih hinside).mono fun _ => .again
  | link hlink hkey =>
    cases hinside
    exact .whole .here (.link hlink hkey)
  | boolean hof =>
    cases hinside
    exact .whole .here (.boolean hof)
  | number hof =>
    cases hinside
    exact .whole .here (.number hof)
  | string hof hfilled =>
    cases hinside
    exact .whole .here (.string hof hfilled)
  | enum hof hfilled hvalues =>
    cases hinside
    exact .whole .here (.enum hof hfilled hvalues)
  | array hof hitems helement ih =>
    cases hinside with
    | here => exact .whole .here (.array hof hitems helement)
    | element hinside => exact (ih hinside).mono fun _ => .items hof hitems
  | @composition _ own _ _ hof hown howned hlist hitems hmembers ihOwn ihMembers =>
    cases hinside with
    | here => exact .whole .here (.composition hof hown howned hlist hitems hmembers)
    | part hmem hinside =>
      rcases List.mem_append.mp hmem with hmem | hmem
      · exact comesFrom_member hof (by rw [combined, hlist, Option.some_or]) hitems ihMembers hmem hinside
      · -- The own fields are one more part of the composition.
        cases own with
        | none => cases hmem
        | some own =>
          cases List.mem_singleton.mp hmem
          exact comesFrom_own hof hown ihOwn hinside
  | @union _ own _ _ _ _ _ hof hown howned hallOf hlist hitems hmembers htags ihOwn ihMembers =>
    have hwhole := Converts.union hof hown howned hallOf hlist hitems hmembers htags
    generalize hshared : ownFields own = shared at hinside hwhole
    cases hinside with
    | here => exact .whole .here hwhole
    | member hmem hinside =>
      exact comesFrom_member hof (by rw [combined, hallOf, hlist, Option.none_or]) hitems ihMembers hmem hinside
    | shared hinside =>
      cases own with
      | none => cases hshared
      | some own =>
        cases hshared
        exact comesFrom_own hof hown ihOwn hinside
    | tagType heq => exact .tag heq
  | object hof hown _ _ _ ihOwn => exact comesFrom_own hof hown ihOwn hinside
  | freeFormMap hof hown hallOf honeOf hfind =>
    cases hinside
    exact .whole .here (.freeFormMap hof hown hallOf honeOf hfind)
  | map hof hown hallOf honeOf hfind hmap helement ih =>
    cases hinside with
    | here => exact .whole .here (.map hof hown hallOf honeOf hfind hmap helement)
    | value hinside =>
      exact (ih hinside).mono fun _ =>
        .value hof hown (by rw [combined, hallOf, honeOf, Option.none_or]) hfind

/-- **Objects come from schemas.**  Every object of the type that a schema describes has the fields of the own
    properties of one schema that the conversion goes through. -/
theorem Converts.exists_describedIn {schema : Value} {log : List String} {type : ClientType}
    {fields : List (Field ClientType)} (h : Converts scope schema log type)
    (hinside : Inside (.object fields) type) : ∃ own, DescribedIn schema fields own := by
  cases h.comesFrom hinside with
  | whole hpart hconverts =>
    cases hconverts with
    | object hof hown => exact ⟨_, _, hpart, hof, hown, rfl⟩
  | own hnode hown =>
    cases hnode
    exact ⟨_, hown⟩
  | tag hnode => cases hnode

end Schema

/-! ### Names -/

/-- The characters that names of the language are made of.  Outside of ASCII it is left open which ones these
    are. -/
structure Lettering where
  start : Char → Bool
  part : Char → Bool
  start_ascii : ∀ c : Char, c.toNat < 0x80 → start c = Output.TypeSyntax.isStart c
  part_ascii : ∀ c : Char, c.toNat < 0x80 → part c = Output.TypeSyntax.isPart c

namespace Lettering

open Naming (isForbidden)

/-- A name of the language. -/
def IsName (l : Lettering) (name : String) : Prop :=
  ∃ c rest, name.toList = c :: rest ∧ l.start c ∧ ∀ d ∈ rest, l.part d

/-- A label that gives a name: but for the punctuation that is dropped, it is one. -/
def Usable (l : Lettering) (label : String) : Prop :=
  ∃ front c rest, label.toList = front ++ c :: rest ∧ (∀ d ∈ front, isForbidden d) ∧ isForbidden c = false
    ∧ l.start c ∧ ∀ d ∈ rest, isForbidden d ∨ l.part d

/-- Labels that give names of their own: each label gives a name, and no two labels the same. -/
structure Separates (l : Lettering) (labels : List String) : Prop where
  usable : ∀ label ∈ labels, l.Usable label
  apart : labels.Pairwise fun a b => Naming.normalize a ≠ Naming.normalize b

/-- Names of the language, all of them different. -/
structure AreNames (l : Lettering) (names : List String) : Prop where
  isName : ∀ name ∈ names, l.IsName name
  nodup : names.Nodup

variable {l : Lettering} {label : String}

theorem isName_normalize_iff : l.IsName (Naming.normalize label) ↔ l.Usable label := by
  simp only [IsName, Naming.normalize, String.toList_ofList, List.filter_eq_cons_iff]
  constructor
  · rintro ⟨c, _, ⟨front, tail, hlabel, hfront, hc, rfl⟩, hstart, hpart⟩
    refine ⟨front, c, tail, hlabel, by simpa using hfront, by simpa using hc, hstart, fun d hd => ?_⟩
    by_cases hforbidden : isForbidden d
    · exact .inl hforbidden
    · exact .inr (hpart d (List.mem_filter.mpr ⟨hd, by simpa using hforbidden⟩))
  · rintro ⟨front, c, tail, hlabel, hfront, hc, hstart, htail⟩
    refine ⟨c, _, ⟨front, tail, hlabel, by simpa using hfront, by simpa using hc, rfl⟩, hstart, fun d hd => ?_⟩
    obtain ⟨hd, hforbidden⟩ := List.mem_filter.mp hd
    exact (htail d hd).resolve_left (by simpa using hforbidden)

theorem areNames_normalize_iff {labels : List String} :
    l.AreNames (labels.map Naming.normalize) ↔ l.Separates labels := by
  constructor
  · rintro ⟨hnames, hnodup⟩
    exact ⟨fun label hlabel => isName_normalize_iff.mp (hnames _ (List.mem_map_of_mem hlabel)),
      List.pairwise_map.mp hnodup⟩
  · rintro ⟨husable, hapart⟩
    refine ⟨?_, List.pairwise_map.mpr hapart⟩
    rw [List.forall_mem_map]
    exact fun label hlabel => isName_normalize_iff.mpr (husable label hlabel)

/-- The letters outside of ASCII are all other characters. -/
def permissive : Lettering where
  start := Output.TypeSyntax.isStart
  part := Output.TypeSyntax.isPart
  start_ascii _ _ := rfl
  part_ascii _ _ := rfl

/-! ### Lines -/

open Output
open TypeSyntax (skip)

/-- The type of a field follows, after a question mark if the field may be left out. -/
def typeFollows (cs : List Char) : Bool :=
  match skip cs with
  | ':' :: _ => true
  | '?' :: rest => (skip rest).head? == some ':'
  | _ => false

/-- The name that a line declares a field with, if it begins with one. -/
def declared (l : Lettering) (line : String) : Option String :=
  match skip line.toList with
  | c :: rest =>
    if l.start c && typeFollows (rest.dropWhile l.part) then some (String.ofList (c :: rest.takeWhile l.part))
    else none
  | [] => none

/-- The lines declare fields with these names, each of them once. -/
structure Declares (l : Lettering) (lines names : List String) : Prop where
  declared : lines.map l.declared = names.map some
  nodup : names.Nodup

theorem isWhitespace_of_start {c : Char} (h : l.start c) : c.isWhitespace = false := by
  rw [Bool.eq_false_iff]
  intro hblank
  have hascii : c.toNat < 0x80 := by
    simp only [Char.isWhitespace, Bool.or_eq_true, decide_eq_true_eq] at hblank
    rcases hblank with ((rfl | rfl) | rfl) | rfl <;> decide
  rw [l.start_ascii c hascii] at h
  rw [TypeSyntax.isWhitespace_of_isStart h] at hblank
  cases hblank

theorem isName_of_declared {line name : String} (h : l.declared line = some name) : l.IsName name := by
  unfold declared at h
  split at h
  · next c rest _ =>
    split at h
    · next hif =>
      cases h
      refine ⟨c, rest.takeWhile l.part, String.toList_ofList, (Bool.and_eq_true_iff.mp hif).1, fun d hd => ?_⟩
      exact List.mem_takeWhile_imp hd
    · cases h
  · cases h

variable {w : TypeWriter} {depth : Nat} {f : Field ClientType} {line : String}

/-- The line of a field declares it exactly if its name is one of the language. -/
theorem declared_eq_iff (h : w.PrintsField depth f line) : l.declared line = some f.name ↔ l.IsName f.name := by
  refine ⟨isName_of_declared, fun hname => ?_⟩
  obtain ⟨text, -, rfl⟩ := h
  obtain ⟨c, rest, hname, hc, hrest⟩ := hname
  -- Behind the name comes a mark that no name has in it.
  obtain ⟨mark, after, hmark, hstop, hfollows⟩ : ∃ mark after,
      (if f.required then "" else "?").toList ++ (": ".toList ++ (text ++ ";").toList) = mark :: after
        ∧ l.part mark = false ∧ typeFollows (mark :: after) := by
    split
    · exact ⟨':', ' ' :: (text ++ ";").toList, rfl, by rw [l.part_ascii _ (by decide)]; rfl, rfl⟩
    · exact ⟨'?', ':' :: ' ' :: (text ++ ";").toList, rfl, by rw [l.part_ascii _ (by decide)]; rfl, rfl⟩
  have hline : skip (indent (depth + 1) ++ f.name ++ (if f.required then "" else "?") ++ ": " ++ text ++ ";").toList
      = c :: (rest ++ mark :: after) := by
    have hblanks : ∀ d ∈ (indent (depth + 1)).toList, d.isWhitespace := by
      intro d hd
      rw [indent, String.toList_ofList] at hd
      rw [List.eq_of_mem_replicate hd]
      rfl
    rw [← hmark]
    simp only [String.append_assoc, String.toList_append, hname, TypeSyntax.skip_append hblanks, List.cons_append,
      TypeSyntax.skip_cons (isWhitespace_of_start hc)]
  have hnone : (mark :: after).takeWhile l.part = [] := List.takeWhile_cons_of_neg (by simp [hstop])
  have hall : (mark :: after).dropWhile l.part = mark :: after := List.dropWhile_cons_of_neg (by simp [hstop])
  unfold declared
  rw [hline]
  simp only [List.takeWhile_append_of_pos hrest, List.dropWhile_append_of_pos hrest, hnone, hall, hc, hfollows,
    Bool.and_self, if_true, List.append_nil]
  rw [← hname, String.ofList_toList]

theorem declares_names_iff {fields : List (Field ClientType)} {lines : List String}
    (h : List.Forall₂ (w.PrintsField depth) fields lines) :
    l.Declares lines (fields.map (·.name)) ↔ l.AreNames (fields.map (·.name)) := by
  have hlines : lines.map l.declared = (fields.map (·.name)).map some ↔ ∀ f ∈ fields, l.IsName f.name := by
    induction h with
    | nil => simp
    | cons hline _ ih => rw [List.map_cons, List.map_cons, List.map_cons, List.cons.injEq, ih,
        List.forall_mem_cons, declared_eq_iff hline]
  constructor
  · rintro ⟨hdeclared, hnodup⟩
    exact ⟨List.forall_mem_map.mpr (hlines.mp hdeclared), hnodup⟩
  · rintro ⟨hnames, hnodup⟩
    exact ⟨hlines.mpr (List.forall_mem_map.mp hnames), hnodup⟩

end Lettering

/-! ### Objects -/

namespace Schema

open ClientType (Inside)
open Output (TypeWriter)

variable {scope : Link.Scope}

/-- The properties whose fields are written, if a field of the name `omitted` is not. -/
def shownOf (omitted : Option String) (own : List Property) : List Property :=
  own.filter fun p => some p.field.name != omitted

theorem map_label_normalize (own : List Property) :
    (own.map (·.label)).map Naming.normalize = (own.map Property.field).map (·.name) := by
  rw [List.map_map, List.map_map]
  rfl

/-- **Fields of objects.**  Every object of the type that a schema describes has the fields of one schema that the
    conversion goes through.  Their names are names of the language, all of them different, exactly if the labels
    of the properties give names of their own.  The same is needed for the lines of the object, however it is
    written, to declare each of these fields once. -/
theorem declares_iff (l : Lettering) {schema : Value} {log : List String} {type : ClientType}
    {fields : List (Field ClientType)} (h : convert scope schema = ⟨log, .ok type⟩)
    (hinside : Inside (.object fields) type) :
    ∃ own, DescribedIn schema fields own
      ∧ (l.AreNames (fields.map (·.name)) ↔ l.Separates (own.map (·.label)))
      ∧ ∀ (w : TypeWriter) depth omitted lines, (w.writeFields depth omitted fields).result = .ok lines →
        (l.Declares lines ((shownOf omitted own).map (·.field.name))
          ↔ l.Separates ((shownOf omitted own).map (·.label))) := by
  obtain ⟨own, hown⟩ := (convert_eq_ok_iff.mp h).exists_describedIn hinside
  obtain ⟨-, -, -, -, rfl⟩ := id hown
  refine ⟨own, hown, ?_, fun w depth omitted lines hlines => ?_⟩
  · rw [← Lettering.areNames_normalize_iff, map_label_normalize]
  · have hprints := TypeWriter.forall₂_of_writeFields (Logged.eq_mk_of_result hlines)
    have hshown : TypeWriter.shownFields omitted (some (own.map Property.field))
        = (shownOf omitted own).map Property.field := by
      rw [TypeWriter.shownFields, Option.getD_some, List.filter_map]
      rfl
    rw [hshown] at hprints
    rw [← Lettering.areNames_normalize_iff, map_label_normalize, ← Lettering.declares_names_iff hprints,
      List.map_map]
    rfl

/-! ### Two texts -/

/-- A schema of an object with two texts. -/
def textPair (first second : String) : Value :=
  .map [(.text "type", .text "object"), (.text "properties", .map [
    (.text first, .map [(.text "type", .text "string")]), (.text second, .map [(.text "type", .text "string")])])]

/-- The fields of an object with two texts. -/
def textPairFields (first second : String) : List (Field ClientType) :=
  [⟨Naming.normalize first, .string, false⟩, ⟨Naming.normalize second, .string, false⟩]

/-- The properties of an object with two texts. -/
def textPairProperties (first second : String) : List Property :=
  [⟨⟨.map [(.text "type", .text "string")], [], .string⟩, first, false⟩,
    ⟨⟨.map [(.text "type", .text "string")], [], .string⟩, second, false⟩]

theorem convert_textPair (first second : String) :
    convert ⟨"", ""⟩ (textPair first second) = ⟨[], .ok (.object (textPairFields first second))⟩ := by
  have hstring : ∀ p ∈ textPairProperties first second, Converts ⟨"", ""⟩ p.schema p.log p.type := by
    rw [textPairProperties, List.forall_mem_cons, List.forall_mem_singleton]
    exact ⟨.string ⟨rfl, rfl⟩ rfl, .string ⟨rfl, rfl⟩ rfl⟩
  refine convert_eq_ok_iff.mpr (.object ⟨rfl, rfl⟩ ⟨_, rfl, rfl, ?_⟩ hstring rfl rfl)
  rw [textPairProperties, List.forall_mem_cons, List.forall_mem_singleton]
  exact ⟨rfl, rfl⟩

/-- A writer that needs to know no declarations. -/
def plainWriter : TypeWriter where
  registry := []
  namedEnums := false
  qualifier := none

/-- Labels that have more than their punctuation to tell them apart. -/
theorem userId_declares :
    convert ⟨"", ""⟩ (textPair "user_id" "id") = ⟨[], .ok (.object (textPairFields "user_id" "id"))⟩
      ∧ Inside (.object (textPairFields "user_id" "id")) (.object (textPairFields "user_id" "id"))
      ∧ ∃ own, DescribedIn (textPair "user_id" "id") (textPairFields "user_id" "id") own
        ∧ Lettering.permissive.Separates (own.map (·.label)) := by
  have hconvert := convert_textPair "user_id" "id"
  obtain ⟨own, hown, hnames, -⟩ := declares_iff Lettering.permissive hconvert .here
  refine ⟨hconvert, .here, own, hown, hnames.mp ⟨?_, by decide⟩⟩
  have hlist : (textPairFields "user_id" "id").map (·.name) = ["userid", "id"] := by decide
  rw [hlist, List.forall_mem_cons, List.forall_mem_singleton]
  exact ⟨⟨'u', ['s', 'e', 'r', 'i', 'd'], rfl, rfl, List.all_eq_true.mp rfl⟩,
    ⟨'i', ['d'], rfl, rfl, List.all_eq_true.mp rfl⟩⟩

/-- Labels that differ in their punctuation alone give one name: both lines declare the same field. -/
theorem id_clash :
    convert ⟨"", ""⟩ (textPair "_id" "id") = ⟨[], .ok (.object [⟨"id", .string, false⟩, ⟨"id", .string, false⟩])⟩
      ∧ plainWriter.writeFields 0 none [⟨"id", .string, false⟩, ⟨"id", .string, false⟩]
        = ⟨[], .ok ["  id?: string;", "  id?: string;"]⟩
      ∧ ¬ (([⟨"id", .string, false⟩, ⟨"id", .string, false⟩] : List (Field ClientType)).map (·.name)).Nodup :=
  ⟨convert_textPair "_id" "id", by cbv, by decide⟩

end Schema

end TypedClient
