import Mathlib
import TypedClient.Output.Client
import TypedClient.Proofs.Relinking
import TypedClient.Proofs.TextOrder

namespace TypedClient.Output

/-!
# Text and keys

The written client holds names, not keys.  So it stays the same if all keys are replaced by others, as long
as different declarations keep different keys.

* `TypeWriter.Renames` — two writers know the same names under different keys.
* `TypeWriter.Renames.keeps` — they write the same text.
* `Renamed` — two descriptions are the same but for the keys and the order of the declarations.
* `generate_renamed` — they have the same client.
-/

namespace TypeWriter

open ClientType (rename)

/-- The second writer knows under its new key every name that the first one knows, and none of them has
    names for enums. -/
structure Renames (key : String → String) (w w' : TypeWriter) : Prop where
  enums : w.namedEnums = false
  enums' : w'.namedEnums = false
  qualifier_eq : w'.qualifier = w.qualifier
  found : ∀ target d, w.registry.get? target = some d →
    ∃ d', w'.registry.get? (key target) = some d' ∧ d'.name = d.name
  /-- Declared keys stay different. -/
  injective : ∀ target other, (w.registry.get? target).isSome → (w.registry.get? other).isSome →
    key target = key other → target = other

variable {w w' : TypeWriter} {key : String → String} {depth : Nat}

/-! ### Names -/

theorem Renames.qualified_eq (h : Renames key w w') (name : String) :
    w'.qualified name = w.qualified name := by
  rw [qualified, qualified, h.qualifier_eq]

theorem declaration_eq_ok {target : String} {d : Declaration} :
    w.declaration target = .ok d ↔ w.registry.get? target = some d := by
  unfold declaration
  cases w.registry.get? target <;> simp

theorem Renames.enumName?_eq (h : Renames key w w') (name : Option String) :
    w.enumName? name = none ∧ w'.enumName? name = none := by
  simp [enumName?, h.enums, h.enums']

theorem Renames.isCompound_eq (h : Renames key w w') (type : ClientType) :
    w'.isCompound (type.rename key) = w.isCompound type := by
  cases type with
  | enum values name => simp [isCompound, h.enumName?_eq name]
  | union => rw [ClientType.rename_union, isCompound, isCompound]
  | _ => rfl

theorem Renames.parenthesized_eq (h : Renames key w w') (type : ClientType) (text : String) :
    w'.parenthesized (type.rename key) text = w.parenthesized type text := by
  rw [parenthesized, parenthesized, h.isCompound_eq]

/-- A writer without names for enums writes the values of a discriminator as they are. -/
theorem tagText_eq (h : w.namedEnums = false) (tagType : Option String) (value : String) :
    w.tagText tagType value = pure (literal value) := by
  unfold tagText
  cases tagType with
  | none => rfl
  | some key => rw [h]; rfl

/-! ### Members of unions -/

theorem memberKeys_rename (members : List ClientType) :
    memberKeys (members.map (rename key)) = (memberKeys members).map key := by
  induction members with
  | nil => rfl
  | cons member rest ih =>
    simp only [memberKeys] at ih ⊢
    cases member with
    | ref target => simp [ih]
    | _ => simp [ih]

/-- The values of a discriminator are those of its members. -/
theorem keys_tagValues {keys : List String} {mapping values : Table String String}
    (h : tagValues keys mapping = .ok values) : ∀ k ∈ values.keys, k ∈ keys := by
  induction mapping generalizing values with
  | nil =>
    cases h
    nofun
  | cons entry rest ih =>
    obtain ⟨value, k⟩ := entry
    rw [tagValues] at h
    split at h
    · next hmem =>
      obtain ⟨later, hlater, h⟩ := Except.bind_eq_ok.mp h
      cases h
      intro k' hk'
      rcases List.mem_cons.mp hk' with rfl | hk'
      · exact List.contains_iff_mem.mp hmem
      · exact ih hlater k' hk'
    · cases h

/-- New keys for members and mapping give new keys for the values. -/
theorem tagValues_rename {keys : List String} {mapping values : Table String String}
    (h : tagValues keys mapping = .ok values) :
    tagValues (keys.map key) (mapping.map fun (v, k) => (v, key k))
      = .ok (values.map fun (k, v) => (key k, v)) := by
  induction mapping generalizing values with
  | nil =>
    cases h
    rfl
  | cons entry rest ih =>
    obtain ⟨value, k⟩ := entry
    rw [tagValues] at h
    split at h
    · next hmem =>
      obtain ⟨later, hlater, h⟩ := Except.bind_eq_ok.mp h
      cases h
      have hmem' : (keys.map key).contains (key k) = true :=
        List.contains_iff_mem.mpr (List.mem_map_of_mem (List.contains_iff_mem.mp hmem))
      rw [List.map_cons, tagValues, if_pos hmem', ih hlater]
      rfl
    · cases h

/-- Renamed keys of declarations are found like the old ones. -/
theorem Renames.get?_values (h : Renames key w w') {values : Table String String} {target : String}
    (htarget : (w.registry.get? target).isSome)
    (hvalues : ∀ k ∈ values.keys, (w.registry.get? k).isSome) :
    Table.get? (values.map fun (k, v) => (key k, v)) (key target) = values.get? target := by
  induction values with
  | nil => rfl
  | cons entry rest ih =>
    obtain ⟨k, v⟩ := entry
    rw [Table.keys_cons, List.forall_mem_cons] at hvalues
    rw [List.map_cons, Table.get?_cons, Table.get?_cons, ih hvalues.2]
    by_cases hk : target = k
    · rw [hk, if_pos (beq_self_eq_true _), if_pos (beq_self_eq_true _)]
    · -- Both keys are declared, and declared keys stay apart.
      have hne : key target ≠ key k := fun heq => hk (h.injective _ _ htarget hvalues.1 heq)
      rw [if_neg (by simpa using hne), if_neg (by simpa using hk)]

/-! ### Types -/

/-- A type keeps its text under new keys, at every depth. -/
def Keeps (key : String → String) (w w' : TypeWriter) (type : ClientType) : Prop :=
  ∀ depth, (w.write depth type).Refines (w'.write depth (type.rename key))

theorem Renames.writeOperands (h : Renames key w w') {types : List ClientType}
    (hkeeps : ∀ type ∈ types, Keeps key w w' type) :
    (w.writeOperands depth types).Refines (w'.writeOperands depth (types.map (rename key))) := by
  induction types with
  | nil => exact .refl _
  | cons type rest ih =>
    rw [List.forall_mem_cons] at hkeeps
    rw [List.map_cons, TypeWriter.writeOperands, TypeWriter.writeOperands]
    refine (hkeeps.1 depth).bind fun _ text _ => ?_
    rw [h.parenthesized_eq]
    exact (ih hkeeps.2).bind_const _

theorem writeFields_rename {omitted : Option String} {fields : List (Field ClientType)}
    (hkeeps : ∀ f ∈ fields, Keeps key w w' f.type) :
    (w.writeFields depth omitted fields).Refines
      (w'.writeFields depth omitted (fields.map (Field.rename key))) := by
  induction fields with
  | nil => exact .refl _
  | cons f rest ih =>
    obtain ⟨name, type, required⟩ := f
    rw [List.forall_mem_cons] at hkeeps
    rw [List.map_cons, Field.rename, TypeWriter.writeFields, TypeWriter.writeFields]
    split
    · exact ih hkeeps.2
    · exact (hkeeps.1 _).bind fun _ text _ => (ih hkeeps.2).bind_const _

/-- The value that the discriminator has for a member. -/
def valueOf (values : Table String String) : ClientType → Option String
  | .ref target => values.get? target
  | _ => none

/-- The text of a variant, given the text of the member. -/
def writeVariant (w : TypeWriter) (tag value tagType : Option String) (member : ClientType)
    (text : String) : Logged String :=
  match tag, value with
  | some field, some value => do
    let tagged := braced (" " ++ field ++ ": " ++ (← w.tagText tagType value) ++ " ")
    return "Omit<" ++ text ++ ", '" ++ field ++ "'> & " ++ tagged
  | _, _ => return w.parenthesized member text

theorem writeVariants_cons (tag tagType : Option String) (values : Table String String)
    (member : ClientType) (rest : List ClientType) :
    w.writeVariants depth tag values tagType (member :: rest) = (do
      let text ← w.write depth member
      let variant ← w.writeVariant tag (valueOf values member) tagType member text
      return variant :: (← w.writeVariants depth tag values tagType rest)) := by
  cases member with
  | ref target =>
    rw [TypeWriter.writeVariants, valueOf]
    cases tag with
    | none => rfl
    | some field =>
      cases values.get? target with
      | none => rfl
      | some value => simp only [writeVariant, bind_assoc, pure_bind]
  | _ =>
    -- Only references have values, so the rule for them does not apply.
    rw [TypeWriter.writeVariants]
    · cases tag <;> rfl
    · intro target h
      cases h

/-- Writing a union looks up the declarations of all members that are references. -/
theorem found_of_writeVariants {tag tagType : Option String} {values : Table String String}
    {members : List ClientType} {log : List String} {variants : List String}
    (h : w.writeVariants depth tag values tagType members = ⟨log, .ok variants⟩) :
    ∀ k ∈ memberKeys members, (w.registry.get? k).isSome := by
  induction members generalizing log variants with
  | nil => nofun
  | cons member rest ih =>
    rw [writeVariants_cons] at h
    obtain ⟨_, text, _, htext, hvariant, -⟩ := Logged.bind_eq_ok.mp h
    obtain ⟨_, variant, _, -, hrest, -⟩ := Logged.bind_eq_ok.mp hvariant
    obtain ⟨_, others, _, hothers, -, -⟩ := Logged.bind_eq_ok.mp hrest
    intro k hk
    cases member with
    | ref target =>
      rcases List.mem_cons.mp hk with rfl | hk
      · rw [TypeWriter.write] at htext
        obtain ⟨_, d, _, hd, -, -⟩ := Logged.bind_eq_ok.mp htext
        rw [declaration_eq_ok.mp (Logged.lift_eq_ok.mp hd).2]
        rfl
      · exact ih hothers k hk
    | _ => exact ih hothers k hk

theorem Renames.writeVariant_eq (h : Renames key w w') (tag value tagType : Option String)
    (member : ClientType) (text : String) :
    w'.writeVariant tag value (tagType.map key) (member.rename key) text
      = w.writeVariant tag value tagType member text := by
  unfold writeVariant
  cases tag <;> cases value <;>
    simp only [tagText_eq h.enums, tagText_eq h.enums', h.parenthesized_eq]

theorem Renames.writeVariants (h : Renames key w w') {tag tagType : Option String}
    {values : Table String String} {members : List ClientType}
    (hvalues : ∀ k ∈ values.keys, (w.registry.get? k).isSome)
    (hmembers : ∀ k ∈ memberKeys members, (w.registry.get? k).isSome)
    (hkeeps : ∀ member ∈ members, Keeps key w w' member) :
    (w.writeVariants depth tag values tagType members).Refines
      (w'.writeVariants depth tag (values.map fun (k, v) => (key k, v)) (tagType.map key)
        (members.map (rename key))) := by
  induction members with
  | nil => exact .refl _
  | cons member rest ih =>
    rw [List.forall_mem_cons] at hkeeps
    have hrest : ∀ k ∈ memberKeys rest, (w.registry.get? k).isSome := by
      intro k hk
      refine hmembers k ?_
      cases member with
      | ref target => exact List.mem_cons_of_mem _ hk
      | _ => exact hk
    -- Only references have values, and those are found under their new keys.
    have hvalue : valueOf (values.map fun (k, v) => (key k, v)) (member.rename key)
        = valueOf values member := by
      cases member with
      | ref target => exact h.get?_values (hmembers target List.mem_cons_self) hvalues
      | union =>
        rw [ClientType.rename_union]
        rfl
      | _ => rfl
    rw [List.map_cons, writeVariants_cons, writeVariants_cons, hvalue]
    refine (hkeeps.1 depth).bind fun _ text _ => ?_
    rw [h.writeVariant_eq]
    exact (Logged.Refines.refl _).bind fun _ variant _ => (ih hrest hkeeps.2).bind_const _

/-- Which fields are shown is a matter of their names. -/
theorem isEmpty_shownFields_rename (tag : Option String) (fields : List (Field ClientType)) :
    (shownFields tag (some (fields.map (Field.rename key)))).isEmpty
      = (shownFields tag (some fields)).isEmpty := by
  have hfilter : shownFields tag (some (fields.map (Field.rename key)))
      = (shownFields tag (some fields)).map (Field.rename key) := List.filter_map
  rw [hfilter, List.isEmpty_map]

theorem Renames.keeps_union (h : Renames key w w') {members : List ClientType} {tag : Option String}
    {mapping : Table String String} {shared : Option (List (Field ClientType))}
    {tagType : Option String} (hmembers : ∀ member ∈ members, Keeps key w w' member)
    (hshared : ∀ fields, shared = some fields → ∀ f ∈ fields, Keeps key w w' f.type) :
    Keeps key w w' (.union members tag mapping shared tagType) := by
  intro depth log text hw
  -- What the members are written for decides that the keys of the mapping are declared.
  have hvariants : ∀ {values : Table String String} {log : List String} {variants : List String},
      tagValues (memberKeys members) mapping = .ok values →
      w.writeVariants depth tag values tagType members = ⟨log, .ok variants⟩ →
      (w.writeVariants depth tag values tagType members).Refines
        (w'.writeVariants depth tag (values.map fun (k, v) => (key k, v)) (tagType.map key)
          (members.map (rename key))) := by
    intro values log variants hvalues hwritten
    have hfound := found_of_writeVariants hwritten
    exact h.writeVariants (fun k hk => hfound k (keys_tagValues hvalues k hk)) hfound hmembers
  rw [ClientType.rename_union]
  cases shared with
  | none =>
    rw [write] at hw
    obtain ⟨_, values, _, hlift, hrest, rfl⟩ := Logged.bind_eq_ok.mp hw
    obtain ⟨rfl, hvalues⟩ := Logged.lift_eq_ok.mp hlift
    obtain ⟨_, variants, _, hwritten, -, -⟩ := Logged.bind_eq_ok.mp hrest
    rw [Option.map_none, write, memberKeys_rename, tagValues_rename hvalues, Logged.lift_ok_bind,
      List.nil_append]
    exact (hvariants hvalues hwritten).bind_const _ _ _ hrest
  | some fields =>
    rw [write] at hw
    obtain ⟨_, values, _, hlift, hrest, rfl⟩ := Logged.bind_eq_ok.mp hw
    obtain ⟨rfl, hvalues⟩ := Logged.lift_eq_ok.mp hlift
    obtain ⟨_, variants, _, hwritten, -, -⟩ := Logged.bind_eq_ok.mp hrest
    rw [Option.map_some, write, memberKeys_rename, tagValues_rename hvalues, Logged.lift_ok_bind,
      List.nil_append]
    refine (hvariants hvalues hwritten).bind (fun _ variants _ => ?_) _ _ hrest
    simp only [isEmpty_shownFields_rename]
    split
    · exact .refl _
    · exact (writeFields_rename (hshared fields rfl)).bind_const _

/-- **Types keep their text.**  A type is written in the same way under new keys. -/
theorem Renames.keeps (h : Renames key w w') (type : ClientType) : Keeps key w w' type := by
  -- The fields of an object are kept apart as well, for a union that leaves one of them out.
  suffices hboth : Keeps key w w' type
      ∧ ∀ fields, type = .object fields → ∀ f ∈ fields, Keeps key w w' f.type from hboth.1
  induction type with
  | string | number | boolean | void | freeFormMap =>
    refine ⟨fun depth => ?_, nofun⟩
    rw [write]
    exact .refl _
  | enum values name =>
    refine ⟨fun depth => ?_, nofun⟩
    rw [ClientType.rename_enum, write, write, (h.enumName?_eq name).1, (h.enumName?_eq name).2]
    exact .refl _
  | array element ih =>
    refine ⟨fun depth => ?_, nofun⟩
    rw [ClientType.rename_array, write, write]
    refine (ih.1 depth).bind fun _ text _ => ?_
    rw [h.parenthesized_eq]
    exact .refl _
  | map element ih =>
    refine ⟨fun depth => ?_, nofun⟩
    rw [ClientType.rename_map, write, write]
    exact (ih.1 depth).bind_const _
  | object fields ih =>
    refine ⟨fun depth => ?_, ?_⟩
    · rw [ClientType.rename_object]
      cases fields with
      | nil => exact .refl _
      | cons f rest =>
        rw [List.map_cons, write, write, ← List.map_cons]
        · exact (writeFields_rename fun f hf => (ih f hf).1).bind_const _
        · nofun
        · nofun
    · rintro _ ⟨⟩ f hf
      exact (ih f hf).1
  | composition parts ih =>
    refine ⟨fun depth => ?_, nofun⟩
    rw [ClientType.rename_composition, write, write]
    exact (h.writeOperands fun part hp => (ih part hp).1).bind_const _
  | ref target =>
    refine ⟨fun depth log text hw => ?_, nofun⟩
    rw [write] at hw
    obtain ⟨_, d, _, hlift, hrest, rfl⟩ := Logged.bind_eq_ok.mp hw
    obtain ⟨rfl, hd⟩ := Logged.lift_eq_ok.mp hlift
    obtain ⟨d', hd', hname⟩ := h.found target d (declaration_eq_ok.mp hd)
    rw [ClientType.rename_ref, write, declaration_eq_ok.mpr hd', Logged.lift_ok_bind, hname,
      h.qualified_eq, List.nil_append]
    exact hrest
  | union members tag mapping shared tagType ihm ihs =>
    exact ⟨h.keeps_union (fun member hm => (ihm member hm).1)
      fun fields hs => (ihs fields hs).2 fields rfl, nofun⟩

/-! ### Declarations and methods -/

theorem Renames.writeDeclaration (h : Renames key w w') (d : Declaration) :
    (w.writeDeclaration d).Refines (w'.writeDeclaration (d.rename key)) := by
  unfold TypeWriter.writeDeclaration
  rw [h.enums, h.enums']
  exact (h.keeps d.type 0).bind_const _

/-- The pieces of a method that depend on names alone do not depend on keys. -/
theorem callOf_rename (o : Operation) : Call.of (o.rename key) = Call.of o := by
  have hnames : ∀ location, (o.rename key).namesIn location = o.namesIn location := by
    intro location
    simp only [Operation.namesIn, Operation.rename, List.filter_map, List.map_map]
    rfl
  have hbody : (o.rename key).bodyTypes.isEmpty = o.bodyTypes.isEmpty := List.isEmpty_map
  simp only [Call.of, hnames, hbody]
  rfl

theorem Renames.writeArgument (h : Renames key w w') (o : Operation) :
    (w.writeArgument o).Refines (w'.writeArgument (o.rename key)) := by
  have hfields : ((o.rename key).parameters.map fun p => (⟨p.name, p.type, p.required⟩ : Field ClientType))
      = (o.parameters.map fun p => ⟨p.name, p.type, p.required⟩).map (Field.rename key) := by
    simp only [Operation.rename, List.map_map]
    rfl
  unfold TypeWriter.writeArgument
  simp only [hfields, List.isEmpty_map]
  have hbody : (w.writeOperands 1 o.bodyTypes).Refines (w'.writeOperands 1 (o.rename key).bodyTypes) :=
    h.writeOperands fun type _ => h.keeps type
  split
  · exact (Logged.Refines.refl _).bind fun _ own _ => hbody.bind_const _
  · have hobject := h.keeps (.object (o.parameters.map fun p => ⟨p.name, p.type, p.required⟩)) 1
    rw [ClientType.rename_object] at hobject
    exact hobject.bind fun _ text _ => (Logged.Refines.refl _).bind fun _ own _ => hbody.bind_const _

theorem Renames.writeMethod (h : Renames key w w') (o : Operation) :
    (w.writeMethod o).Refines (w'.writeMethod (o.rename key)) := by
  unfold TypeWriter.writeMethod
  rw [callOf_rename]
  refine (h.writeArgument o).bind fun _ types _ => ?_
  refine (Logged.Refines.refl _).bind fun _ arguments _ => ?_
  exact (h.keeps o.result 1).bind_const _

end TypeWriter

/-! ### Files -/

/-- The second description is the first one but for the keys and the order of the declarations.  No two
    declarations have one name. -/
structure Renamed (key : String → String) (d d' : Description) : Prop where
  declarations : (Table.values d'.registry).Perm ((Table.values d.registry).map (.rename key))
  operations_eq : d'.operations = d.operations.map (.rename key)
  names : ((Table.values d.registry).map (·.name)).Nodup
  found : ∀ target x, d.registry.get? target = some x →
    d'.registry.get? (key target) = some (x.rename key)

variable {key : String → String} {d d' : Description} {options : Options}

/-- Two declarations with one name stand under one key. -/
theorem Renamed.eq_of_name_eq (h : Renamed key d d') {target other : String} {x y : Declaration}
    (hx : d.registry.get? target = some x) (hy : d.registry.get? other = some y)
    (hname : x.name = y.name) : target = other := by
  have hnames : (d.registry.map fun entry => entry.2.name).Nodup := by
    have hnd := h.names
    rwa [Table.values, List.map_map] at hnd
  have heq := List.inj_on_of_nodup_map hnames (Table.mem_of_get?_eq_some hx)
    (Table.mem_of_get?_eq_some hy) hname
  exact congrArg Prod.fst heq

theorem Renamed.renames (h : Renamed key d d') (hoptions : options.namedEnums = false)
    (qualifier : Option String) :
    TypeWriter.Renames key ⟨d.registry, options.namedEnums, qualifier⟩
      ⟨d'.registry, options.namedEnums, qualifier⟩ where
  enums := hoptions
  enums' := hoptions
  qualifier_eq := rfl
  found target x hx := ⟨x.rename key, h.found target x hx, rfl⟩
  injective target other htarget hother heq := by
    obtain ⟨x, hx⟩ := Option.isSome_iff_exists.mp htarget
    obtain ⟨y, hy⟩ := Option.isSome_iff_exists.mp hother
    have hxy : some (x.rename key) = some (y.rename key) := by
      rw [← h.found target x hx, ← h.found other y hy, heq]
    have hname : (x.rename key).name = (y.rename key).name :=
      congrArg Declaration.name (Option.some.inj hxy)
    exact h.eq_of_name_eq hx hy hname

/-- Sorted by their names, the declarations come in the same order. -/
theorem Renamed.sortedDeclarations_eq (h : Renamed key d d') :
    sortedDeclarations d'.registry = (sortedDeclarations d.registry).map (.rename key) := by
  have hsorted : (sortedDeclarations d.registry).map (Declaration.rename key)
      = ((Table.values d.registry).map (.rename key)).mergeSort
        fun a b => Text.isOrdered a.name b.name :=
    List.map_mergeSort fun _ _ _ _ => rfl
  have hnames : (((Table.values d.registry).map (Declaration.rename key)).map (·.name)).Nodup := by
    rw [List.map_map]
    exact h.names
  rw [hsorted, sortedDeclarations]
  refine Text.mergeSort_eq_of_perm h.declarations fun x hx y hy hname => ?_
  exact List.inj_on_of_nodup_map hnames (h.declarations.mem_iff.mp hx) (h.declarations.mem_iff.mp hy)
    hname

theorem typesFile_renamed (h : Renamed key d d') (hoptions : options.namedEnums = false)
    {file : CodeFile} (hfile : typesFile options d = .ok file) : typesFile options d' = .ok file := by
  unfold typesFile at hfile ⊢
  obtain ⟨texts, htexts, hfile⟩ := Except.bind_eq_ok.mp hfile
  have hw := h.renames hoptions none
  have hwritten := Logged.Refines.mapM (fun x _ => hw.writeDeclaration x) _ _
    (Logged.eq_mk_of_result htexts)
  simp only [h.sortedDeclarations_eq, hwritten, Except.ok_bind]
  -- Without names for enums nothing follows the declarations.
  simp only [hoptions, Bool.false_eq_true, if_false] at hfile ⊢
  exact hfile

theorem writeGroup_renamed (h : Renamed key d d') (hoptions : options.namedEnums = false) (g : Group) :
    (writeGroup ⟨d.registry, options.namedEnums, options.space⟩ d.operations g).Refines
      (writeGroup ⟨d'.registry, options.namedEnums, options.space⟩ d'.operations g) := by
  have hw := h.renames hoptions options.space
  have hfilter : (d.operations.map (Operation.rename key)).filter (fun o => o.method == g.method)
      = (d.operations.filter fun o => o.method == g.method).map (.rename key) := List.filter_map
  unfold writeGroup
  rw [h.operations_eq, hfilter]
  exact (Logged.Refines.mapM fun o _ => hw.writeMethod o).bind_const _

theorem methodsFile_renamed (h : Renamed key d d') (hoptions : options.namedEnums = false)
    {file : CodeFile} (hfile : methodsFile options d = .ok file) :
    methodsFile options d' = .ok file := by
  have hall : (d'.operations.all fun o => groups.any fun g => g.method == o.method)
      = d.operations.all fun o => groups.any fun g => g.method == o.method := by
    rw [h.operations_eq, List.all_map]
    rfl
  unfold methodsFile at hfile ⊢
  rw [hall]
  split at hfile
  · cases hfile
  · next hmethods =>
    rw [if_neg hmethods]
    obtain ⟨texts, htexts, hfile⟩ := Except.bind_eq_ok.mp hfile
    have hwritten := Logged.Refines.mapM (k := id) (fun g _ => writeGroup_renamed h hoptions g) _ _
      (Logged.eq_mk_of_result htexts)
    rw [List.map_id] at hwritten
    simp only [hwritten]
    exact hfile

/-- **The client does not depend on keys.** -/
theorem generate_renamed (h : Renamed key d d') (hoptions : options.namedEnums = false)
    {project : Project} (hproject : generate options d = .ok project) :
    generate options d' = .ok project := by
  obtain ⟨types, htypes, hrest⟩ := Except.bind_eq_ok.mp hproject
  obtain ⟨methods, hmethods, hproject⟩ := Except.bind_eq_ok.mp hrest
  rw [generate, typesFile_renamed h hoptions htypes, Except.ok_bind,
    methodsFile_renamed h hoptions hmethods, Except.ok_bind]
  exact hproject

end TypedClient.Output
