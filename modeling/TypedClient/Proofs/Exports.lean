import TypedClient.Proofs.Clients
import TypedClient.Proofs.NamedEnums

namespace TypedClient

open ClientType (Inside)

/-!
# The generated files are closed

The file of the types exports names; its types and the methods of the other file refer to names.  The two
files are written by two writers, and names get there on three ways: as declarations, as new enums, and as the
enums of discriminators.  This file shows that what is referred to is always exported.

* `TypeWriter.Refers` — where the references of a type come from.
* `Client.Closed` — exported names are different, and what is referred to is exported.
* `Description.Exporting` — what makes sure of this; reading a document does.
* `generate_closed` — the files that are generated are closed, and the names that the methods use are imported.
-/

namespace Output

/-! ### Where references come from -/

namespace TypeWriter

variable {w : TypeWriter} {type : ClientType}

/-- A reference comes from a node that refers to a declaration, from an enum that was given a name, or from
    the enum that types a discriminator. -/
inductive Refers (w : TypeWriter) (type : ClientType) : Reference → Prop
  | declared {key d} : Inside (.ref key) type → w.registry.get? key = some d → Refers w type (.type d.name)
  | assigned {values assigned name} :
      Inside (.enum values assigned) type → w.enumName? assigned = some name → Refers w type (.type name)
  | member {key d values assigned name value} :
      w.namedEnums = true → w.registry.get? key = some d → d.type = .enum values assigned →
      (Naming.members values).get? value = some name → Refers w type (.member d.name name value)

/-- What is inside of a piece is inside of the whole. -/
theorem Refers.mono {inner outer : ClientType} {r : Reference} (h : w.Refers inner r)
    (hinside : ∀ node, Inside node inner → Inside node outer) : w.Refers outer r := by
  cases h with
  | declared hin hd => exact .declared (hinside _ hin) hd
  | assigned hin hname => exact .assigned (hinside _ hin) hname
  | member hnamed hd htype hmember => exact .member hnamed hd htype hmember

theorem refers_of_describeTag {tagType : Option String} {value : String} {tag : Tag}
    (h : w.describeTag tagType value = .ok tag) : ∀ r ∈ tag.references, w.Refers type r := by
  obtain rfl | ⟨key, d, values, assigned, name, -, hnamed, hd, htype, hmember, rfl⟩ := exists_of_describeTag h
  · nofun
  · intro r hr
    cases List.mem_singleton.mp hr
    exact .member hnamed hd htype hmember

/-- The references of fields are those of the fields that they are shown for. -/
theorem refers_of_describeFields {omitted : Option String} {fields : List (Field ClientType)}
    {shown : List (Field TypeExpr)} (h : w.describeFields omitted fields = .ok shown)
    (hfields : ∀ f ∈ fields, ∀ e, w.describe f.type = .ok e → ∀ r ∈ e.references, w.Refers f.type r) :
    ∀ r ∈ TypeExpr.referencesOfFields shown, ∃ f ∈ fields, w.Refers f.type r := by
  intro r hr
  rw [TypeExpr.referencesOfFields_eq_flatMap] at hr
  obtain ⟨s, hs, hr⟩ := List.mem_flatMap.mp hr
  obtain ⟨f, hf, -, -, he⟩ := exists_of_forall₂ (forall₂_of_describeFields h) hs
  have hmem : f ∈ fields := List.mem_of_mem_filter hf
  exact ⟨f, hmem, hfields f hmem _ he r hr⟩

theorem refers_of_describeVariants {tag tagType : Option String} {values : Table String String}
    {members : List ClientType} {variants : List (Variant TypeExpr)}
    (h : w.describeVariants tag values tagType members = .ok variants)
    (hmembers : ∀ member ∈ members, ∀ e, w.describe member = .ok e → ∀ r ∈ e.references, w.Refers member r) :
    ∀ r ∈ TypeExpr.referencesOfVariants variants, ∃ member ∈ members, w.Refers member r := by
  intro r hr
  rw [TypeExpr.referencesOfVariants_eq_flatMap] at hr
  obtain ⟨v, hv, hr⟩ := List.mem_flatMap.mp hr
  obtain ⟨member, hmem, he, hvariant⟩ := exists_of_forall₂ (forall₂_of_describeVariants h) hv
  refine ⟨member, hmem, ?_⟩
  rcases List.mem_append.mp hr with hr | hr
  · exact hmembers member hmem _ he r hr
  · -- Only a tag adds references to those of the member.
    obtain ⟨-, hnone | ⟨field, x, t, -, -, ht, hmark⟩⟩ := exists_of_describeVariant hvariant
    · rw [hnone] at hr
      cases hr
    · rw [hmark] at hr
      exact refers_of_describeTag ht r hr

/-- **Where references come from.** -/
theorem refers_of_describe {e : TypeExpr} (h : w.describe type = .ok e) :
    ∀ r ∈ e.references, w.Refers type r := by
  replace h := hasForm_of_describe h
  induction h with
  | string | number | boolean | void | freeFormMap => nofun
  | assigned hname =>
    intro r hr
    cases List.mem_singleton.mp hr
    exact .assigned .here hname
  | literals => exact List.forall_mem_nil _
  | ref hd =>
    intro r hr
    cases List.mem_singleton.mp hr
    exact .declared .here hd
  | array _ ih =>
    intro r hr
    exact (ih r hr).mono fun _ => .element
  | map _ ih =>
    intro r hr
    exact (ih r hr).mono fun _ => .value
  | object hshown _ ih =>
    intro r hr
    obtain ⟨f, hf, hrefers⟩ := refers_of_describeFields hshown ih r hr
    exact hrefers.mono fun _ => .field hf
  | composition hparts _ ih =>
    intro r hr
    rw [TypeExpr.references, TypeExpr.referencesOfParts_eq_flatMap] at hr
    obtain ⟨part, hpart, hr⟩ := List.mem_flatMap.mp hr
    obtain ⟨type, htype, he⟩ := exists_of_forall₂ (describeParts_eq_ok.mp hparts) hpart
    exact (ih type htype part he r hr).mono fun _ => .part htype
  | union _ hvariants _ ih =>
    intro r hr
    obtain ⟨member, hm, hrefers⟩ := refers_of_describeVariants hvariants ih r hr
    exact hrefers.mono fun _ => .member hm
  | shared _ hvariants _ hshown _ ihm ihs =>
    intro r hr
    simp only [TypeExpr.references, TypeExpr.referencesOfParts, List.append_nil, List.mem_append] at hr
    rcases hr with hr | hr
    · obtain ⟨f, hf, hrefers⟩ := refers_of_describeFields hshown ihs r hr
      exact hrefers.mono fun _ hnode => .shared (.field hf hnode)
    · obtain ⟨member, hm, hrefers⟩ := refers_of_describeVariants hvariants ihm r hr
      exact hrefers.mono fun _ => .member hm

theorem refers_of_describeArgument {o : Operation} {e : TypeExpr} (h : w.describeArgument o = .ok e) :
    ∀ r ∈ e.references, ∃ type ∈ o.types, w.Refers type r := by
  obtain ⟨own, hown, hrest⟩ := Except.bind_eq_ok.mp h
  obtain ⟨bodies, hbodies, hpure⟩ := Except.bind_eq_ok.mp hrest
  cases hpure
  intro r hr
  rw [TypeExpr.references, TypeExpr.referencesOfParts_eq_flatMap, List.flatMap_append, List.mem_append] at hr
  rcases hr with hr | hr
  · have hmem : r ∈ TypeExpr.referencesOfFields own := by
      split at hr
      · cases hr
      · simpa [TypeExpr.references] using hr
    obtain ⟨f, hf, hrefers⟩ := refers_of_describeFields hown (fun f _ _ => refers_of_describe) r hmem
    obtain ⟨p, hp, rfl⟩ := List.mem_map.mp hf
    exact ⟨p.type, List.mem_append_left _ (List.mem_append_left _ (List.mem_map_of_mem hp)), hrefers⟩
  · obtain ⟨part, hpart, hr⟩ := List.mem_flatMap.mp hr
    obtain ⟨type, htype, he⟩ := exists_of_forall₂ (describeParts_eq_ok.mp hbodies) hpart
    exact ⟨type, List.mem_append_left _ (List.mem_append_right _ htype), refers_of_describe he r hr⟩

/-- The references of a method come from the types of its operation. -/
theorem refers_of_describeMethod {o : Operation} {m : Method} (h : w.describeMethod o = .ok m) :
    ∀ r ∈ m.references, ∃ type ∈ o.types, w.Refers type r := by
  obtain ⟨argument, hargument, hrest⟩ := Except.bind_eq_ok.mp h
  obtain ⟨passed, -, hrest'⟩ := Except.bind_eq_ok.mp hrest
  obtain ⟨result, hresult, hpure⟩ := Except.bind_eq_ok.mp hrest'
  cases hpure
  intro r hr
  rcases List.mem_append.mp hr with hr | hr
  · split at hr
    · exact refers_of_describeArgument hargument r hr
    · cases hr
  · exact ⟨o.result, List.mem_append_right _ (List.mem_singleton_self _), refers_of_describe hresult r hr⟩

end TypeWriter

end Output

/-! ### Everything is exported -/

/-- What makes sure that references are resolved: exported names are different, and the names that enums were
    given are names of exported enums. -/
structure Description.Exporting (namedEnums : Bool) (d : Description) : Prop where
  distinct : (d.registry.values.map (·.name) ++ if namedEnums then d.enums.keys else []).Nodup
  assigned : namedEnums = true → ∀ values name, AnyEnum d.registry d.operations values (some name) →
    name ∈ Table.keys d.exportedEnums

/-- Every enum inside of a type of a description is one of its enums. -/
theorem Description.anyEnum {d : Description} {type : ClientType} (htype : type ∈ d.types)
    {values : List String} {assigned : Option String} (h : Inside (.enum values assigned) type) :
    AnyEnum d.registry d.operations values assigned := by
  rcases List.mem_append.mp htype with htype | htype
  · obtain ⟨x, hx, rfl⟩ := List.mem_map.mp htype
    by_cases henum : x.type.IsEnum
    · -- There is nothing inside of an enum but the enum itself.
      obtain ⟨known, name, hknown⟩ := henum
      rw [hknown] at h
      cases h
      exact .inl ⟨x, hx, hknown⟩
    · exact .inr (.inl ⟨x, hx, henum, h⟩)
  · obtain ⟨o, ho, htype⟩ := List.mem_flatMap.mp htype
    exact .inr (.inr ⟨o, ho, type, htype, h⟩)

namespace Output

/-- The types' file exports what the reference speaks about: the name, and for a member of an enum the line
    that gives the value this member. -/
def Client.Resolves (c : Client) : Reference → Prop
  | .type name => name ∈ c.exports.map Export.name
  | .member enum name value =>
    ∃ values, .enum enum values ∈ c.exports ∧ enumLine name value ∈ enumLines values

/-- The files of a client are closed: exported names are different, and every reference is resolved. -/
structure Client.Closed (c : Client) : Prop where
  distinct : (c.exports.map Export.name).Nodup
  exports_resolved : ∀ x ∈ c.exports, ∀ r ∈ x.references, c.Resolves r
  methods_resolved : ∀ m ∈ c.methods, ∀ r ∈ m.references, c.Resolves r

section Closed

variable {d : Description} {options : Options} {c : Client}

/-- The exports and the groups of a client. -/
theorem client_eq_ok (h : d.client options = .ok c) :
    ∃ declared, List.Forall₂ (fun x y => TypeWriter.describeDeclaration ⟨d.registry, options.namedEnums, none⟩ x
          = .ok y) (sortedDeclarations d.registry) declared
      ∧ c.exports = declared ++ newExports options d
      ∧ List.Forall₂ (fun g y => TypeWriter.describeGroup ⟨d.registry, options.namedEnums, options.space⟩
          d.operations g = .ok y) groups c.groups := by
  unfold Description.client at h
  obtain ⟨declared, hdeclared, hrest⟩ := Except.bind_eq_ok.mp h
  obtain ⟨described, hdescribed, hpure⟩ := Except.bind_eq_ok.mp hrest
  cases hpure
  exact ⟨declared, Except.mapM_eq_ok.mp hdeclared, rfl, Except.mapM_eq_ok.mp hdescribed⟩

theorem name_of_describeDeclaration {w : TypeWriter} {x : Declaration} {y : Export}
    (h : w.describeDeclaration x = .ok y) : y.name = x.name := by
  unfold TypeWriter.describeDeclaration at h
  split at h
  · cases h
    rfl
  · obtain ⟨e, -, hpure⟩ := Except.bind_eq_ok.mp h
    cases hpure
    rfl

/-- What is exported is what is declared, and the new enums. -/
theorem names_exports_perm (h : d.client options = .ok c) :
    (c.exports.map Export.name).Perm
      (d.registry.values.map (·.name) ++ if options.namedEnums then d.enums.keys else []) := by
  obtain ⟨declared, hdeclared, hexports, -⟩ := client_eq_ok h
  have hnames : declared.map Export.name = (sortedDeclarations d.registry).map (·.name) := by
    have hforall := hdeclared.imp fun x y hxy => (name_of_describeDeclaration hxy).symm
    have hmaps : List.Forall₂ (· = ·) ((sortedDeclarations d.registry).map (·.name))
        (declared.map Export.name) := by
      rw [List.forall₂_map_left_iff, List.forall₂_map_right_iff]
      exact hforall
    rw [List.forall₂_eq_eq_eq] at hmaps
    exact hmaps.symm
  have hsorted : (sortedDeclarations d.registry).Perm d.registry.values := List.mergeSort_perm ..
  rw [hexports, List.map_append, hnames]
  refine (hsorted.map _).append ?_
  unfold newExports
  by_cases hnamed : options.namedEnums = true
  · rw [if_pos hnamed, if_pos hnamed, List.map_map]
    exact (List.mergeSort_perm d.enums _).map _
  · rw [if_neg hnamed, if_neg hnamed]
    exact .nil

/-- A declaration is exported under its name; an enum with its values, if enums have names. -/
theorem exported_of_declared (h : d.client options = .ok c) {x : Declaration} (hx : x ∈ d.registry.values) :
    ∃ y ∈ c.exports, TypeWriter.describeDeclaration ⟨d.registry, options.namedEnums, none⟩ x = .ok y := by
  obtain ⟨declared, hdeclared, hexports, -⟩ := client_eq_ok h
  have hsorted : x ∈ sortedDeclarations d.registry := (List.mergeSort_perm ..).mem_iff.mpr hx
  obtain ⟨y, hy, hxy⟩ := exists_of_forall₂ hdeclared.flip hsorted
  exact ⟨y, by rw [hexports]; exact List.mem_append_left _ hy, hxy⟩

/-- Every method belongs to an operation. -/
theorem exists_operation (h : d.client options = .ok c) {m : Method} (hm : m ∈ c.methods) :
    ∃ o ∈ d.operations,
      TypeWriter.describeMethod ⟨d.registry, options.namedEnums, options.space⟩ o = .ok m := by
  obtain ⟨-, -, -, hgroups⟩ := client_eq_ok h
  obtain ⟨y, hy, hm⟩ := List.mem_flatMap.mp hm
  obtain ⟨g, -, hdescribe⟩ := exists_of_forall₂ hgroups hy
  obtain ⟨methods, hmethods, hpure⟩ := Except.bind_eq_ok.mp hdescribe
  cases hpure
  obtain ⟨o, ho, hom⟩ := exists_of_forall₂ (Except.mapM_eq_ok.mp hmethods) hm
  exact ⟨o, List.mem_of_mem_filter ho, hom⟩

/-- What a writer refers to in a type of the description is exported. -/
theorem resolves_of_refers (h : d.Exporting options.namedEnums) (hc : d.client options = .ok c)
    {space : Option String} {type : ClientType} (htype : type ∈ d.types) {r : Reference}
    (hr : TypeWriter.Refers ⟨d.registry, options.namedEnums, space⟩ type r) : c.Resolves r := by
  have hnames := names_exports_perm hc
  have hdeclared : ∀ x ∈ d.registry.values, x.name ∈ c.exports.map Export.name := by
    intro x hx
    exact hnames.mem_iff.mpr (List.mem_append_left _ (List.mem_map_of_mem hx))
  cases hr with
  | @declared key x hin hx =>
    exact hdeclared x (Table.mem_values_iff.mpr ⟨key, Table.mem_of_get?_eq_some hx⟩)
  | @assigned values assigned name hin hname =>
    -- The name of an enum counts only if enums have names.
    have hnamed : options.namedEnums = true := by
      by_contra hne
      simp [TypeWriter.enumName?, hne] at hname
    have hassigned : assigned = some name := by
      simp only [TypeWriter.enumName?, hnamed, if_true, Option.filter_eq_some_iff] at hname
      exact hname.1
    subst hassigned
    have hkey := h.assigned hnamed values name (Description.anyEnum htype hin)
    rw [Description.exportedEnums, Table.keys, List.map_append, List.mem_append] at hkey
    rcases hkey with hkey | hkey
    · have hsub := EnumNaming.keys_filterMap_exportedEnum?_sublist d.registry.values
      obtain ⟨x, hx, rfl⟩ := List.mem_map.mp (hsub.mem hkey)
      exact hdeclared x hx
    · refine hnames.mem_iff.mpr (List.mem_append_right _ ?_)
      rw [if_pos hnamed]
      exact hkey
  | @member key x values assigned name value hnamed hx hvalues hmember =>
    have hmem : x ∈ d.registry.values := Table.mem_values_iff.mpr ⟨key, Table.mem_of_get?_eq_some hx⟩
    obtain ⟨y, hy, hdescribe⟩ := exported_of_declared hc hmem
    have hnamed' : options.namedEnums = true := hnamed
    have henum : y = .enum x.name values := by
      simp only [TypeWriter.describeDeclaration, hnamed', hvalues] at hdescribe
      exact (Except.pure_eq_ok.mp hdescribe).symm
    have hvalue : value ∈ values :=
      Naming.isSome_get?_members_iff.mp (by rw [hmember]; rfl)
    refine ⟨values, henum ▸ hy, List.mem_map.mpr ⟨value, hvalue, ?_⟩⟩
    rw [hmember, Option.getD_some]

/-- **The files of a client are closed.** -/
theorem closed_of_exporting (h : d.Exporting options.namedEnums) (hc : d.client options = .ok c) :
    c.Closed := by
  refine ⟨(names_exports_perm hc).nodup_iff.mpr h.distinct, fun y hy r hr => ?_, fun m hm r hr => ?_⟩
  · obtain ⟨declared, hdeclared, hexports, -⟩ := client_eq_ok hc
    rw [hexports] at hy
    rcases List.mem_append.mp hy with hy | hy
    · obtain ⟨x, hx, hdescribe⟩ := exists_of_forall₂ hdeclared hy
      have hmem : x ∈ d.registry.values := (List.mergeSort_perm ..).mem_iff.mp hx
      have htype : x.type ∈ d.types := List.mem_append_left _ (List.mem_map_of_mem hmem)
      unfold TypeWriter.describeDeclaration at hdescribe
      split at hdescribe
      · cases hdescribe
        cases hr
      · obtain ⟨e, he, hpure⟩ := Except.bind_eq_ok.mp hdescribe
        cases hpure
        exact resolves_of_refers h hc htype (TypeWriter.refers_of_describe he r hr)
    · -- The new enums refer to nothing.
      unfold newExports at hy
      split at hy
      · obtain ⟨entry, -, rfl⟩ := List.mem_map.mp hy
        cases hr
      · cases hy
  · obtain ⟨o, ho, hdescribe⟩ := exists_operation hc hm
    obtain ⟨type, ht, hrefers⟩ := TypeWriter.refers_of_describeMethod hdescribe r hr
    exact resolves_of_refers h hc (List.mem_append_right _ (List.mem_flatMap.mpr ⟨o, ho, ht⟩)) hrefers

end Closed

end Output

/-! ### Reading makes descriptions exporting -/

namespace EnumNaming

variable {registry : Registry} {operations : List Operation}

/-- Declarations with different names export, after their enums have been named. -/
theorem exporting_resolve (distinct : (registry.values.map (·.name)).Nodup)
    {enums : Table String (List String)} {named : EnumNaming}
    (h : (start registry operations).resolve = (.ok enums, named)) :
    Description.Exporting true ⟨named.registry, named.operations, enums⟩ := by
  obtain ⟨names, hchosen, rfl, rfl⟩ := resolve_eq_ok h
  have hstart : ((start registry operations).registry.values.map (·.name)).Nodup := by
    rw [values_start, List.map_map]
    simpa [Function.comp_def] using distinct
  refine ⟨?_, fun _ values name hany => ?_⟩
  · -- New names are different, and none of them is declared.
    have hdeclared : ((start registry operations).apply
          (((start registry operations).candidates.map (·.values)).zip names)).registry.values.map (·.name)
        = (start registry operations).registry.values.map (·.name) := by
      rw [values_apply, List.map_map]
      exact List.map_congr_left fun x _ => name_applyToDeclaration _ x
    rw [if_pos rfl, hdeclared, hchosen.synthesized_eq]
    refine hstart.append hchosen.nodup_keys_fresh ?_
    intro name hdecl hnew
    obtain ⟨x, hx, hname⟩ := List.mem_map.mp hdecl
    obtain ⟨values, hmem⟩ := Table.mem_keys_iff.mp hnew
    have hnone := (Chosen.mem_fresh_iff.mp hmem).1
    rw [(declared?_eq_some_iff hstart).mpr ⟨hx, hname⟩] at hnone
    cases hnone
  · rw [exportedEnums_apply hchosen, Table.mem_keys_iff]
    rcases hany with ⟨x, hx, htype⟩ | hinline
    · obtain ⟨hname, hd⟩ := declared_named hstart hx htype
      cases hname
      exact ⟨values, mem_exported_of_declared? hstart hd htype⟩
    · obtain ⟨c, chosen, hc, -, hname⟩ := inlineEnum_named hchosen hinline
      cases hname
      obtain ⟨known, hknown, -⟩ := exists_exported hstart hchosen hc
      exact ⟨known, hknown⟩

end EnumNaming

/-- **Reading makes descriptions exporting.** -/
theorem Bundle.exporting_of_describe {b : Bundle} {namedEnums : Bool} {d : Description} {r : Resolver}
    (h : b.describe namedEnums = (.ok d, r)) : d.Exporting namedEnums := by
  obtain ⟨operations, r₀, r₁, -, -, hunique, hnamed⟩ := describe_eq_ok.mp h
  have distinct := Resolver.checkUniqueNames_eq_ok_iff.mp hunique
  cases namedEnums with
  | false =>
    obtain ⟨rfl, -⟩ := hnamed
    refine ⟨?_, nofun⟩
    rw [if_neg Bool.false_ne_true, List.append_nil]
    exact distinct
  | true =>
    obtain ⟨enums, henums, rfl, rfl⟩ := hnamed
    exact EnumNaming.exporting_resolve distinct (Prod.ext henums rfl)

open Output in
/-- **The generated files are closed.**  Whatever is generated from documents is the text of a client: exported
    names are different, all that the types and the methods refer to is exported, and the names that the
    methods refer to are the names that they import. -/
theorem generate_closed {source : Source} {base entry : String} {document : Value} {d : Description}
    {options : Options} (hparse : Description.parse source base entry options.namedEnums document = .ok d)
    {project : Project} (hgenerate : generate options d = .ok project) :
    ∃ client, d.client options = .ok client ∧ project = client.project options.space
      ∧ client.Closed ∧ client.Imports := by
  obtain ⟨_, r, hdescribe⟩ := Description.parse_eq_ok hparse
  obtain ⟨client, hclient, hproject⟩ := exists_client hgenerate
  have hexporting := Bundle.exporting_of_describe hdescribe
  exact ⟨client, hclient, hproject, closed_of_exporting hexporting hclient, client.hasImports⟩

/-! ### A pet that is told by its kind -/

open Output

/-- The kinds of pets. -/
def kindSchema : Value :=
  .map [(.text "type", .text "string"), (.text "enum", .list [.text "cat", .text "dog"])]

/-- A pet is a cat, which its kind tells. -/
def kindOfPetEntries : List (Value × Value) :=
  [(.text "properties", .map [(.text "kind", .map [(.text "$ref", .text "#/components/schemas/Kind")])]),
    (.text "oneOf", .list [.map [(.text "$ref", .text "#/components/schemas/Cat")]]),
    (.text "discriminator", .map [(.text "propertyName", .text "kind"),
      (.text "mapping", .map [(.text "cat", .text "Cat")])])]

def kindSchemas : List (Value × Value) :=
  [(.text "Cat", plainSchema), (.text "Kind", kindSchema), (.text "Pet", .map kindOfPetEntries)]

/-- One route that gives a pet. -/
def kindPaths : Value :=
  .map [(.text "/pet", .map [(.text "get", .map [(.text "responses", .map [(.text "200",
    .map [(.text "content", .map [(.text "application/json", .map [(.text "schema",
      .map [(.text "$ref", .text "#/components/schemas/Pet")])])])])])])])]

def kindsDocument : Value :=
  .map [(.text "components", .map [(.text "schemas", .map kindSchemas)]), (.text "paths", kindPaths)]

def kindUnion : ClientType :=
  .union [.ref "#/components/schemas/Cat"] (some "kind") [("cat", "#/components/schemas/Cat")]
    (some [⟨"kind", .ref "#/components/schemas/Kind", false⟩]) (some "#/components/schemas/Kind")

theorem converts_kind : Schema.Converts ⟨"", ""⟩ kindSchema [] (.enum ["cat", "dog"] none) :=
  .enum ⟨rfl, rfl⟩ rfl rfl

theorem converts_kindOfPet : Schema.Converts ⟨"", ""⟩ (.map kindOfPetEntries)
    ["#/components/schemas/Kind", "#/components/schemas/Cat"] kindUnion := by
  let cat : Schema.Conversion := ⟨.map [(.text "$ref", .text "#/components/schemas/Cat")],
    ["#/components/schemas/Cat"], .ref "#/components/schemas/Cat"⟩
  let kind : Schema.Property := ⟨⟨.map [(.text "$ref", .text "#/components/schemas/Kind")],
    ["#/components/schemas/Kind"], .ref "#/components/schemas/Kind"⟩, "kind", false⟩
  have hcat : ∀ c ∈ [cat], Schema.Converts ⟨"", ""⟩ c.schema c.log c.type := by
    intro c hc
    rw [List.mem_singleton.mp hc]
    exact .link rfl (by cbv)
  have hkind : ∀ p ∈ [kind], Schema.Converts ⟨"", ""⟩ p.schema p.log p.type := by
    intro p hp
    rw [List.mem_singleton.mp hp]
    exact .link rfl (by cbv)
  have howns : Schema.Owns kindOfPetEntries (some [kind]) := ⟨_, rfl, rfl, by
    intro p hp
    rw [List.mem_singleton.mp hp]
    rfl⟩
  have hfields : Schema.ownFields (some [kind]) = some [⟨"kind", .ref "#/components/schemas/Kind", false⟩] := by
    cbv
  have htags : Schema.Tags ⟨"", ""⟩ kindOfPetEntries (Schema.ownFields (some [kind])) (some "kind")
      [("cat", "#/components/schemas/Cat")] (some "#/components/schemas/Kind") := by
    rw [hfields]
    exact ⟨_, _, _, rfl, by cbv, by cbv, rfl, rfl, by cbv⟩
  have hunion := Schema.Converts.union ⟨rfl, rfl⟩ howns hkind rfl rfl rfl hcat htags
  rw [hfields] at hunion
  exact hunion

def kindsRegistry (kind : Option String) : Registry :=
  [("#/components/schemas/Cat", ⟨"Cat", "#/components/schemas/Cat", .object []⟩),
    ("#/components/schemas/Kind", ⟨"Kind", "#/components/schemas/Kind", .enum ["cat", "dog"] kind⟩),
    ("#/components/schemas/Pet", ⟨"Pet", "#/components/schemas/Pet", kindUnion⟩)]

/-- What is known when the document has been read. -/
def kindsRead : Resolver where
  entry := ""
  base := ""
  registry := kindsRegistry none
  pending := []
  queue := []
  loaded := [""]
  asked := []

def kindOperations : List Operation :=
  [⟨"GET", "/pet", [], [], .ref "#/components/schemas/Pet"⟩]

def kinds : Description :=
  ⟨kindsRegistry (some "Kind"), kindOperations, []⟩

theorem register_kinds : (Resolver.fresh "" "").register "" kindsDocument = (.ok (), kindsRead) := by
  show Resolver.registerSchemas _ "" kindSchemas = _
  have hscope : ∀ r : Resolver, r.entry = "" → r.scope "" = ⟨"", ""⟩ := by
    intro r hr
    rw [Resolver.scope, hr]
  simp only [kindSchemas, Resolver.registerSchemas, Resolver.convert, Resolver.run, Value.asText]
  rw [hscope _ rfl, converts_plain.convert_eq]
  simp only []
  rw [hscope _ rfl, converts_kind.convert_eq]
  simp only []
  rw [hscope _ rfl, converts_kindOfPet.convert_eq]
  rfl

theorem extract_kinds : Route.extract "" kindPaths
    = ⟨["#/components/schemas/Pet"], .ok kindOperations⟩ := by
  let pet : Schema.Conversion := ⟨.map [(.text "$ref", .text "#/components/schemas/Pet")],
    ["#/components/schemas/Pet"], .ref "#/components/schemas/Pet"⟩
  have hpet : Schema.Converts ⟨"", ""⟩ pet.schema pet.log pet.type := .link rfl (by cbv)
  refine Route.extract_eq_ok_iff.mpr ⟨[⟨"GET", "/pet", [], none, some pet.schema⟩], by cbv,
    [⟨"GET", "/pet", [], none, some pet⟩], rfl, ?_, rfl, rfl⟩
  intro x hx
  rw [List.mem_singleton.mp hx]
  intro c hc
  rw [List.mem_singleton.mp hc]
  exact hpet

theorem parse_kinds : Description.parse (Source.ofTable []) "" "" true kindsDocument
    = .ok kinds := by
  have hreads : Bundle.Reads ⟨Source.ofTable [], "", "", kindsDocument⟩ kindOperations kindsRead :=
    Bundle.reads_of_extract register_kinds rfl extract_kinds rfl
  have hdescribe : Bundle.describe ⟨Source.ofTable [], "", "", kindsDocument⟩ true
      = (.ok kinds, { kindsRead with registry := kindsRegistry (some "Kind") }) :=
    Bundle.describe_eq_ok.mpr ⟨kindOperations, kindsRead, kindsRead, hreads,
      Bundle.resolve_eq_ok.mpr ⟨Resolver.loadAll_nil rfl, rfl⟩, rfl, [], rfl, rfl, rfl⟩
  show (Bundle.describe ⟨Source.ofTable [], "", "", kindsDocument⟩ true).1 = _
  rw [hdescribe]


/-- The client: the variant of a pet is a cat whose kind is the member that the enum has for cats. -/
def kindsClient : Client where
  exports := [.type "Cat" (.object []), .enum "Kind" ["cat", "dog"],
    .type "Pet" (.any [⟨.named none "Cat", some ("kind", .member none "Kind" "Cat" "cat")⟩])]
  groups := [(⟨"GET", "get", "ApiGroupGet"⟩,
      [⟨⟨"/pet", [], [], false⟩, ["'/pet'", "undefined"], .all [], .named none "Pet"⟩]),
    (⟨"POST", "post", "ApiGroupPost"⟩, []), (⟨"PUT", "put", "ApiGroupPut"⟩, []),
    (⟨"PATCH", "patch", "ApiGroupPatch"⟩, []), (⟨"DELETE", "delete", "ApiGroupDelete"⟩, [])]

theorem sortedDeclarations_kinds : sortedDeclarations kinds.registry = kinds.registry.values := by
  refine List.mergeSort_of_pairwise ?_
  simp only [kinds, kindsRegistry, Table.values, List.map_cons, List.map_nil]
  decide +kernel

theorem client_kinds : kinds.client ⟨true, none⟩ = .ok kindsClient := by
  unfold Description.client
  rw [sortedDeclarations_kinds]
  cbv

/-- What is generated for the document is the text of this client.  Its names are exported, the member that the
    tag of the variant names is a line of the enum, and the methods import what they use. -/
theorem kinds_closed : ∃ project, generate ⟨true, none⟩ kinds = .ok project
    ∧ project = kindsClient.project none ∧ kindsClient.Closed ∧ kindsClient.Imports := by
  obtain ⟨types, htypes⟩ : ∃ file, typesFile ⟨true, none⟩ kinds = .ok file := by
    simp only [typesFile, sortedDeclarations_kinds]
    exact ⟨_, rfl⟩
  obtain ⟨methods, hmethods⟩ : ∃ file, methodsFile ⟨true, none⟩ kinds = .ok file := ⟨_, rfl⟩
  have hgenerate : generate ⟨true, none⟩ kinds = .ok ⟨[types, methods]⟩ := by
    rw [generate, htypes, Except.ok_bind, hmethods]
    rfl
  obtain ⟨client, hclient, hproject, hclosed, himports⟩ :=
    @generate_closed _ _ _ _ kinds ⟨true, none⟩ parse_kinds _ hgenerate
  have heq : client = kindsClient := Except.ok.inj (hclient.symm.trans client_kinds)
  rw [heq] at hproject hclosed himports
  exact ⟨_, hgenerate, hproject, hclosed, himports⟩

end TypedClient
