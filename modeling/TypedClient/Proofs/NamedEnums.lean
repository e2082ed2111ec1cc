import TypedClient.Output.Client
import TypedClient.Proofs.EnumNames
import TypedClient.Proofs.Extraction
import TypedClient.Proofs.MemberNames

namespace TypedClient

open ClientType

/-!
# Named enums keep their meaning

With names given to enums, a type refers to an enum by a name, and the name is declared in the file of
the types.  This file shows that the name stands for the values that it replaced.

* `InlineEnum` — where enums can stand in declarations and operations.
* `Description.exportedEnums` — the enums that the file of the types exports.
* `NamesKeepMeaning` — every enum is named, names and sets of values correspond, and every name is
  exported once, with the values of the enums that it names.
* `resolve_keepsMeaning` — this holds whenever names are found, for every list of declarations with
  different names and every list of operations.
-/

/-! ### Enums of a description -/

/-- Is the type an enum itself, and not one with enums inside of it? -/
def ClientType.IsEnum (type : ClientType) : Prop :=
  ∃ values assigned, type = .enum values assigned

/-- An enum node without a declaration of its own: it stands in a declared type that is no enum itself,
    or in an operation. -/
def InlineEnum (registry : Registry) (operations : List Operation) (values : List String)
    (assigned : Option String) : Prop :=
  (∃ d ∈ registry.values, ¬ d.type.IsEnum ∧ Inside (.enum values assigned) d.type)
    ∨ ∃ o ∈ operations, ∃ type ∈ o.types, Inside (.enum values assigned) type

/-- An enum node anywhere in declarations and operations: an inline one or a declared enum. -/
def AnyEnum (registry : Registry) (operations : List Operation) (values : List String)
    (assigned : Option String) : Prop :=
  (∃ d ∈ registry.values, d.type = .enum values assigned)
    ∨ InlineEnum registry operations values assigned

/-- The enum that a declaration exports, if its type is one. -/
def Declaration.exportedEnum? (d : Declaration) : Option (String × List String) :=
  match d.type with
  | .enum values _ => some (d.name, values)
  | _ => none

theorem Declaration.exportedEnum?_eq_none {d : Declaration} (h : ¬ d.type.IsEnum) :
    d.exportedEnum? = none := by
  rw [exportedEnum?]
  split
  · next values assigned ht => exact absurd ⟨values, assigned, ht⟩ h
  · rfl

/-- The enums that the file of the types exports: the declared ones and the new ones, by name. -/
def Description.exportedEnums (d : Description) : List (String × List String) :=
  d.registry.values.filterMap Declaration.exportedEnum? ++ d.enums

/-- A declaration without the names of the enums inside of it. -/
def Declaration.unnamed (d : Declaration) : Declaration :=
  { d with type := d.type.unnamed }

/-- An operation without the names of the enums inside of it. -/
def Operation.unnamed (o : Operation) : Operation :=
  { o with
    parameters := o.parameters.map fun p => { p with type := p.type.unnamed }
    bodyTypes := o.bodyTypes.map ClientType.unnamed
    result := o.result.unnamed }

/-- What it means that the names of the enums in a description keep the meaning of declarations and
    operations. -/
structure NamesKeepMeaning (registry : Registry) (operations : List Operation) (d : Description) :
    Prop where
  /-- Nothing but names has changed in the declarations. -/
  registry_unnamed : (d.registry.map fun (key, x) => (key, x.unnamed))
    = registry.map fun (key, x) => (key, x.unnamed)
  /-- Nothing but names has changed in the operations. -/
  operations_unnamed : d.operations.map Operation.unnamed = operations.map Operation.unnamed
  /-- Every enum has a name. -/
  assigned : ∀ values name, AnyEnum d.registry d.operations values name → name.isSome
  /-- Inline enums have one name exactly if they have one set of values. -/
  name_eq_iff : ∀ values name values' name', InlineEnum d.registry d.operations values name →
    InlineEnum d.registry d.operations values' name' →
    (name = name' ↔ ∀ value, value ∈ values ↔ value ∈ values')
  /-- A name is exported once, with the values of every enum that has it. -/
  exported_once : ∀ values name, AnyEnum d.registry d.operations values (some name) →
    ∃ known, d.exportedEnums.filter (fun x => x.1 == name) = [(name, known)]
      ∧ ∀ value, value ∈ known ↔ value ∈ values
  /-- No new enum takes the name of a declaration. -/
  new_names : ∀ name ∈ d.enums.keys, ∀ x ∈ d.registry.values, x.name ≠ name
  /-- The file of the types holds exactly these enums, and else declarations of other types. -/
  written : ∀ space file, Output.typesFile ⟨true, space⟩ d = .ok file →
    ∃ others, (file.blocks.map (·.code)).Perm
        (d.exportedEnums.map (fun x => Output.TypeWriter.writeEnum x.1 x.2) ++ others)
      ∧ ∀ text ∈ others, ∃ x ∈ d.registry.values, ∃ body,
        text = "export type " ++ x.name ++ " = " ++ body ++ ";"

/-! ### The file of the types -/

namespace Output

/-- A new file holds the code that is added to it. -/
theorem codes_addCode (name : String) (codes : List String) :
    ((CodeFile.empty name).addCode codes).blocks.map (·.code) = codes := by
  simp [CodeFile.addCode, CodeFile.empty, Function.comp_def]

/-- The texts of declarations are the texts of the declared enums and declarations of other types. -/
theorem writeDeclarations_perm {w : TypeWriter} (hw : w.namedEnums = true)
    {declarations : List Declaration} {steps : List (List String × String)}
    (h : List.Forall₂ (fun d step => w.writeDeclaration d = ⟨step.1, .ok step.2⟩) declarations steps) :
    ∃ others, (steps.map (·.2)).Perm
        ((declarations.filterMap Declaration.exportedEnum?).map
          (fun x => TypeWriter.writeEnum x.1 x.2) ++ others)
      ∧ ∀ text ∈ others, ∃ d ∈ declarations, ∃ body,
        text = "export type " ++ d.name ++ " = " ++ body ++ ";" := by
  induction h with
  | nil => exact ⟨[], .nil, by simp⟩
  | @cons d step declarations steps hd _ ih =>
    obtain ⟨others, hperm, hothers⟩ := ih
    -- A declared enum comes in front; the text of any other declaration joins the others.
    by_cases henum : d.type.IsEnum
    · obtain ⟨values, assigned, ht⟩ := henum
      have htext : step.2 = TypeWriter.writeEnum d.name values := by
        simp only [TypeWriter.writeDeclaration, hw, ht] at hd
        exact (Logged.pure_eq_ok.mp hd).2.symm
      have hexport : d.exportedEnum? = some (d.name, values) := by
        simp [Declaration.exportedEnum?, ht]
      refine ⟨others, ?_, fun text htext => ?_⟩
      · rw [List.filterMap_cons_some hexport, List.map_cons, List.map_cons, htext, List.cons_append]
        exact hperm.cons _
      · obtain ⟨x, hx, body⟩ := hothers text htext
        exact ⟨x, List.mem_cons_of_mem _ hx, body⟩
    · have htext : ∃ body, step.2 = "export type " ++ d.name ++ " = " ++ body ++ ";" := by
        rw [TypeWriter.writeDeclaration, hw] at hd
        split at hd
        · next values assigned _ ht => exact absurd ⟨values, assigned, ht⟩ henum
        · obtain ⟨_, body, _, -, hpure, -⟩ := Logged.bind_eq_ok.mp hd
          exact ⟨body, (Logged.pure_eq_ok.mp hpure).2.symm⟩
      refine ⟨step.2 :: others, ?_, fun text hmem => ?_⟩
      · rw [List.filterMap_cons_none (Declaration.exportedEnum?_eq_none henum), List.map_cons]
        exact (hperm.cons _).trans List.perm_middle.symm
      · rcases List.mem_cons.mp hmem with rfl | hmem
        · exact ⟨d, List.mem_cons_self, htext⟩
        · obtain ⟨x, hx, body⟩ := hothers text hmem
          exact ⟨x, List.mem_cons_of_mem _ hx, body⟩

/-- The file of the types holds the exported enums, and else declarations of other types. -/
theorem typesFile_enums {d : Description} {space : Option String} {file : CodeFile}
    (h : typesFile ⟨true, space⟩ d = .ok file) :
    ∃ others, (file.blocks.map (·.code)).Perm
        (d.exportedEnums.map (fun x => TypeWriter.writeEnum x.1 x.2) ++ others)
      ∧ ∀ text ∈ others, ∃ x ∈ d.registry.values, ∃ body,
        text = "export type " ++ x.name ++ " = " ++ body ++ ";" := by
  obtain ⟨texts, htexts, hfile⟩ := Except.bind_eq_ok.mp h
  obtain ⟨steps, hsteps, rfl, -⟩ := Logged.mapM_eq_ok.mp (Logged.eq_mk_of_result htexts)
  rw [Except.pure_eq_ok] at hfile
  subst hfile
  obtain ⟨others, hperm, hothers⟩ := writeDeclarations_perm rfl hsteps
  have hsorted : (sortedDeclarations d.registry).Perm d.registry.values := List.mergeSort_perm ..
  have henums : (enumTexts d.enums).Perm
      (d.enums.map fun x => TypeWriter.writeEnum x.1 x.2) := (List.mergeSort_perm ..).map _
  refine ⟨others, ?_, fun text htext => ?_⟩
  · rw [codes_addCode, if_pos rfl, Description.exportedEnums, List.map_append, List.append_assoc]
    refine (hperm.append henums).trans ?_
    rw [List.append_assoc]
    exact ((hsorted.filterMap _).map _).append List.perm_append_comm
  · obtain ⟨x, hx, body⟩ := hothers text htext
    exact ⟨x, hsorted.mem_iff.mp hx, body⟩

end Output

namespace EnumNaming

variable {registry : Registry} {operations : List Operation}

/-! ### Declared names -/

theorem values_start : (start registry operations).registry.values
    = registry.values.map nameDeclared := by
  simp [start, Table.values, List.map_map, Function.comp_def]

@[simp] theorem name_nameDeclared (d : Declaration) : (nameDeclared d).name = d.name := by
  unfold nameDeclared
  split <;> rfl

/-- Under different names, the declaration of a name is the one that has it. -/
theorem declared?_eq_some_iff {e : EnumNaming} (distinct : (e.registry.values.map (·.name)).Nodup)
    {name : String} {d : Declaration} :
    e.declared? name = some d ↔ d ∈ e.registry.values ∧ d.name = name := by
  have hkeys : (Table.keys (e.registry.values.map fun d => (d.name, d))).Nodup := by
    simpa [Table.keys, Function.comp_def] using distinct
  rw [declared?, Table.ofList_eq_self hkeys, Table.get?_eq_some_iff_mem hkeys]
  constructor
  · intro h
    obtain ⟨x, hx, heq⟩ := List.mem_map.mp h
    cases heq
    exact ⟨hx, rfl⟩
  · rintro ⟨hd, rfl⟩
    exact List.mem_map_of_mem hd

/-- A declared enum has the name of its declaration. -/
theorem assigned_nameDeclared {d : Declaration} {values : List String} {assigned : Option String}
    (h : (nameDeclared d).type = .enum values assigned) : assigned = some d.name := by
  unfold nameDeclared at h
  split at h
  · cases h
    rfl
  · next hne => exact absurd h (hne values assigned)

/-! ### Naming keeps everything else -/

theorem unnamed_nameDeclared (d : Declaration) : (nameDeclared d).unnamed = d.unnamed := by
  obtain ⟨name, key, type⟩ := d
  cases type <;> rfl

/-- A declared enum is not named again. -/
theorem applyToDeclaration_of_isEnum (pairs : List (List String × String)) {d : Declaration}
    (h : d.type.IsEnum) : applyToDeclaration pairs d = d := by
  obtain ⟨values, assigned, ht⟩ := h
  rw [applyToDeclaration, ht]

theorem applyToDeclaration_of_not_isEnum (pairs : List (List String × String)) {d : Declaration}
    (h : ¬ d.type.IsEnum) :
    applyToDeclaration pairs d = { d with type := d.type.nameEnums pairs } := by
  rw [applyToDeclaration]
  split
  · next values assigned ht => exact absurd ⟨values, assigned, ht⟩ h
  · rfl

/-- Naming enums makes no enum out of another type. -/
theorem isEnum_nameEnums_iff (pairs : List (List String × String)) (type : ClientType) :
    (type.nameEnums pairs).IsEnum ↔ type.IsEnum := by
  cases type with
  | enum values assigned => exact ⟨fun _ => ⟨_, _, rfl⟩, fun _ => ⟨_, _, rfl⟩⟩
  | union members tag mapping shared tagType =>
    cases shared <;> simp [ClientType.IsEnum, nameEnums]
  | _ => simp [ClientType.IsEnum, nameEnums]

theorem unnamed_applyToDeclaration (pairs : List (List String × String)) (d : Declaration) :
    (applyToDeclaration pairs d).unnamed = d.unnamed := by
  by_cases h : d.type.IsEnum
  · rw [applyToDeclaration_of_isEnum pairs h]
  · rw [applyToDeclaration_of_not_isEnum pairs h]
    simp [Declaration.unnamed, unnamed_nameEnums]

theorem unnamed_applyToOperation (pairs : List (List String × String)) (o : Operation) :
    (applyToOperation pairs o).unnamed = o.unnamed := by
  simp [applyToOperation, Operation.unnamed, unnamed_nameEnums, Function.comp_def]

theorem types_applyToOperation (pairs : List (List String × String)) (o : Operation) :
    (applyToOperation pairs o).types = o.types.map (nameEnums pairs) := by
  simp [applyToOperation, Operation.types, Function.comp_def]

theorem values_apply (e : EnumNaming) (pairs : List (List String × String)) :
    (e.apply pairs).registry.values = e.registry.values.map (applyToDeclaration pairs) := by
  simp [apply, Table.values, List.map_map, Function.comp_def]

@[simp] theorem name_applyToDeclaration (pairs : List (List String × String)) (d : Declaration) :
    (applyToDeclaration pairs d).name = d.name := by
  unfold applyToDeclaration
  split <;> rfl

/-! ### Where the names come from -/

/-- An inline enum was one before the naming, and has the name of its values, if they have one. -/
theorem inlineEnum_apply {e : EnumNaming} {pairs : List (List String × String)}
    {values : List String} {name : Option String}
    (h : InlineEnum (e.apply pairs).registry (e.apply pairs).operations values name) :
    ∃ old, InlineEnum e.registry e.operations values old
      ∧ name = (nameOfValues pairs values).or old := by
  rcases h with ⟨x, hx, hne, hin⟩ | ⟨x, hx, type, ht, hin⟩
  · rw [values_apply] at hx
    obtain ⟨d, hd, rfl⟩ := List.mem_map.mp hx
    -- A declared enum is no inline one, before or after.
    by_cases hd' : d.type.IsEnum
    · rw [applyToDeclaration_of_isEnum pairs hd'] at hne
      exact absurd hd' hne
    · rw [applyToDeclaration_of_not_isEnum pairs hd'] at hin
      obtain ⟨old, hold, heq⟩ := inside_enum_nameEnums_iff.mp hin
      exact ⟨old, .inl ⟨d, hd, hd', hold⟩, heq⟩
  · obtain ⟨o, ho, rfl⟩ := List.mem_map.mp hx
    rw [types_applyToOperation] at ht
    obtain ⟨before, hbefore, rfl⟩ := List.mem_map.mp ht
    obtain ⟨old, hold, heq⟩ := inside_enum_nameEnums_iff.mp hin
    exact ⟨old, .inr ⟨o, ho, before, hbefore, hold⟩, heq⟩

theorem length_operationNames (e : EnumNaming) : e.operationNames.length = e.operations.length := by
  rw [operationNames, Naming.length_freshAll, List.length_map]

/-- The naming meets the values of every inline enum. -/
theorem exists_node {e : EnumNaming} {values : List String} {old : Option String}
    (h : InlineEnum e.registry e.operations values old) : ∃ node ∈ e.nodes, node.values = values := by
  rcases h with ⟨d, hd, hne, hin⟩ | ⟨o, ho, type, ht, hin⟩
  · obtain ⟨node, hn, hv, -⟩ := (exists_enumNode_iff [d.name]).mpr hin
    refine ⟨node, List.mem_append_left _ (List.mem_flatMap.mpr ⟨d, hd, ?_⟩), hv⟩
    rw [nodesOfDeclaration]
    split
    · next known assigned ht => exact absurd ⟨known, assigned, ht⟩ hne
    · exact hn
  · -- An operation is walked under its name, of which there are as many as operations.
    obtain ⟨name, hname⟩ : ∃ name, (name, o) ∈ e.operationNames.zip e.operations := by
      have hsnd : (e.operationNames.zip e.operations).map Prod.snd = e.operations :=
        List.map_snd_zip (Nat.le_of_eq (length_operationNames e).symm)
      rw [← hsnd] at ho
      obtain ⟨⟨name, o'⟩, hp, rfl⟩ := List.mem_map.mp ho
      exact ⟨name, hp⟩
    have hnode : ∃ node ∈ nodesOfOperation name o, node.values = values := by
      simp only [Operation.types, List.mem_append, List.mem_map, List.mem_singleton] at ht
      rcases ht with (⟨p, hp, rfl⟩ | ht) | rfl
      · obtain ⟨node, hn, hv, -⟩ := (exists_enumNode_iff [name, p.name]).mpr hin
        exact ⟨node, List.mem_append_left _
          (List.mem_append_left _ (List.mem_flatMap.mpr ⟨p, hp, hn⟩)), hv⟩
      · obtain ⟨node, hn, hv, -⟩ := (exists_enumNode_iff [name, "Body"]).mpr hin
        exact ⟨node, List.mem_append_left _
          (List.mem_append_right _ (List.mem_flatMap.mpr ⟨type, ht, hn⟩)), hv⟩
      · obtain ⟨node, hn, hv, -⟩ := (exists_enumNode_iff [name, "Result"]).mpr hin
        exact ⟨node, List.mem_append_right _ hn, hv⟩
    obtain ⟨node, hn, hv⟩ := hnode
    exact ⟨node, List.mem_append_right _ (List.mem_flatMap.mpr ⟨(name, o), hname, hn⟩), hv⟩

/-- Naming succeeds if and only if names are chosen for the candidates, and it gives these names. -/
theorem resolve_eq_ok_iff {e named : EnumNaming} {enums : Table String (List String)} :
    e.resolve = (.ok enums, named) ↔ ∃ names, e.choose.1 = .ok names ∧ enums = e.synthesized e.candidates names
      ∧ named = e.apply ((e.candidates.map (·.values)).zip names) := by
  rw [resolve]
  split
  · next hchoose => simp [hchoose]
  · next names hchoose =>
    rw [hchoose, Prod.mk.injEq, Except.ok.injEq]
    constructor
    · rintro ⟨henums, hnamed⟩
      exact ⟨names, rfl, henums.symm, hnamed.symm⟩
    · rintro ⟨names', hnames, henums, hnamed⟩
      cases hnames
      exact ⟨henums.symm, hnamed.symm⟩

/-- The names that naming gives are chosen well. -/
theorem resolve_eq_ok {e named : EnumNaming} {enums : Table String (List String)}
    (h : e.resolve = (.ok enums, named)) :
    ∃ names, e.Chosen e.candidates names ∧ enums = e.synthesized e.candidates names
      ∧ named = e.apply ((e.candidates.map (·.values)).zip names) := by
  obtain ⟨names, hchoose, henums, hnamed⟩ := resolve_eq_ok_iff.mp h
  exact ⟨names, choose_eq_ok hchoose, henums, hnamed⟩

/-- An inline enum is named after a candidate with its values. -/
theorem inlineEnum_named {e : EnumNaming} {names : List String}
    (hchosen : e.Chosen e.candidates names) {values : List String} {name : Option String}
    (h : InlineEnum (e.apply ((e.candidates.map (·.values)).zip names)).registry
      (e.apply ((e.candidates.map (·.values)).zip names)).operations values name) :
    ∃ c chosen, (c, chosen) ∈ e.candidates.zip names ∧ sameValues c.values values = true
      ∧ name = some chosen := by
  obtain ⟨old, hold, rfl⟩ := inlineEnum_apply h
  obtain ⟨node, hn, rfl⟩ := exists_node hold
  obtain ⟨c, chosen, hzip, hs, hname⟩ := hchosen.exists_nameOfValues (exists_candidate hn)
  exact ⟨c, chosen, hzip, hs, by rw [hname, Option.some_or]⟩

/-! ### What is exported -/

theorem isEnum_iff_exportedEnum? {d : Declaration} {name : String} {values : List String} :
    d.exportedEnum? = some (name, values)
      ↔ d.name = name ∧ ∃ assigned, d.type = .enum values assigned := by
  rw [Declaration.exportedEnum?]
  split
  · next known assigned ht => simp [ht]
  · next hne =>
    simp only [reduceCtorEq, false_iff, not_and, not_exists]
    exact fun _ assigned ht => hne values assigned ht

/-- The exported declarations keep their order. -/
theorem keys_filterMap_exportedEnum?_sublist (declarations : List Declaration) :
    (Table.keys (declarations.filterMap Declaration.exportedEnum?)).Sublist
      (declarations.map (·.name)) := by
  induction declarations with
  | nil => exact .slnil
  | cons d rest ih =>
    rw [List.map_cons]
    cases hd : d.exportedEnum? with
    | none =>
      rw [List.filterMap_cons_none hd]
      exact ih.cons _
    | some entry =>
      obtain ⟨name, values⟩ := entry
      rw [List.filterMap_cons_some hd, Table.keys_cons, ← (isEnum_iff_exportedEnum?.mp hd).1]
      exact ih.cons_cons _

variable {e : EnumNaming} {names : List String}

/-- The enums that are exported after the naming with `names`. -/
theorem exportedEnums_apply (hchosen : e.Chosen e.candidates names)
    {pairs : List (List String × String)} :
    Description.exportedEnums
      ⟨(e.apply pairs).registry, (e.apply pairs).operations, e.synthesized e.candidates names⟩
      = e.registry.values.filterMap Declaration.exportedEnum?
        ++ Chosen.fresh e e.candidates names := by
  have hsame : Declaration.exportedEnum? ∘ applyToDeclaration pairs = Declaration.exportedEnum? := by
    funext d
    by_cases hd : d.type.IsEnum
    · rw [Function.comp_apply, applyToDeclaration_of_isEnum pairs hd]
    · -- What is no enum is none with other names inside of it.
      have hafter : ¬ (applyToDeclaration pairs d).type.IsEnum := by
        rw [applyToDeclaration_of_not_isEnum pairs hd, isEnum_nameEnums_iff]
        exact hd
      rw [Function.comp_apply, Declaration.exportedEnum?_eq_none hafter,
        Declaration.exportedEnum?_eq_none hd]
  simp only [Description.exportedEnums]
  rw [values_apply, List.filterMap_map, hsame, hchosen.synthesized_eq]

/-- A declared enum is exported under its name. -/
theorem mem_exported_of_declared? (distinct : (e.registry.values.map (·.name)).Nodup) {d : Declaration}
    {name : String} {known : List String} {assigned : Option String}
    (hd : e.declared? name = some d) (ht : d.type = .enum known assigned) :
    (name, known) ∈ e.registry.values.filterMap Declaration.exportedEnum?
      ++ Chosen.fresh e e.candidates names := by
  obtain ⟨hmem, hname⟩ := (declared?_eq_some_iff distinct).mp hd
  refine List.mem_append_left _ (List.mem_filterMap.mpr ⟨d, hmem, ?_⟩)
  exact isEnum_iff_exportedEnum?.mpr ⟨hname, assigned, ht⟩

/-- A declared enum is named after its declaration, and exported. -/
theorem declared_named {registry : Registry} {operations : List Operation}
    (distinct : ((start registry operations).registry.values.map (·.name)).Nodup)
    {pairs : List (List String × String)} {x : Declaration} {values : List String}
    {assigned : Option String}
    (hx : x ∈ ((start registry operations).apply pairs).registry.values)
    (ht : x.type = .enum values assigned) :
    assigned = some x.name ∧ (start registry operations).declared? x.name = some x := by
  rw [values_apply] at hx
  obtain ⟨d, hd, rfl⟩ := List.mem_map.mp hx
  have henum : d.type.IsEnum := by
    by_contra hne
    rw [applyToDeclaration_of_not_isEnum pairs hne] at ht
    exact hne ((isEnum_nameEnums_iff pairs d.type).mp ⟨values, assigned, ht⟩)
  rw [applyToDeclaration_of_isEnum pairs henum] at ht ⊢
  refine ⟨?_, (declared?_eq_some_iff distinct).mpr ⟨hd, rfl⟩⟩
  rw [values_start] at hd
  obtain ⟨d, -, rfl⟩ := List.mem_map.mp hd
  rw [name_nameDeclared]
  exact assigned_nameDeclared ht

/-- Exported enums have different names. -/
theorem nodup_keys_exported (distinct : (e.registry.values.map (·.name)).Nodup)
    (hchosen : e.Chosen e.candidates names) :
    (Table.keys (e.registry.values.filterMap Declaration.exportedEnum?
      ++ Chosen.fresh e e.candidates names)).Nodup := by
  have hsub := keys_filterMap_exportedEnum?_sublist e.registry.values
  simp only [Table.keys, List.map_append]
  refine List.Nodup.append (distinct.sublist hsub) hchosen.nodup_keys_fresh ?_
  intro name hdeclared hnew
  obtain ⟨d, hd, hname⟩ := List.mem_map.mp (hsub.mem hdeclared)
  obtain ⟨values, hmem⟩ := Table.mem_keys_iff.mp hnew
  have hnone := (Chosen.mem_fresh_iff.mp hmem).1
  rw [(declared?_eq_some_iff distinct).mpr ⟨hd, hname⟩] at hnone
  cases hnone

/-- A candidate's name is exported with the candidate's values. -/
theorem exists_exported (distinct : (e.registry.values.map (·.name)).Nodup)
    (hchosen : e.Chosen e.candidates names) {c : EnumCandidate} {name : String}
    (hc : (c, name) ∈ e.candidates.zip names) :
    ∃ known, (name, known) ∈ e.registry.values.filterMap Declaration.exportedEnum?
      ++ Chosen.fresh e e.candidates names ∧ sameValues known c.values = true := by
  rcases List.forall₂_zip hchosen.fits hc with ⟨d, known, old, hd, ht, hs⟩ | hnone
  · exact ⟨known, mem_exported_of_declared? distinct hd ht, hs⟩
  · exact ⟨c.values, List.mem_append_right _ (Chosen.mem_fresh_iff.mpr ⟨hnone, c, hc, rfl⟩),
      sameValues_self _⟩

end EnumNaming

open EnumNaming

/-- **Named enums keep their meaning.**  Whenever names are found for the enums of declarations with
    different names and of operations, every enum has a name, and the name is exported once, with the
    values that it stands for. -/
theorem resolve_keepsMeaning {registry : Registry} {operations : List Operation}
    (distinct : (registry.values.map (·.name)).Nodup) {enums : Table String (List String)}
    {named : EnumNaming} (h : (EnumNaming.start registry operations).resolve = (.ok enums, named)) :
    NamesKeepMeaning registry operations ⟨named.registry, named.operations, enums⟩ := by
  obtain ⟨names, hchosen, rfl, rfl⟩ := resolve_eq_ok h
  have hdistinct : ((EnumNaming.start registry operations).registry.values.map (·.name)).Nodup := by
    rw [values_start, List.map_map]
    simpa [Function.comp_def] using distinct
  have hapart := candidates_apart (EnumNaming.start registry operations)
  refine ⟨?_, ?_, ?_, ?_, ?_, ?_, fun space file hfile => Output.typesFile_enums hfile⟩
  · -- The declarations are the same up to names.
    simp [apply, EnumNaming.start, List.map_map, Function.comp_def, unnamed_applyToDeclaration,
      unnamed_nameDeclared]
  · -- The operations are the same up to names.
    simp [apply, EnumNaming.start, List.map_map, Function.comp_def, unnamed_applyToOperation]
  · -- Every enum has a name.
    rintro values name (⟨x, hx, ht⟩ | hinline)
    · rw [(declared_named hdistinct hx ht).1]
      rfl
    · obtain ⟨c, chosen, -, -, rfl⟩ := inlineEnum_named hchosen hinline
      rfl
  · -- Inline enums are named after their candidates.
    intro values name values' name' hinline hinline'
    obtain ⟨c, chosen, hc, hs, rfl⟩ := inlineEnum_named hchosen hinline
    obtain ⟨c', chosen', hc', hs', rfl⟩ := inlineEnum_named hchosen hinline'
    rw [Option.some.injEq, hchosen.name_eq_iff hapart hc hc', ← sameValues_iff]
    constructor
    · exact fun hcc => sameValues_trans (sameValues_symm hs) (sameValues_trans hcc hs')
    · exact fun hvv => sameValues_trans hs (sameValues_trans hvv (sameValues_symm hs'))
  · -- Exported names are different, so it is enough that the name is exported with the values.
    intro values name hany
    have hmem : ∃ known, (name, known) ∈
        (EnumNaming.start registry operations).registry.values.filterMap Declaration.exportedEnum?
          ++ Chosen.fresh (EnumNaming.start registry operations)
            (EnumNaming.start registry operations).candidates names
        ∧ sameValues known values = true := by
      rcases hany with ⟨x, hx, ht⟩ | hinline
      · obtain ⟨hname, hd⟩ := declared_named hdistinct hx ht
        cases hname
        exact ⟨values, mem_exported_of_declared? hdistinct hd ht, sameValues_self values⟩
      · obtain ⟨c, chosen, hc, hs, hname⟩ := inlineEnum_named hchosen hinline
        cases hname
        obtain ⟨known, hknown, hsame⟩ := exists_exported hdistinct hchosen hc
        exact ⟨known, hknown, sameValues_trans hsame hs⟩
    obtain ⟨known, hknown, hs⟩ := hmem
    refine ⟨known, ?_, sameValues_iff.mp hs⟩
    rw [exportedEnums_apply hchosen]
    exact Table.filter_eq_singleton (nodup_keys_exported hdistinct hchosen) hknown
  · -- A new name is not declared.
    intro name hname x hx heq
    rw [hchosen.synthesized_eq] at hname
    obtain ⟨values, hmem⟩ := Table.mem_keys_iff.mp hname
    have hnone := (Chosen.mem_fresh_iff.mp hmem).1
    rw [values_apply] at hx
    obtain ⟨d, hd, rfl⟩ := List.mem_map.mp hx
    rw [name_applyToDeclaration] at heq
    rw [(declared?_eq_some_iff hdistinct).mpr ⟨hd, heq⟩] at hnone
    cases hnone

/-! ### A small shop

A declared enum, and inline enums of which two ask for one name and one can reuse the declared one.
-/

/-- The types of the shop, with the names of their enums. -/
def shopRegistry (color shade petStatus orderStatus : Option String) : Registry :=
  [("#/components/schemas/Color",
      ⟨"Color", "#/components/schemas/Color", .enum ["red", "green"] color⟩),
    ("#/components/schemas/Pet",
      ⟨"Pet", "#/components/schemas/Pet", .object
        [⟨"status", .enum ["old", "new"] petStatus, true⟩,
          ⟨"color", .enum ["green", "red"] shade, false⟩]⟩),
    ("#/components/schemas/Order",
      ⟨"Order", "#/components/schemas/Order", .object
        [⟨"status", .enum ["open", "paid"] orderStatus, true⟩]⟩)]

/-- An operation of the shop; its enum is written in another order. -/
def shopOperations (petStatus : Option String) : List Operation :=
  [⟨"GET", "/pets", [], [], .array (.enum ["new", "old"] petStatus)⟩]

/-- The statuses of pets and orders are told apart by names from further out, and the color of a pet has
    the declared name. -/
theorem shop_keepsMeaning :
    ((shopRegistry none none none none).values.map (·.name)).Nodup
    ∧ (EnumNaming.start (shopRegistry none none none none) (shopOperations none)).resolve
      = (.ok [("PetStatus", ["old", "new"]), ("OrderStatus", ["open", "paid"])],
        ⟨shopRegistry (some "Color") (some "Color") (some "PetStatus") (some "OrderStatus"),
          shopOperations (some "PetStatus")⟩)
    ∧ NamesKeepMeaning (shopRegistry none none none none) (shopOperations none)
      ⟨shopRegistry (some "Color") (some "Color") (some "PetStatus") (some "OrderStatus"),
        shopOperations (some "PetStatus"),
        [("PetStatus", ["old", "new"]), ("OrderStatus", ["open", "paid"])]⟩ := by
  have distinct : ((shopRegistry none none none none).values.map (·.name)).Nodup := by decide
  have resolved : (EnumNaming.start (shopRegistry none none none none)
      (shopOperations none)).resolve
      = (.ok [("PetStatus", ["old", "new"]), ("OrderStatus", ["open", "paid"])],
        ⟨shopRegistry (some "Color") (some "Color") (some "PetStatus") (some "OrderStatus"),
          shopOperations (some "PetStatus")⟩) := by rfl
  exact ⟨distinct, resolved, resolve_keepsMeaning distinct resolved⟩

end TypedClient
