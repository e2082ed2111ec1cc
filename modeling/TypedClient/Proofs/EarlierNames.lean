import Mathlib
import TypedClient.Proofs.NamedEnums

namespace TypedClient

open ClientType

/-!
# Naming enums that have names already

The enums of a description are named after it has been read, and a description can be read again.  Here it is
shown that the choice of names does not look at the names that are there: what it sees of an enum are its
values and the names on the way to it, and what it sees of a declaration has nothing to do with the enums inside.

* `EnumNode.shape`, `EnumCandidate.shape` — what the choice of a name sees.
* `EnumNaming.Alike` — two states of naming that differ in nothing but the names that enums have.
* `EnumNaming.Alike.choose_eq` — the same names are chosen for them.
* `EnumNaming.resolve_unnamed` — and every declaration is given the same names.
-/

namespace ClientType

/-- What the choice of a name sees of an enum: its values and the names on the way to it. -/
def EnumNode.shape (node : EnumNode) : List String × List String :=
  (node.values, node.path)

/-- The walk over the enums of a type meets the same values on the same ways, however they are named. -/
theorem shapes_enumNodes_unnamed (path : List String) (type : ClientType) :
    (type.unnamed.enumNodes path).map EnumNode.shape = (type.enumNodes path).map EnumNode.shape := by
  unfold unnamed
  induction type generalizing path with
  | string | number | boolean | void | enum | freeFormMap | ref => rfl
  | array element ih => exact ih path
  | map element ih => exact ih path
  | object fields ih =>
    rw [mapNodes_object, enumNodes, enumNodes, enumNodesOfFields_eq_flatMap, enumNodesOfFields_eq_flatMap,
      List.flatMap_map, List.map_flatMap, List.map_flatMap]
    exact List.flatMap_congr fun f hf => ih f hf _
  | composition parts ih =>
    rw [mapNodes_composition, enumNodes, enumNodes, enumNodesOfAll_eq_flatMap, enumNodesOfAll_eq_flatMap,
      List.flatMap_map, List.map_flatMap, List.map_flatMap]
    exact List.flatMap_congr fun part hp => ih part hp path
  | union members tag mapping shared tagType ihm ihs =>
    have hmembers : (members.map (mapNodes (fun _ _ => none) id)).flatMap
          (fun member => (enumNodes path member).map EnumNode.shape)
        = members.flatMap fun member => (enumNodes path member).map EnumNode.shape := by
      rw [List.flatMap_map]
      exact List.flatMap_congr fun member hm => ihm member hm path
    rw [mapNodes_union, enumNodes_union, enumNodes_union, List.map_append, List.map_append, List.map_flatMap,
      List.map_flatMap, List.map_flatMap, List.map_flatMap, hmembers]
    cases shared with
    | none => rfl
    | some fields =>
      have hs := ihs fields rfl path
      rw [mapNodes_object] at hs
      simp only [Option.map_some, Option.toList_some, List.flatMap_singleton, hs]

/-- A name that every enum of a type gets does not depend on the names that were there. -/
theorem nameEnums_unnamed {names : List (List String × String)} {type : ClientType}
    (h : ∀ values old, Inside (.enum values old) type → (nameOfValues names values).isSome) :
    type.unnamed.nameEnums names = type.nameEnums names := by
  rw [nameEnums_eq_mapNodes, nameEnums_eq_mapNodes, unnamed, mapNodes_mapNodes]
  refine mapNodes_congr fun values old hin => ?_
  obtain ⟨name, hname⟩ := Option.isSome_iff_exists.mp (h values old hin)
  rw [hname]
  rfl

@[simp] theorem unnamed_unnamed (type : ClientType) : type.unnamed.unnamed = type.unnamed :=
  mapNodes_mapNodes type

end ClientType

@[simp] theorem Declaration.unnamed_unnamed (d : Declaration) : d.unnamed.unnamed = d.unnamed := by
  simp [Declaration.unnamed]

theorem Declaration.exportedEnum?_unnamed (d : Declaration) : d.unnamed.exportedEnum? = d.exportedEnum? := by
  obtain ⟨name, key, type⟩ := d
  cases type with
  | union members tag mapping shared tagType => cases shared <;> rfl
  | _ => rfl

/-- What the choice of a name sees of a candidate: its values and the names on the way to its first enum. -/
def EnumCandidate.shape (c : EnumCandidate) : List String × List String :=
  (c.values, c.path)

namespace EnumNaming

/-- Two states of naming that differ in nothing but the names that enums have already. -/
structure Alike (e e' : EnumNaming) : Prop where
  operations_eq : e.operations.map Operation.unnamed = e'.operations.map Operation.unnamed
  values_eq : e.registry.values.map Declaration.unnamed = e'.registry.values.map Declaration.unnamed

/-! #### Candidates -/

theorem shapes_addCandidate {candidates candidates' : List EnumCandidate} {node node' : EnumNode}
    (h : candidates.map EnumCandidate.shape = candidates'.map EnumCandidate.shape)
    (hnode : node.shape = node'.shape) :
    (addCandidate candidates node).map EnumCandidate.shape
      = (addCandidate candidates' node').map EnumCandidate.shape := by
  obtain ⟨hvalues, hpath⟩ := Prod.mk.inj hnode
  induction candidates generalizing candidates' with
  | nil =>
    rw [List.map_nil, eq_comm, List.map_eq_nil_iff] at h
    subst h
    simp [addCandidate, EnumCandidate.shape, hvalues, hpath]
  | cons c rest ih =>
    cases candidates' with
    | nil => cases h
    | cons c' rest' =>
      obtain ⟨hfirst, hrest⟩ := List.cons.inj h
      -- Both lists decide in the same way whether the enum belongs to their first candidate.
      have hc : c.values = c'.values := congrArg Prod.fst hfirst
      rw [addCandidate, addCandidate, hc, hvalues]
      split
      · have hpaths : c.path = c'.path := congrArg Prod.snd hfirst
        rw [List.map_cons, List.map_cons, hrest, EnumCandidate.shape, hpaths]
        rfl
      · rw [List.map_cons, List.map_cons, hfirst, ih hrest]

/-- Enums that look alike make candidates that look alike. -/
theorem shapes_foldl_addCandidate {nodes nodes' : List EnumNode}
    (h : nodes.map EnumNode.shape = nodes'.map EnumNode.shape) {candidates candidates' : List EnumCandidate}
    (hc : candidates.map EnumCandidate.shape = candidates'.map EnumCandidate.shape) :
    (nodes.foldl addCandidate candidates).map EnumCandidate.shape
      = (nodes'.foldl addCandidate candidates').map EnumCandidate.shape := by
  induction nodes generalizing nodes' candidates candidates' with
  | nil =>
    rw [List.map_nil, eq_comm, List.map_eq_nil_iff] at h
    subst h
    exact hc
  | cons node rest ih =>
    cases nodes' with
    | nil => cases h
    | cons node' rest' =>
      obtain ⟨hfirst, hrest⟩ := List.cons.inj h
      exact ih hrest (shapes_addCandidate hc hfirst)

theorem shapes_nodesOfDeclaration (d : Declaration) :
    (nodesOfDeclaration d.unnamed).map EnumNode.shape = (nodesOfDeclaration d).map EnumNode.shape := by
  obtain ⟨name, key, type⟩ := d
  cases type with
  | enum values assigned => rfl
  | union members tag mapping shared tagType =>
    cases shared <;> exact shapes_enumNodes_unnamed [name] _
  | _ => exact shapes_enumNodes_unnamed [name] _

theorem shapes_nodesOfOperation (name : String) (o : Operation) :
    (nodesOfOperation name o.unnamed).map EnumNode.shape = (nodesOfOperation name o).map EnumNode.shape := by
  simp only [nodesOfOperation, Operation.unnamed, List.map_append, List.map_flatMap, List.flatMap_map,
    shapes_enumNodes_unnamed]

/-- The enums are walked in the declarations, and then in the operations under their names. -/
theorem nodes_eq (e : EnumNaming) :
    e.nodes = e.registry.values.flatMap nodesOfDeclaration
      ++ (e.operationNames.zip e.operations).flatMap fun entry => nodesOfOperation entry.1 entry.2 :=
  rfl

namespace Alike

variable {e e' : EnumNaming}

theorem operationNames_eq (h : e.Alike e') : e.operationNames = e'.operationNames := by
  have hnames : ∀ e : EnumNaming, (e.operations.map fun o => Naming.operation o.method o.route)
      = (e.operations.map Operation.unnamed).map fun o => Naming.operation o.method o.route := by
    intro e
    rw [List.map_map]
    rfl
  rw [operationNames, operationNames, hnames, hnames, h.operations_eq]

theorem shapes_nodes (h : e.Alike e') : e.nodes.map EnumNode.shape = e'.nodes.map EnumNode.shape := by
  have hshapes : ∀ registry : Registry,
      (registry.values.flatMap nodesOfDeclaration).map EnumNode.shape
        = (registry.values.map Declaration.unnamed).flatMap
          fun d => (nodesOfDeclaration d).map EnumNode.shape := by
    intro registry
    rw [List.map_flatMap, List.flatMap_map]
    exact List.flatMap_congr fun d _ => (shapes_nodesOfDeclaration d).symm
  have hoperations : ∀ e : EnumNaming,
      ((e.operationNames.zip e.operations).flatMap fun entry => nodesOfOperation entry.1 entry.2).map EnumNode.shape
        = (e.operationNames.zip (e.operations.map Operation.unnamed)).flatMap
          fun entry => (nodesOfOperation entry.1 entry.2).map EnumNode.shape := by
    intro e
    rw [List.map_flatMap, List.zip_map_right, List.flatMap_map]
    exact List.flatMap_congr fun entry _ => (shapes_nodesOfOperation entry.1 entry.2).symm
  rw [nodes_eq, nodes_eq, List.map_append, List.map_append, hshapes, hshapes, hoperations, hoperations, h.values_eq,
    h.operationNames_eq, h.operations_eq]

theorem shapes_candidates (h : e.Alike e') :
    e.candidates.map EnumCandidate.shape = e'.candidates.map EnumCandidate.shape :=
  shapes_foldl_addCandidate h.shapes_nodes rfl

/-! #### Choosing -/

/-- What is declared under a name differs in nothing but the names of enums. -/
theorem declared?_unnamed (h : e.Alike e') (name : String) :
    (e.declared? name).map Declaration.unnamed = (e'.declared? name).map Declaration.unnamed := by
  have hunnamed : ∀ e : EnumNaming, (e.declared? name).map Declaration.unnamed
      = (Table.ofList ((e.registry.values.map Declaration.unnamed).map fun d => (d.name, d))).get? name := by
    intro e
    rw [declared?, ← Table.get?_map_values, ← Table.ofList_map_values, List.map_map, List.map_map]
    rfl
  rw [hunnamed, hunnamed, h.values_eq]

end Alike

/-- A declared name is taken if it is the name of an enum with the values, and passed over otherwise. -/
theorem pickFrom_cons_of_declared {e : EnumNaming} {name : String} {d : Declaration}
    (hd : e.declared? name = some d) (values rest : List String) (claims : Claims) :
    e.pickFrom values (name :: rest) claims
      = if d.exportedEnum?.any fun x => sameValues x.2 values then (some name, claims)
        else e.pickFrom values rest claims := by
  obtain ⟨own, key, type⟩ := d
  rw [pickFrom, hd]
  cases type <;> rfl

namespace Alike

variable {e e' : EnumNaming}

theorem pickFrom_eq (h : e.Alike e') (values names : List String) (claims : Claims) :
    e.pickFrom values names claims = e'.pickFrom values names claims := by
  induction names generalizing claims with
  | nil => rfl
  | cons name rest ih =>
    have hunnamed := h.declared?_unnamed name
    cases hd : e.declared? name with
    | none =>
      -- The name is free in both, and what is done with it depends on the claims alone.
      rw [hd, Option.map_none, eq_comm, Option.map_eq_none_iff] at hunnamed
      rw [pickFrom, pickFrom, hd, hunnamed]
      simp only [ih]
    | some d =>
      rw [hd, Option.map_some, eq_comm, Option.map_eq_some_iff] at hunnamed
      obtain ⟨d', hd', hsame⟩ := hunnamed
      have hexported : d.exportedEnum? = d'.exportedEnum? := by
        rw [← d.exportedEnum?_unnamed, ← hsame, d'.exportedEnum?_unnamed]
      rw [pickFrom_cons_of_declared hd, pickFrom_cons_of_declared hd', hexported, ih]

theorem pickAll_eq (h : e.Alike e') {candidates candidates' : List EnumCandidate}
    (hc : candidates.map EnumCandidate.shape = candidates'.map EnumCandidate.shape) (claims : Claims) :
    e.pickAll candidates claims = e'.pickAll candidates' claims := by
  induction candidates generalizing candidates' claims with
  | nil =>
    rw [List.map_nil, eq_comm, List.map_eq_nil_iff] at hc
    subst hc
    rfl
  | cons c rest ih =>
    cases candidates' with
    | nil => cases hc
    | cons c' rest' =>
      obtain ⟨hfirst, hrest⟩ := List.cons.inj hc
      obtain ⟨hvalues, hpath⟩ := Prod.mk.inj hfirst
      -- The names of a candidate depend on nothing but its way.
      have hnames : c.names = c'.names := by
        rw [EnumCandidate.names, EnumCandidate.names, hpath]
        unfold EnumCandidate.nameAt
        rw [hpath]
      have hpick : ∀ claims, e.pick c claims = e'.pick c' claims := by
        intro claims
        rw [pick, pick, hvalues, hnames, hpath, h.pickFrom_eq]
      rw [pickAll, pickAll, hpick]
      simp only [fun claims => ih hrest claims]

theorem settle_eq (h : e.Alike e') {candidates candidates' : List EnumCandidate}
    (hc : candidates.map EnumCandidate.shape = candidates'.map EnumCandidate.shape) (fuel : Nat)
    (collisions : List String) :
    e.settle candidates fuel collisions = e'.settle candidates' fuel collisions := by
  have hpass : ∀ collisions, e.pass candidates collisions = e'.pass candidates' collisions := by
    intro collisions
    rw [pass, pass, h.pickAll_eq hc]
  induction fuel generalizing collisions with
  | zero => exact hpass collisions
  | succ fuel ih =>
    rw [settle, settle, hpass]
    simp only [ih]

theorem choose_eq (h : e.Alike e') : e.choose = e'.choose := by
  have hpaths : ∀ e : EnumNaming, (e.candidates.flatMap fun c => c.path)
      = (e.candidates.map EnumCandidate.shape).flatMap Prod.snd := by
    intro e
    rw [List.flatMap_map]
    rfl
  rw [choose, choose, h.settle_eq h.shapes_candidates, hpaths, hpaths, h.shapes_candidates]

/-- The new enums have the same names and the same values. -/
theorem synthesized_eq (h : e.Alike e') (names : List String) :
    e.synthesized e.candidates names = e'.synthesized e'.candidates names := by
  have hdeclared : ∀ name, (e.declared? name).isSome = (e'.declared? name).isSome := by
    intro name
    rw [← Option.isSome_map, h.declared?_unnamed, Option.isSome_map]
  have hfold : ∀ e : EnumNaming, e.synthesized e.candidates names
      = ((e.candidates.map EnumCandidate.shape).zip names).foldl
        (fun enums (shape, name) =>
          if (e.declared? name).isSome then enums else Table.put enums name shape.1) [] := by
    intro e
    rw [synthesized, List.zip_map_left, List.foldl_map]
    rfl
  rw [hfold, hfold, h.shapes_candidates]
  simp only [hdeclared]

theorem values_candidates (h : e.Alike e') :
    e.candidates.map (·.values) = e'.candidates.map (·.values) := by
  have hvalues : ∀ candidates : List EnumCandidate,
      candidates.map (·.values) = (candidates.map EnumCandidate.shape).map Prod.fst := by
    intro candidates
    rw [List.map_map]
    rfl
  rw [hvalues, hvalues, h.shapes_candidates]

end Alike

/-! #### The names that are given -/

theorem isEnum_unnamed_iff {type : ClientType} : type.unnamed.IsEnum ↔ type.IsEnum := by
  cases type with
  | enum values assigned => exact ⟨fun _ => ⟨_, _, rfl⟩, fun _ => ⟨_, _, rfl⟩⟩
  | union members tag mapping shared tagType => cases shared <;> simp [IsEnum, unnamed, mapNodes]
  | _ => simp [IsEnum, unnamed, mapNodes]

theorem nameDeclared_of_not_isEnum {d : Declaration} (h : ¬ d.type.IsEnum) : nameDeclared d = d := by
  unfold nameDeclared
  split
  · next values assigned htype => exact absurd ⟨values, assigned, htype⟩ h
  · rfl

/-- A declaration gets the same names from the start and after it has had names, if every enum inside of it gets
    one. -/
theorem applyToDeclaration_unnamed {pairs : List (List String × String)} {d : Declaration}
    (h : ¬ d.type.IsEnum → ∀ values old, Inside (.enum values old) d.type →
      (nameOfValues pairs values).isSome) :
    applyToDeclaration pairs (nameDeclared d.unnamed) = applyToDeclaration pairs (nameDeclared d) := by
  by_cases henum : d.type.IsEnum
  · -- A declared enum is named after its declaration, whatever it was called.
    obtain ⟨name, key, type⟩ := d
    obtain ⟨values, assigned, rfl⟩ := henum
    rfl
  · have hunnamed : ¬ d.unnamed.type.IsEnum := fun hd => henum (isEnum_unnamed_iff.mp hd)
    rw [nameDeclared_of_not_isEnum henum, nameDeclared_of_not_isEnum hunnamed,
      applyToDeclaration_of_not_isEnum pairs henum, applyToDeclaration_of_not_isEnum pairs hunnamed]
    have htype : d.unnamed.type.nameEnums pairs = d.type.nameEnums pairs := nameEnums_unnamed (h henum)
    rw [htype]
    rfl

end EnumNaming

/-- Declarations without the names of the enums inside of them. -/
def Registry.unnamed (registry : Registry) : Registry :=
  registry.map fun (key, d) => (key, d.unnamed)

theorem Registry.keys_unnamed (registry : Registry) : registry.unnamed.keys = registry.keys := by
  simp [Registry.unnamed, Table.keys, Function.comp_def]

theorem Registry.values_unnamed (registry : Registry) :
    registry.unnamed.values = registry.values.map Declaration.unnamed := by
  simp [Registry.unnamed, Table.values, Function.comp_def]

namespace EnumNaming

variable {registry : Registry} {operations : List Operation}

theorem start_alike (registry : Registry) (operations : List Operation) :
    (start registry.unnamed operations).Alike (start registry operations) where
  operations_eq := rfl
  values_eq := by
    rw [values_start, values_start, Registry.values_unnamed]
    simp [Function.comp_def, unnamed_nameDeclared]

/-- Every enum inside of a declaration gets a name. -/
theorem isSome_nameOfValues {names : List String} (h : (start registry operations).choose.1 = .ok names)
    {d : Declaration} (hd : d ∈ registry.values) (henum : ¬ d.type.IsEnum) {values : List String}
    {old : Option String} (hin : Inside (.enum values old) d.type) :
    (nameOfValues (((start registry operations).candidates.map (·.values)).zip names) values).isSome := by
  have hvalues : d ∈ (start registry operations).registry.values := by
    rw [values_start, List.mem_map]
    exact ⟨d, hd, nameDeclared_of_not_isEnum henum⟩
  obtain ⟨node, hnode, rfl⟩ := exists_node (.inl ⟨d, hvalues, henum, hin⟩)
  obtain ⟨c, name, -, -, hname⟩ := (choose_eq_ok h).exists_nameOfValues (exists_candidate hnode)
  rw [hname]
  rfl

/-- **Names do not depend on earlier names.**  If names are found for declarations whose enums have no names, the
    same names are found, and given, when enums have names already. -/
theorem resolve_unnamed {enums : Table String (List String)} {named : EnumNaming}
    (h : (start registry.unnamed operations).resolve = (.ok enums, named)) :
    (start registry operations).resolve = (.ok enums, named) := by
  have halike := start_alike registry operations
  obtain ⟨names, hchoose, rfl, rfl⟩ := resolve_eq_ok_iff.mp h
  rw [halike.choose_eq] at hchoose
  -- The names of before are overwritten, as every enum gets one.
  have happly : (start registry.unnamed operations).apply
        (((start registry operations).candidates.map (·.values)).zip names)
      = (start registry operations).apply
        (((start registry operations).candidates.map (·.values)).zip names) := by
    refine congrArg (EnumNaming.mk · _) ?_
    simp only [start, Registry.unnamed, List.map_map]
    refine List.map_congr_left fun entry hentry => ?_
    obtain ⟨key, d⟩ := entry
    have hd : d ∈ registry.values := Table.mem_values_iff.mpr ⟨key, hentry⟩
    refine congrArg (Prod.mk key) (applyToDeclaration_unnamed ?_)
    exact fun henum values old hin => isSome_nameOfValues hchoose hd henum hin
  rw [halike.synthesized_eq, halike.values_candidates, happly]
  exact resolve_eq_ok_iff.mpr ⟨names, hchoose, rfl, rfl⟩

end EnumNaming

end TypedClient
