import TypedClient.Proofs.FreshNames
import TypedClient.Proofs.NamedEnums

namespace TypedClient

/-!
# The names of the operations

The enums inside of an operation are met on paths that begin with the name of the operation.  Routes that differ in
punctuation only would give their operations one name, so the names are given one after the other.

* `ClientType.prefix_path_of_mem_enumNodes` — an enum is met behind the names that lead to its type.
* `EnumNaming.head?_path_of_mem_nodesOfOperation` — the root of an enum inside of an operation.
* `EnumNaming.operations_rooted` — every operation has a root of its own.
-/

namespace ClientType

/-- The path of an enum goes on where the path to the type ends. -/
theorem prefix_path_of_mem_enumNodes {type : ClientType} {path : List String} {node : EnumNode}
    (h : node ∈ type.enumNodes path) : path <+: node.path := by
  induction type generalizing path with
  | string | number | boolean | void | freeFormMap | ref => simp [enumNodes] at h
  | enum values assigned =>
    rw [enumNodes, List.mem_singleton] at h
    rw [h]
  | array element ih => exact ih h
  | map element ih => exact ih h
  | object fields ih =>
    rw [enumNodes, enumNodesOfFields_eq_flatMap] at h
    obtain ⟨f, hf, h⟩ := List.mem_flatMap.mp h
    -- A field puts its own name behind the path.
    exact (List.prefix_append path [f.name]).trans (ih f hf h)
  | composition parts ih =>
    rw [enumNodes, enumNodesOfAll_eq_flatMap] at h
    obtain ⟨part, hpart, h⟩ := List.mem_flatMap.mp h
    exact ih part hpart h
  | union members tag mapping shared tagType ihm ihs =>
    rw [enumNodes_union] at h
    rcases List.mem_append.mp h with h | h
    · obtain ⟨type, htype, h⟩ := List.mem_flatMap.mp h
      obtain ⟨fields, rfl, rfl⟩ := Option.map_eq_some_iff.mp (Option.mem_toList.mp htype)
      exact ihs fields rfl h
    · obtain ⟨member, hmember, h⟩ := List.mem_flatMap.mp h
      exact ihm member hmember h

end ClientType

namespace EnumNaming

/-- Enums inside of an operation are met behind the name of the operation. -/
theorem head?_path_of_mem_nodesOfOperation {name : String} {o : Operation} {node : ClientType.EnumNode}
    (h : node ∈ nodesOfOperation name o) : node.path.head? = some name := by
  have hroot : ∀ (type : ClientType) (segment : String), node ∈ type.enumNodes [name, segment] →
      node.path.head? = some name := by
    intro type segment hnode
    obtain ⟨rest, hpath⟩ := ClientType.prefix_path_of_mem_enumNodes hnode
    rw [← hpath]
    rfl
  rw [nodesOfOperation, List.mem_append, List.mem_append, List.mem_flatMap, List.mem_flatMap] at h
  rcases h with (⟨p, -, h⟩ | ⟨type, -, h⟩) | h
  · exact hroot p.type p.name h
  · exact hroot type "Body" h
  · exact hroot o.result "Result" h

/-- **Every operation has a root of its own.**  The searches for the names of the operations end.  They give one
    name to each operation, in order and no name twice: the name that its method and route ask for, or this name with
    the least number from two on that makes it new.  The walk over the enums takes the operations with these names,
    leaves none out, and meets the enums of an operation behind its name. -/
theorem operations_rooted (e : EnumNaming) :
    (∀ found, Naming.Searches [] (e.operations.map fun o => Naming.operation o.method o.route) found
        ↔ found = e.operationNames)
      ∧ e.operationNames.length = e.operations.length
      ∧ e.operationNames.Nodup
      ∧ (e.operationNames.zip e.operations).map Prod.snd = e.operations
      ∧ ∀ (i : Nat) (o : Operation), e.operations[i]? = some o → ∃ name,
        e.operationNames[i]? = some name
          ∧ Naming.NextName (e.operationNames.take i) (Naming.operation o.method o.route) name
          ∧ (e.operationNames.zip e.operations)[i]? = some (name, o)
          ∧ ∀ node ∈ nodesOfOperation name o, node ∈ e.nodes ∧ node.path.head? = some name := by
  have hlength := length_operationNames e
  refine ⟨fun _ => Naming.searches_iff, hlength, (Naming.nodup_freshAll [] _).1,
    List.map_snd_zip (Nat.le_of_eq hlength.symm), fun i o ho => ?_⟩
  obtain ⟨hi, -⟩ := List.getElem?_eq_some_iff.mp ho
  obtain ⟨name, hname⟩ : ∃ name, e.operationNames[i]? = some name :=
    ⟨_, List.getElem?_eq_getElem (by omega)⟩
  have hpair : (e.operationNames.zip e.operations)[i]? = some (name, o) :=
    List.getElem?_zip_eq_some.mpr ⟨hname, ho⟩
  refine ⟨name, hname, ?_, hpair, fun node hnode => ⟨?_, head?_path_of_mem_nodesOfOperation hnode⟩⟩
  · refine Naming.nextName_of_getElem? ?_ hname
    rw [List.getElem?_map, ho]
    rfl
  · exact List.mem_append_right _ (List.mem_flatMap.mpr ⟨_, List.mem_of_getElem? hpair, hnode⟩)

/-- Three routes: the first two ask for one name, and the third one asks for the name that is made for the second. -/
def dashedRoutes : EnumNaming :=
  start [] (["/a-b", "/a_b", "/a-b2"].map fun route => ⟨"GET", route, [], [], .enum ["on", "off"] none⟩)

/-- The third operation gets a name that nobody else has. -/
theorem dashedRoutes_rooted :
    dashedRoutes.operations[2]? = some ⟨"GET", "/a-b2", [], [], .enum ["on", "off"] none⟩
      ∧ dashedRoutes.operationNames = ["GetAB", "GetAB2", "GetAB22"] ∧ dashedRoutes.operationNames.Nodup
      ∧ ∃ name, dashedRoutes.operationNames[2]? = some name
        ∧ Naming.NextName ["GetAB", "GetAB2"] "GetAB2" name
        ∧ ∀ node ∈ nodesOfOperation name ⟨"GET", "/a-b2", [], [], .enum ["on", "off"] none⟩,
          node ∈ dashedRoutes.nodes ∧ node.path.head? = some name := by
  obtain ⟨-, -, hnodup, -, hall⟩ := operations_rooted dashedRoutes
  have hthird : dashedRoutes.operations[2]? = some ⟨"GET", "/a-b2", [], [], .enum ["on", "off"] none⟩ := rfl
  have hnames : dashedRoutes.operationNames = ["GetAB", "GetAB2", "GetAB22"] := by decide +kernel
  have hasked : Naming.operation "GET" "/a-b2" = "GetAB2" := by decide +kernel
  obtain ⟨name, hname, hnext, -, hnodes⟩ := hall 2 _ hthird
  rw [hnames, hasked] at hnext
  exact ⟨hthird, hnames, hnodup, name, hname, hnext, hnodes⟩

end EnumNaming

end TypedClient
