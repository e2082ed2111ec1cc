import TypedClient.ClientType.Enums

namespace TypedClient.ClientType

/-!
# The nodes of a type

A type is a tree: elements, fields, parts, members and shared fields are types themselves.  This file
gives the tree its induction principle and its nodes, and one map over all nodes that the different
passes over types are instances of.

* `ClientType.induct`, `ClientType.inductFields` — induction over a type, with a hypothesis for every field,
  part and member.
* `Inside inner outer` — `inner` is a node of `outer`.
* `mapNodes` — new names for the enums and new keys for the references of a type; `nameEnums` is one.
* `Inside.mapNodes`, `Inside.of_mapNodes` — the nodes of a mapped type are the mapped nodes.
* `exists_enumNode_iff` — the walk over the enums of a type meets every enum node.
-/

/-! ### Induction -/

/-- The type of a field is smaller than the fields. -/
theorem sizeOf_type_lt_of_mem {f : Field ClientType} {fields : List (Field ClientType)}
    (h : f ∈ fields) : sizeOf f.type < sizeOf fields := by
  have hf := List.sizeOf_lt_of_mem h
  cases f
  simp only [Field.mk.sizeOf_spec] at hf ⊢
  omega

/-- Induction over a type.  The shared fields of a union count as an object of their own. -/
@[elab_as_elim, induction_eliminator]
theorem induct {P : ClientType → Prop}
    (string : P .string) (number : P .number) (boolean : P .boolean) (void : P .void)
    (enum : ∀ values name, P (.enum values name))
    (array : ∀ element, P element → P (.array element))
    (map : ∀ element, P element → P (.map element))
    (freeFormMap : P .freeFormMap)
    (object : ∀ fields, (∀ f ∈ fields, P f.type) → P (.object fields))
    (composition : ∀ parts, (∀ part ∈ parts, P part) → P (.composition parts))
    (ref : ∀ target, P (.ref target))
    (union : ∀ members tag mapping shared tagType, (∀ member ∈ members, P member) →
      (∀ fields, shared = some fields → P (.object fields)) →
      P (.union members tag mapping shared tagType))
    (type : ClientType) : P type := by
  -- Strong induction on the size: fields and members stand inside of lists.
  induction hn : sizeOf type using Nat.strongRecOn generalizing type with
  | ind n ih =>
    subst hn
    cases type with
    | string => exact string
    | number => exact number
    | boolean => exact boolean
    | void => exact void
    | enum values name => exact enum values name
    | array element => exact array element (ih _ (by simp) element rfl)
    | map element => exact map element (ih _ (by simp) element rfl)
    | freeFormMap => exact freeFormMap
    | object fields =>
      refine object fields fun f hf => ih _ ?_ f.type rfl
      have := sizeOf_type_lt_of_mem hf
      simp only [ClientType.object.sizeOf_spec]
      omega
    | composition parts =>
      refine composition parts fun part hp => ih _ ?_ part rfl
      have := List.sizeOf_lt_of_mem hp
      simp only [ClientType.composition.sizeOf_spec]
      omega
    | ref target => exact ref target
    | union members tag mapping shared tagType =>
      refine union members tag mapping shared tagType (fun member hm => ih _ ?_ member rfl)
        (fun fields hs => ih _ ?_ (.object fields) rfl)
      · have := List.sizeOf_lt_of_mem hm
        simp only [ClientType.union.sizeOf_spec]
        omega
      · subst hs
        simp only [ClientType.object.sizeOf_spec, ClientType.union.sizeOf_spec, Option.some.sizeOf_spec]
        omega

/-- Induction over a type in which the fields of an object and the shared fields of a union are types of
    their own. -/
theorem inductFields {P : ClientType → Prop}
    (string : P .string) (number : P .number) (boolean : P .boolean) (void : P .void)
    (enum : ∀ values name, P (.enum values name))
    (array : ∀ element, P element → P (.array element))
    (map : ∀ element, P element → P (.map element))
    (freeFormMap : P .freeFormMap)
    (object : ∀ fields, (∀ f ∈ fields, P f.type) → P (.object fields))
    (composition : ∀ parts, (∀ part ∈ parts, P part) → P (.composition parts))
    (ref : ∀ target, P (.ref target))
    (union : ∀ members tag mapping shared tagType, (∀ member ∈ members, P member) →
      (∀ fields, shared = some fields → ∀ f ∈ fields, P f.type) →
      P (.union members tag mapping shared tagType))
    (type : ClientType) : P type := by
  -- The fields of an object are kept beside the object, for a union that has the object inside of it.
  suffices hboth : P type ∧ ∀ fields, type = .object fields → ∀ f ∈ fields, P f.type from hboth.1
  induction type with
  | string => exact ⟨string, nofun⟩
  | number => exact ⟨number, nofun⟩
  | boolean => exact ⟨boolean, nofun⟩
  | void => exact ⟨void, nofun⟩
  | enum values name => exact ⟨enum values name, nofun⟩
  | array element ih => exact ⟨array element ih.1, nofun⟩
  | map element ih => exact ⟨map element ih.1, nofun⟩
  | freeFormMap => exact ⟨freeFormMap, nofun⟩
  | object fields ih =>
    refine ⟨object fields fun f hf => (ih f hf).1, ?_⟩
    rintro _ ⟨⟩ f hf
    exact (ih f hf).1
  | composition parts ih => exact ⟨composition parts fun part hp => (ih part hp).1, nofun⟩
  | ref target => exact ⟨ref target, nofun⟩
  | union members tag mapping shared tagType ihm ihs =>
    refine ⟨union members tag mapping shared tagType (fun member hm => (ihm member hm).1) ?_, nofun⟩
    exact fun fields hs => (ihs fields hs).2 fields rfl

/-! ### Nodes -/

/-- `inner` is a node of a type: the type itself or a node of one of its pieces.  The shared fields of
    a union are an object in it, and the type of its tag is a reference in it. -/
inductive Inside (inner : ClientType) : ClientType → Prop
  | here : Inside inner inner
  | element {element} : Inside inner element → Inside inner (.array element)
  | value {element} : Inside inner element → Inside inner (.map element)
  | field {fields} {f : Field ClientType} :
      f ∈ fields → Inside inner f.type → Inside inner (.object fields)
  | part {parts part} : part ∈ parts → Inside inner part → Inside inner (.composition parts)
  | member {members tag mapping shared tagType member} :
      member ∈ members → Inside inner member →
      Inside inner (.union members tag mapping shared tagType)
  | shared {members tag mapping fields tagType} :
      Inside inner (.object fields) →
      Inside inner (.union members tag mapping (some fields) tagType)
  | tagType {members tag mapping shared key} :
      inner = .ref key → Inside inner (.union members tag mapping shared (some key))

/-- A node of a node is a node. -/
theorem Inside.trans {inner node outer : ClientType} (h : Inside inner node) (houter : Inside node outer) :
    Inside inner outer := by
  induction houter with
  | here => exact h
  | element _ ih => exact .element ih
  | value _ ih => exact .value ih
  | field hf _ ih => exact .field hf ih
  | part hp _ ih => exact .part hp ih
  | member hm _ ih => exact .member hm ih
  | shared _ ih => exact .shared ih
  | tagType hnode =>
    subst hnode
    cases h
    exact .tagType rfl

/-! ### References -/

section References

variable {target : String}

@[simp] theorem inside_ref_enum {values : List String} {name : Option String} :
    ¬ Inside (.ref target) (.enum values name) := nofun

@[simp] theorem inside_ref_string : ¬ Inside (.ref target) .string := nofun

@[simp] theorem inside_ref_number : ¬ Inside (.ref target) .number := nofun

@[simp] theorem inside_ref_boolean : ¬ Inside (.ref target) .boolean := nofun

@[simp] theorem inside_ref_void : ¬ Inside (.ref target) .void := nofun

@[simp] theorem inside_ref_freeFormMap : ¬ Inside (.ref target) .freeFormMap := nofun

@[simp] theorem inside_ref_ref {key : String} : Inside (.ref target) (.ref key) ↔ target = key := by
  constructor
  · intro h
    cases h
    rfl
  · rintro rfl
    exact .here

@[simp] theorem inside_ref_array {element : ClientType} :
    Inside (.ref target) (.array element) ↔ Inside (.ref target) element := by
  refine ⟨fun h => ?_, .element⟩
  cases h
  assumption

@[simp] theorem inside_ref_map {element : ClientType} :
    Inside (.ref target) (.map element) ↔ Inside (.ref target) element := by
  refine ⟨fun h => ?_, .value⟩
  cases h
  assumption

@[simp] theorem inside_ref_object {fields : List (Field ClientType)} :
    Inside (.ref target) (.object fields) ↔ ∃ f ∈ fields, Inside (.ref target) f.type := by
  refine ⟨fun h => ?_, fun ⟨f, hf, h⟩ => .field hf h⟩
  cases h with
  | field hf h => exact ⟨_, hf, h⟩

@[simp] theorem inside_ref_composition {parts : List ClientType} :
    Inside (.ref target) (.composition parts) ↔ ∃ part ∈ parts, Inside (.ref target) part := by
  refine ⟨fun h => ?_, fun ⟨part, hp, h⟩ => .part hp h⟩
  cases h with
  | part hp h => exact ⟨_, hp, h⟩

/-- The references of a union stand in its members, in its shared fields, and at its tag. -/
theorem inside_ref_union {members : List ClientType} {tag : Option String}
    {mapping : Table String String} {shared : Option (List (Field ClientType))}
    {tagType : Option String} :
    Inside (.ref target) (.union members tag mapping shared tagType)
      ↔ (∃ member ∈ members, Inside (.ref target) member)
        ∨ (∃ fields, shared = some fields ∧ ∃ f ∈ fields, Inside (.ref target) f.type)
        ∨ tagType = some target := by
  constructor
  · intro h
    cases h with
    | member hm h => exact .inl ⟨_, hm, h⟩
    | shared h => exact .inr (.inl ⟨_, rfl, inside_ref_object.mp h⟩)
    | tagType h =>
      cases h
      exact .inr (.inr rfl)
  · rintro (⟨member, hm, h⟩ | ⟨fields, rfl, h⟩ | rfl)
    · exact .member hm h
    · exact .shared (inside_ref_object.mpr h)
    · exact .tagType rfl

end References

/-! ### The map over the nodes -/

mutual

/-- The type with `name` for the names of its enums and `key` for the keys that it refers to. -/
def mapNodes (name : List String → Option String → Option String) (key : String → String) :
    ClientType → ClientType
  | .enum values assignedName => .enum values (name values assignedName)
  | .array element => .array (mapNodes name key element)
  | .map element => .map (mapNodes name key element)
  | .object fields => .object (mapFields name key fields)
  | .composition parts => .composition (mapAll name key parts)
  | .ref target => .ref (key target)
  | .union members tag mapping none tagType =>
    .union (mapAll name key members) tag (mapping.map fun (v, k) => (v, key k)) none
      (tagType.map key)
  | .union members tag mapping (some fields) tagType =>
    .union (mapAll name key members) tag (mapping.map fun (v, k) => (v, key k))
      (some (mapFields name key fields)) (tagType.map key)
  | type => type

/-- Fields with the map over the nodes of their types. -/
def mapFields (name : List String → Option String → Option String) (key : String → String) :
    List (Field ClientType) → List (Field ClientType)
  | [] => []
  | ⟨label, type, required⟩ :: rest =>
    ⟨label, mapNodes name key type, required⟩ :: mapFields name key rest

/-- Types with the map over their nodes. -/
def mapAll (name : List String → Option String → Option String) (key : String → String) :
    List ClientType → List ClientType
  | [] => []
  | type :: rest => mapNodes name key type :: mapAll name key rest

end

variable {name : List String → Option String → Option String} {key : String → String}

theorem mapFields_eq_map (fields : List (Field ClientType)) :
    mapFields name key fields
      = fields.map fun f => { f with type := mapNodes name key f.type } := by
  induction fields with
  | nil => rfl
  | cons f rest ih => rw [mapFields, ih, List.map_cons]

theorem mapAll_eq_map (types : List ClientType) :
    mapAll name key types = types.map (mapNodes name key) := by
  induction types with
  | nil => rfl
  | cons type rest ih => rw [mapAll, ih, List.map_cons]

@[simp] theorem mapNodes_object (fields : List (Field ClientType)) :
    mapNodes name key (.object fields)
      = .object (fields.map fun f => { f with type := mapNodes name key f.type }) := by
  rw [mapNodes, mapFields_eq_map]

@[simp] theorem mapNodes_composition (parts : List ClientType) :
    mapNodes name key (.composition parts) = .composition (parts.map (mapNodes name key)) := by
  rw [mapNodes, mapAll_eq_map]

@[simp] theorem mapNodes_union (members : List ClientType) (tag : Option String)
    (mapping : Table String String) (shared : Option (List (Field ClientType)))
    (tagType : Option String) :
    mapNodes name key (.union members tag mapping shared tagType)
      = .union (members.map (mapNodes name key)) tag (mapping.map fun (v, k) => (v, key k))
          (shared.map fun fields => fields.map fun f => { f with type := mapNodes name key f.type })
          (tagType.map key) := by
  cases shared with
  | none => rw [mapNodes, mapAll_eq_map, Option.map_none]
  | some fields => rw [mapNodes, mapAll_eq_map, mapFields_eq_map, Option.map_some]

/-- A node of a type is a node of the mapped type after the map. -/
theorem Inside.mapNodes {inner outer : ClientType} (h : Inside inner outer) :
    Inside (inner.mapNodes name key) (outer.mapNodes name key) := by
  induction h with
  | here => exact .here
  | element _ ih => exact .element ih
  | value _ ih => exact .value ih
  | field hf _ ih =>
    rw [mapNodes_object]
    exact .field (List.mem_map_of_mem hf) ih
  | part hp _ ih =>
    rw [mapNodes_composition]
    exact .part (List.mem_map_of_mem hp) ih
  | member hm _ ih =>
    rw [mapNodes_union]
    exact .member (List.mem_map_of_mem hm) ih
  | shared _ ih =>
    rw [mapNodes_object] at ih
    rw [mapNodes_union]
    exact .shared ih
  | tagType h =>
    subst h
    rw [mapNodes_union]
    exact .tagType rfl

/-- Every node of a mapped type is a node of the type after the map. -/
theorem Inside.of_mapNodes {inner outer : ClientType}
    (h : Inside inner (outer.mapNodes name key)) :
    ∃ node, Inside node outer ∧ node.mapNodes name key = inner := by
  induction outer with
  | string | number | boolean | void | enum | freeFormMap | ref =>
    cases h
    exact ⟨_, .here, rfl⟩
  | array element ih =>
    cases h with
    | here => exact ⟨_, .here, rfl⟩
    | element h =>
      obtain ⟨node, hn, rfl⟩ := ih h
      exact ⟨node, .element hn, rfl⟩
  | map element ih =>
    cases h with
    | here => exact ⟨_, .here, rfl⟩
    | value h =>
      obtain ⟨node, hn, rfl⟩ := ih h
      exact ⟨node, .value hn, rfl⟩
  | object fields ih =>
    rw [mapNodes_object] at h
    cases h with
    | here => exact ⟨_, .here, mapNodes_object fields⟩
    | field hf h =>
      obtain ⟨f, hf', rfl⟩ := List.mem_map.mp hf
      obtain ⟨node, hn, rfl⟩ := ih f hf' h
      exact ⟨node, .field hf' hn, rfl⟩
  | composition parts ih =>
    rw [mapNodes_composition] at h
    cases h with
    | here => exact ⟨_, .here, mapNodes_composition parts⟩
    | part hp h =>
      obtain ⟨part, hp', rfl⟩ := List.mem_map.mp hp
      obtain ⟨node, hn, rfl⟩ := ih part hp' h
      exact ⟨node, .part hp' hn, rfl⟩
  | union members tag mapping shared tagType ihm ihs =>
    -- The pieces of the mapped union need names before the rules can be taken apart.
    rw [mapNodes_union] at h
    generalize hmapping : mapping.map _ = mapping' at h
    generalize hshared : shared.map _ = shared' at h
    generalize htagType : tagType.map key = tagType' at h
    cases h with
    | here =>
      subst hmapping hshared htagType
      exact ⟨_, .here, mapNodes_union ..⟩
    | member hm h =>
      obtain ⟨member, hm', rfl⟩ := List.mem_map.mp hm
      obtain ⟨node, hn, rfl⟩ := ihm member hm' h
      exact ⟨node, .member hm' hn, rfl⟩
    | shared h =>
      obtain ⟨fields, rfl, rfl⟩ := Option.map_eq_some_iff.mp hshared
      rw [← mapNodes_object] at h
      obtain ⟨node, hn, rfl⟩ := ihs fields rfl h
      exact ⟨node, .shared hn, rfl⟩
    | tagType h =>
      obtain ⟨target, rfl, rfl⟩ := Option.map_eq_some_iff.mp htagType
      exact ⟨.ref target, .tagType rfl, h.symm⟩

/-- The enum nodes of a mapped type are those of the type, under their new names. -/
theorem inside_enum_mapNodes_iff {values : List String} {assigned : Option String}
    {type : ClientType} :
    Inside (.enum values assigned) (type.mapNodes name key)
      ↔ ∃ old, Inside (.enum values old) type ∧ assigned = name values old := by
  constructor
  · intro h
    -- No other type becomes an enum.
    obtain ⟨node, hn, heq⟩ := h.of_mapNodes
    cases node with
    | enum values old =>
      cases heq
      exact ⟨old, hn, rfl⟩
    | object => rw [mapNodes_object] at heq; cases heq
    | composition => rw [mapNodes_composition] at heq; cases heq
    | union => rw [mapNodes_union] at heq; cases heq
    | _ => cases heq
  · rintro ⟨old, h, rfl⟩
    exact h.mapNodes

/-- Two maps after one another are one map. -/
theorem mapNodes_mapNodes {name' : List String → Option String → Option String}
    {key' : String → String} (type : ClientType) :
    (type.mapNodes name key).mapNodes name' key'
      = type.mapNodes (fun values old => name' values (name values old)) (key' ∘ key) := by
  induction type with
  | string | number | boolean | void | enum | freeFormMap | ref => rfl
  | array element ih => simp only [ClientType.mapNodes, ih]
  | map element ih => simp only [ClientType.mapNodes, ih]
  | object fields ih =>
    simp only [mapNodes_object, List.map_map]
    exact congrArg object (List.map_congr_left fun f hf => by simp [ih f hf])
  | composition parts ih =>
    simp only [mapNodes_composition, List.map_map]
    exact congrArg composition (List.map_congr_left fun part hp => ih part hp)
  | union members tag mapping shared tagType ihm ihs =>
    have hm : (members.map (ClientType.mapNodes name key)).map (ClientType.mapNodes name' key')
        = members.map
          (ClientType.mapNodes (fun values old => name' values (name values old)) (key' ∘ key)) := by
      rw [List.map_map]
      exact List.map_congr_left fun member h => ihm member h
    cases shared with
    | none => simp [hm, Function.comp_def]
    | some fields =>
      have hs := ihs fields rfl
      simp only [mapNodes_object, object.injEq] at hs
      simp only [mapNodes_union, Option.map_some, hm, hs, List.map_map, Option.map_map]
      rfl

/-- Maps that give the enums of a type the same names agree on the type. -/
theorem mapNodes_congr {name' : List String → Option String → Option String} {type : ClientType}
    (h : ∀ values old, Inside (.enum values old) type → name values old = name' values old) :
    type.mapNodes name key = type.mapNodes name' key := by
  induction type with
  | string | number | boolean | void | freeFormMap | ref => rfl
  | enum values old => simp only [ClientType.mapNodes, h values old .here]
  | array element ih => simp only [ClientType.mapNodes, ih fun values old hin => h values old (.element hin)]
  | map element ih => simp only [ClientType.mapNodes, ih fun values old hin => h values old (.value hin)]
  | object fields ih =>
    have hfields : ∀ f ∈ fields, f.type.mapNodes name key = f.type.mapNodes name' key :=
      fun f hf => ih f hf fun values old hin => h values old (.field hf hin)
    simp only [mapNodes_object]
    exact congrArg object (List.map_congr_left fun f hf => by rw [hfields f hf])
  | composition parts ih =>
    have hparts : ∀ part ∈ parts, part.mapNodes name key = part.mapNodes name' key :=
      fun part hp => ih part hp fun values old hin => h values old (.part hp hin)
    simp only [mapNodes_composition, List.map_congr_left hparts]
  | union members tag mapping shared tagType ihm ihs =>
    have hmembers : ∀ member ∈ members, member.mapNodes name key = member.mapNodes name' key :=
      fun member hm => ihm member hm fun values old hin => h values old (.member hm hin)
    cases shared with
    | none => simp only [mapNodes_union, List.map_congr_left hmembers, Option.map_none]
    | some fields =>
      have hs := ihs fields rfl fun values old hin => h values old (.shared hin)
      simp only [mapNodes_object, object.injEq] at hs
      simp only [mapNodes_union, List.map_congr_left hmembers, Option.map_some, hs]

/-! ### Names of enums -/

/-- Naming the enums of a type is a map over its nodes. -/
theorem nameEnums_eq_mapNodes (names : List (List String × String)) (type : ClientType) :
    type.nameEnums names
      = type.mapNodes (fun values old => (nameOfValues names values).or old) id := by
  -- Lists are walked by functions of their own on both sides.
  have fieldsEq : ∀ fields : List (Field ClientType),
      (∀ f ∈ fields, f.type.nameEnums names
        = f.type.mapNodes (fun values old => (nameOfValues names values).or old) id) →
      nameFieldEnums names fields
        = mapFields (fun values old => (nameOfValues names values).or old) id fields := by
    intro fields h
    induction fields with
    | nil => rfl
    | cons f rest ih =>
      rw [nameFieldEnums, mapFields, h f List.mem_cons_self,
        ih fun g hg => h g (List.mem_cons_of_mem f hg)]
  have allEq : ∀ types : List ClientType,
      (∀ t ∈ types, t.nameEnums names
        = t.mapNodes (fun values old => (nameOfValues names values).or old) id) →
      nameAllEnums names types
        = mapAll (fun values old => (nameOfValues names values).or old) id types := by
    intro types h
    induction types with
    | nil => rfl
    | cons t rest ih =>
      rw [nameAllEnums, mapAll, h t List.mem_cons_self,
        ih fun u hu => h u (List.mem_cons_of_mem t hu)]
  induction type with
  | string | number | boolean | void | enum | freeFormMap | ref => rfl
  | array element ih => rw [nameEnums, ClientType.mapNodes, ih]
  | map element ih => rw [nameEnums, ClientType.mapNodes, ih]
  | object fields ih => rw [nameEnums, ClientType.mapNodes, fieldsEq fields ih]
  | composition parts ih => rw [nameEnums, ClientType.mapNodes, allEq parts ih]
  | union members tag mapping shared tagType ihm ihs =>
    cases shared with
    | none =>
      rw [nameEnums, ClientType.mapNodes, allEq members ihm]
      simp
    | some fields =>
      have hs := ihs fields rfl
      rw [nameEnums, ClientType.mapNodes, object.injEq] at hs
      rw [nameEnums, ClientType.mapNodes, allEq members ihm, hs]
      simp

/-- The type without the names of its enums. -/
def unnamed (type : ClientType) : ClientType :=
  type.mapNodes (fun _ _ => none) id

/-- Naming enums changes nothing but names. -/
theorem unnamed_nameEnums (names : List (List String × String)) (type : ClientType) :
    (type.nameEnums names).unnamed = type.unnamed := by
  rw [nameEnums_eq_mapNodes, unnamed, mapNodes_mapNodes, unnamed]
  rfl

/-- The enum nodes of a type whose enums were named: a name that was given counts more than one that
    was there. -/
theorem inside_enum_nameEnums_iff {names : List (List String × String)} {values : List String}
    {assigned : Option String} {type : ClientType} :
    Inside (.enum values assigned) (type.nameEnums names)
      ↔ ∃ old, Inside (.enum values old) type ∧ assigned = (nameOfValues names values).or old := by
  rw [nameEnums_eq_mapNodes]
  exact inside_enum_mapNodes_iff

/-- Naming enums leaves the references of a type as they are. -/
theorem inside_ref_nameEnums_iff {names : List (List String × String)} {target : String}
    {type : ClientType} : Inside (.ref target) (type.nameEnums names) ↔ Inside (.ref target) type := by
  rw [nameEnums_eq_mapNodes]
  constructor
  · intro h
    -- No other type becomes a reference.
    obtain ⟨node, hn, heq⟩ := h.of_mapNodes
    cases node with
    | ref known =>
      cases heq
      exact hn
    | object => rw [mapNodes_object] at heq; cases heq
    | composition => rw [mapNodes_composition] at heq; cases heq
    | union => rw [mapNodes_union] at heq; cases heq
    | _ => cases heq
  · intro h
    have hmapped : Inside ((ClientType.ref target).mapNodes
        (fun values old => (nameOfValues names values).or old) id) _ := h.mapNodes
    exact hmapped

/-! ### The walk over the enums -/

theorem enumNodesOfFields_eq_flatMap (path : List String) (fields : List (Field ClientType)) :
    enumNodesOfFields path fields
      = fields.flatMap fun f => f.type.enumNodes (path ++ [f.name]) := by
  induction fields with
  | nil => rfl
  | cons f rest ih => rw [enumNodesOfFields, ih, List.flatMap_cons]

theorem enumNodesOfAll_eq_flatMap (path : List String) (types : List ClientType) :
    enumNodesOfAll path types = types.flatMap (enumNodes path) := by
  induction types with
  | nil => rfl
  | cons type rest ih => rw [enumNodesOfAll, ih, List.flatMap_cons]

/-- The shared fields of a union are walked like an object, before the members. -/
theorem enumNodes_union (path : List String) (members : List ClientType) (tag : Option String)
    (mapping : Table String String) (shared : Option (List (Field ClientType)))
    (tagType : Option String) :
    enumNodes path (.union members tag mapping shared tagType)
      = (shared.map object).toList.flatMap (enumNodes path) ++ members.flatMap (enumNodes path) := by
  cases shared with
  | none => simp [enumNodes, enumNodesOfAll_eq_flatMap]
  | some fields => simp [enumNodes, enumNodesOfAll_eq_flatMap]

/-- **The walk is complete.**  It meets the enum nodes of a type and nothing else. -/
theorem exists_enumNode_iff {values : List String} {assigned : Option String} {type : ClientType}
    (path : List String) :
    (∃ node ∈ type.enumNodes path, node.values = values ∧ node.assignedName = assigned)
      ↔ Inside (.enum values assigned) type := by
  constructor
  · intro h
    induction type generalizing path with
    | string | number | boolean | void | freeFormMap | ref => simp [enumNodes] at h
    | enum known old =>
      simp only [enumNodes, List.mem_singleton, exists_eq_left] at h
      obtain ⟨rfl, rfl⟩ := h
      exact .here
    | array element ih => exact .element (ih path h)
    | map element ih => exact .value (ih path h)
    | object fields ih =>
      rw [enumNodes, enumNodesOfFields_eq_flatMap] at h
      obtain ⟨node, hn, heq⟩ := h
      obtain ⟨f, hf, hn⟩ := List.mem_flatMap.mp hn
      exact .field hf (ih f hf _ ⟨node, hn, heq⟩)
    | composition parts ih =>
      rw [enumNodes, enumNodesOfAll_eq_flatMap] at h
      obtain ⟨node, hn, heq⟩ := h
      obtain ⟨part, hp, hn⟩ := List.mem_flatMap.mp hn
      exact .part hp (ih part hp _ ⟨node, hn, heq⟩)
    | union members tag mapping shared tagType ihm ihs =>
      rw [enumNodes_union] at h
      obtain ⟨node, hn, heq⟩ := h
      rcases List.mem_append.mp hn with hn | hn
      · obtain ⟨type, ht, hn⟩ := List.mem_flatMap.mp hn
        obtain ⟨fields, rfl, rfl⟩ := Option.map_eq_some_iff.mp (Option.mem_toList.mp ht)
        exact .shared (ihs fields rfl _ ⟨node, hn, heq⟩)
      · obtain ⟨member, hm, hn⟩ := List.mem_flatMap.mp hn
        exact .member hm (ihm member hm _ ⟨node, hn, heq⟩)
  · intro h
    generalize htarget : ClientType.enum values assigned = target at h
    induction h generalizing path with
    | here =>
      subst htarget
      exact ⟨_, List.mem_singleton_self _, rfl, rfl⟩
    | element _ ih => exact ih path
    | value _ ih => exact ih path
    | @field fields f hf _ ih =>
      obtain ⟨node, hn, heq⟩ := ih (path ++ [f.name])
      rw [enumNodes, enumNodesOfFields_eq_flatMap]
      exact ⟨node, List.mem_flatMap.mpr ⟨f, hf, hn⟩, heq⟩
    | part hp _ ih =>
      obtain ⟨node, hn, heq⟩ := ih path
      rw [enumNodes, enumNodesOfAll_eq_flatMap]
      exact ⟨node, List.mem_flatMap.mpr ⟨_, hp, hn⟩, heq⟩
    | member hm _ ih =>
      obtain ⟨node, hn, heq⟩ := ih path
      rw [enumNodes_union]
      exact ⟨node, List.mem_append_right _ (List.mem_flatMap.mpr ⟨_, hm, hn⟩), heq⟩
    | shared _ ih =>
      obtain ⟨node, hn, heq⟩ := ih path
      rw [enumNodes_union]
      refine ⟨node, List.mem_append_left _ ?_, heq⟩
      exact List.mem_flatMap.mpr ⟨_, by simp, hn⟩
    | tagType h =>
      -- The type of the tag is a reference, and an enum is none.
      rw [← htarget] at h
      cases h

end TypedClient.ClientType
