import TypedClient.Proofs.Expressions
import TypedClient.Proofs.Generation

namespace TypedClient

/-!
# Names in a namespace

The methods can refer to all declared names through one namespace.  Writing with a namespace is writing without one
after the namespace was put in front of the names themselves, and nothing else depends on it.

* `Logged.Parallel` — two runs whose logs are the same under new names and whose results match.
* `ClientType.withNames`, `Registry.withNames` — types and declarations under new names.
* `TypeWriter.Matches` — two writers that know the same declarations under such names.
* `TypeWriter.Matches.write` — what they write runs in parallel.
* `namespace_qualifies` — a namespace changes names, and what is written for the types not at all.
-/

/-! ### Parallel runs -/

namespace Logged

variable {α β γ δ : Type} {ren : String → String} {R : α → β → Prop} {S : γ → δ → Prop}

/-- Results that are related, or the same failure. -/
inductive Matched (R : α → β → Prop) : Except Failure α → Except Failure β → Prop
  | ok {a : α} {b : β} : R a b → Matched R (.ok a) (.ok b)
  | error (e : Failure) : Matched R (.error e) (.error e)

/-- Two runs that meet the same names, up to new names for them, and whose results match. -/
structure Parallel (ren : String → String) (R : α → β → Prop) (x : Logged α) (y : Logged β) : Prop where
  log_eq : y.log = x.log.map ren
  matched : Matched R x.result y.result

namespace Parallel

theorem pure {a : α} {b : β} (h : R a b) : Parallel ren R (Pure.pure a) (Pure.pure b) :=
  ⟨rfl, .ok h⟩

theorem lift {x : Except Failure α} {y : Except Failure β} (h : Matched R x y) :
    Parallel ren R (liftM x) (liftM y) :=
  ⟨rfl, h⟩

theorem bind {x : Logged α} {y : Logged β} {f : α → Logged γ} {g : β → Logged δ} (h : Parallel ren R x y)
    (hnext : ∀ a b, R a b → Parallel ren S (f a) (g b)) : Parallel ren S (x >>= f) (y >>= g) := by
  obtain ⟨log, result⟩ := x
  obtain ⟨log', result'⟩ := y
  obtain ⟨hlog, hmatched⟩ := h
  cases hmatched with
  | @ok a b hab =>
    have hrest := hnext a b hab
    refine ⟨?_, hrest.matched⟩
    show log' ++ (g b).log = (log ++ (f a).log).map ren
    rw [List.map_append, ← hrest.log_eq, show log' = log.map ren from hlog]
  | error e => exact ⟨hlog, .error e⟩

end Parallel

/-- Steps in parallel make runs in parallel. -/
theorem Parallel.mapM {f : α → Logged γ} {g : β → Logged δ} {k : α → β} {xs : List α}
    (h : ∀ x ∈ xs, Parallel ren S (f x) (g (k x))) :
    Parallel ren (List.Forall₂ S) (xs.mapM f) ((xs.map k).mapM g) := by
  induction xs with
  | nil => exact .pure .nil
  | cons x xs ih =>
    rw [List.forall_mem_cons] at h
    simp only [List.map_cons, List.mapM_cons]
    exact h.1.bind fun _ _ hfirst => (ih h.2).bind fun _ _ hrest => .pure (.cons hfirst hrest)

theorem Matched.bind {x : Except Failure α} {y : Except Failure β} {f : α → Except Failure γ}
    {g : β → Except Failure δ} (h : Matched R x y) (hnext : ∀ a b, R a b → Matched S (f a) (g b)) :
    Matched S (x >>= f) (y >>= g) := by
  cases h with
  | ok hab => exact hnext _ _ hab
  | error e => exact .error e

theorem Matched.refl {R : α → α → Prop} (h : ∀ a, R a a) (x : Except Failure α) : Matched R x x := by
  cases x with
  | error e => exact .error e
  | ok a => exact .ok (h a)

end Logged

/-! ### New names -/

/-- New names for enums; an enum with an empty name has none. -/
def renameEnum (ren : String → String) (name : String) : String :=
  if name = "" then name else ren name

/-- The type with new names for its enums. -/
def ClientType.withNames (ren : String → String) (type : ClientType) : ClientType :=
  type.mapNodes (fun _ name => name.map (renameEnum ren)) id

def Field.withNames (ren : String → String) (f : Field ClientType) : Field ClientType :=
  { f with type := f.type.withNames ren }

/-- The declaration under a new name, with new names for the enums of its type. -/
def Declaration.withNames (ren : String → String) (d : Declaration) : Declaration :=
  ⟨ren d.name, d.key, d.type.withNames ren⟩

/-- All declarations under new names and the same keys. -/
def Registry.withNames (ren : String → String) (registry : Registry) : Registry :=
  registry.map fun (key, d) => (key, d.withNames ren)

/-- The operation with new names for the enums of its types. -/
def Operation.withNames (ren : String → String) (o : Operation) : Operation :=
  { o with
    parameters := o.parameters.map fun p => { p with type := p.type.withNames ren }
    bodyTypes := o.bodyTypes.map (ClientType.withNames ren)
    result := o.result.withNames ren }

theorem Registry.get?_withNames (ren : String → String) (registry : Registry) (key : String) :
    (registry.withNames ren).get? key = (registry.get? key).map (·.withNames ren) := by
  induction registry with
  | nil => rfl
  | cons entry rest ih =>
    obtain ⟨k, d⟩ := entry
    rw [withNames, List.map_cons, ← withNames, Table.get?_cons, Table.get?_cons, ih]
    split <;> rfl

namespace ClientType

variable {ren : String → String}

theorem withNames_object (fields : List (Field ClientType)) :
    (object fields).withNames ren = .object (fields.map (Field.withNames ren)) :=
  mapNodes_object fields

theorem withNames_composition (parts : List ClientType) :
    (composition parts).withNames ren = .composition (parts.map (withNames ren)) :=
  mapNodes_composition parts

theorem withNames_union (members : List ClientType) (tag : Option String) (mapping : Table String String)
    (shared : Option (List (Field ClientType))) (tagType : Option String) :
    (union members tag mapping shared tagType).withNames ren
      = .union (members.map (withNames ren)) tag mapping (shared.map (List.map (Field.withNames ren))) tagType := by
  rw [withNames, mapNodes_union]
  simp only [id_eq, Option.map_id_fun, List.map_id_fun']
  rfl

/-- Without new names a type stays as it is. -/
theorem withNames_id (type : ClientType) : type.withNames id = type := by
  have hfields : ∀ fields : List (Field ClientType), (∀ f ∈ fields, f.type.withNames id = f.type) →
      fields.map (Field.withNames id) = fields := by
    intro fields h
    refine (List.map_congr_left fun f hf => ?_).trans (List.map_id fields)
    rw [Field.withNames, h f hf, id_eq]
  induction type using inductFields with
  | string | number | boolean | void | freeFormMap | ref => rfl
  | enum values name =>
    have hname : name.map (renameEnum id) = name := by
      cases name <;> simp [renameEnum]
    exact congrArg (enum values) hname
  | array element ih => exact congrArg array ih
  | map element ih => exact congrArg map ih
  | object fields ih => rw [withNames_object, hfields fields ih]
  | composition parts ih =>
    rw [withNames_composition, List.map_congr_left (g := id) ih, List.map_id]
  | union members tag mapping shared tagType ihm ihs =>
    have hshared : shared.map (List.map (Field.withNames id)) = shared := by
      cases shared with
      | none => rfl
      | some fields => rw [Option.map_some, hfields fields (ihs fields rfl)]
    rw [withNames_union, List.map_congr_left (g := id) ihm, List.map_id, hshared]

end ClientType

theorem Declaration.withNames_id (d : Declaration) : d.withNames id = d := by
  rw [withNames, ClientType.withNames_id, id_eq]

theorem Registry.withNames_id (registry : Registry) : registry.withNames id = registry := by
  rw [withNames]
  refine (List.map_congr_left fun entry _ => ?_).trans (List.map_id registry)
  obtain ⟨key, d⟩ := entry
  exact congrArg (Prod.mk key) d.withNames_id

theorem Operation.withNames_id (o : Operation) : o.withNames id = o := by
  have hparameters : o.parameters.map (fun p => { p with type := p.type.withNames id }) = o.parameters := by
    simp only [ClientType.withNames_id]
    exact List.map_id _
  have hbody : o.bodyTypes.map (ClientType.withNames id) = o.bodyTypes :=
    (List.map_congr_left fun type _ => type.withNames_id).trans (List.map_id _)
  rw [withNames, hparameters, hbody, ClientType.withNames_id]

namespace Output.TypeWriter

/-! ### Writers -/

/-- The second writer knows the declarations of the first one under new names, and it prints them in the same way
    if texts count. -/
structure Matches (ren : String → String) (texts : Prop) (w w' : TypeWriter) : Prop where
  registry_eq : w'.registry = w.registry.withNames ren
  namedEnums_eq : w'.namedEnums = w.namedEnums
  prints : texts → ∀ name, qualifiedText w'.qualifier (ren name) = qualifiedText w.qualifier name
  /-- A name does not become empty. -/
  ne_empty : ∀ name, name ≠ "" → ren name ≠ ""

variable {ren : String → String} {texts : Prop} {w w' : TypeWriter}

/-- Two runs that write in parallel: the texts are the same if they count. -/
abbrev Writes (ren : String → String) (texts : Prop) {α : Type} (x y : Logged α) : Prop :=
  Logged.Parallel ren (fun a b => texts → a = b) x y

/-- After equal texts follows the same. -/
theorem Writes.map {α β : Type} {x y : Logged α} (h : Writes ren texts x y) (f : α → β) :
    Writes ren texts (x >>= fun a => pure (f a)) (y >>= fun a => pure (f a)) :=
  Logged.Parallel.bind h fun _ _ hab => .pure fun ht => congrArg f (hab ht)

theorem writes_pure {α : Type} (a : α) : Writes ren texts (pure a) (pure a) :=
  .pure fun _ => rfl

theorem valueOf_withNames (values : Table String String) (member : ClientType) :
    valueOf values (member.withNames ren) = valueOf values member := by
  cases member with
  | object fields => rw [ClientType.withNames_object]; rfl
  | composition parts => rw [ClientType.withNames_composition]; rfl
  | union => rw [ClientType.withNames_union]; rfl
  | _ => rfl

theorem memberKeys_withNames (members : List ClientType) :
    memberKeys (members.map (ClientType.withNames ren)) = memberKeys members := by
  rw [memberKeys, memberKeys, List.filterMap_map]
  refine List.filterMap_congr fun member _ => ?_
  cases member with
  | object fields => simp only [Function.comp_apply, ClientType.withNames_object]
  | composition parts => simp only [Function.comp_apply, ClientType.withNames_composition]
  | union => simp only [Function.comp_apply, ClientType.withNames_union]
  | _ => rfl

theorem isEmpty_shownFields_withNames (tag : Option String) (fields : List (Field ClientType)) :
    (shownFields tag (some (fields.map (Field.withNames ren)))).isEmpty
      = (shownFields tag (some fields)).isEmpty := by
  have hfilter : shownFields tag (some (fields.map (Field.withNames ren)))
      = (shownFields tag (some fields)).map (Field.withNames ren) := List.filter_map
  rw [hfilter, List.isEmpty_map]

namespace Matches

theorem qualified (h : Matches ren texts w w') (name : String) :
    Writes ren texts (w.qualified name) (w'.qualified (ren name)) :=
  ⟨rfl, .ok fun ht => (h.prints ht name).symm⟩

theorem declaration (h : Matches ren texts w w') (key : String) :
    w'.declaration key = (w.declaration key).map (·.withNames ren) := by
  unfold TypeWriter.declaration
  rw [h.registry_eq, Registry.get?_withNames]
  cases w.registry.get? key <;> rfl

theorem enumName? (h : Matches ren texts w w') (name : Option String) :
    w'.enumName? (name.map (renameEnum ren)) = (w.enumName? name).map ren := by
  unfold TypeWriter.enumName?
  rw [h.namedEnums_eq]
  split
  · cases name with
    | none => rfl
    | some name =>
      by_cases hempty : name = ""
      · subst hempty
        rfl
      · simp [renameEnum, hempty, Option.filter, h.ne_empty name hempty]
  · rfl

theorem isCompound (h : Matches ren texts w w') (type : ClientType) :
    w'.isCompound (type.withNames ren) = w.isCompound type := by
  cases type with
  | enum values name =>
    show ((w'.enumName? (name.map (renameEnum ren))).isNone && _) = _
    rw [h.enumName?, Option.isNone_map]
    rfl
  | object fields => rw [ClientType.withNames_object]; rfl
  | composition parts => rw [ClientType.withNames_composition]; rfl
  | union => rw [ClientType.withNames_union]; rfl
  | _ => rfl

theorem parenthesized (h : Matches ren texts w w') (type : ClientType) (text : String) :
    w'.parenthesized (type.withNames ren) text = w.parenthesized type text := by
  rw [TypeWriter.parenthesized, TypeWriter.parenthesized, h.isCompound]

/-- The value of a tag is found in the same enum, which is written by its new name. -/
theorem tagText (h : Matches ren texts w w') (tagType : Option String) (value : String) :
    Writes ren texts (w.tagText tagType value) (w'.tagText tagType value) := by
  unfold TypeWriter.tagText
  cases tagType with
  | none => exact writes_pure _
  | some key =>
    dsimp only
    rw [h.namedEnums_eq]
    split
    · rw [h.declaration]
      cases w.declaration key with
      | error e => exact ⟨rfl, .error e⟩
      | ok d =>
        obtain ⟨name, key, type⟩ := d
        simp only [Except.map, Logged.lift_ok_bind]
        -- The value is looked up in an enum, and new names leave the values of an enum as they are.
        cases type with
        | enum values assigned =>
          simp only [Declaration.withNames, ClientType.withNames, ClientType.mapNodes]
          cases (Naming.members values).get? value with
          | none => exact writes_pure _
          | some member => exact (h.qualified name).map _
        | object fields =>
          simp only [Declaration.withNames, ClientType.withNames_object]
          exact writes_pure _
        | composition parts =>
          simp only [Declaration.withNames, ClientType.withNames_composition]
          exact writes_pure _
        | union =>
          simp only [Declaration.withNames, ClientType.withNames_union]
          exact writes_pure _
        | _ => exact writes_pure _
    · exact writes_pure _

/-! ### Types -/

/-- The two writers write the type in parallel. -/
def Agrees (ren : String → String) (texts : Prop) (w w' : TypeWriter) (type : ClientType) : Prop :=
  ∀ depth, Writes ren texts (w.write depth type) (w'.write depth (type.withNames ren))

theorem writeOperands (h : Matches ren texts w w') {types : List ClientType}
    (htypes : ∀ type ∈ types, Agrees ren texts w w' type) (depth : Nat) :
    Writes ren texts (w.writeOperands depth types)
      (w'.writeOperands depth (types.map (ClientType.withNames ren))) := by
  induction types with
  | nil => exact writes_pure _
  | cons type rest ih =>
    rw [List.forall_mem_cons] at htypes
    rw [List.map_cons, TypeWriter.writeOperands, TypeWriter.writeOperands]
    refine (htypes.1 depth).bind fun text text' htext => ?_
    rw [h.parenthesized]
    refine (ih htypes.2).bind fun others others' hothers => .pure fun ht => ?_
    rw [htext ht, hothers ht]

theorem writeFields {fields : List (Field ClientType)}
    (hfields : ∀ f ∈ fields, Agrees ren texts w w' f.type) (depth : Nat) (omitted : Option String) :
    Writes ren texts (w.writeFields depth omitted fields)
      (w'.writeFields depth omitted (fields.map (Field.withNames ren))) := by
  induction fields with
  | nil => exact writes_pure _
  | cons f rest ih =>
    obtain ⟨name, type, required⟩ := f
    rw [List.forall_mem_cons] at hfields
    rw [List.map_cons, Field.withNames, TypeWriter.writeFields, TypeWriter.writeFields]
    split
    · exact ih hfields.2
    · refine (hfields.1 (depth + 1)).bind fun text text' htext => ?_
      refine (ih hfields.2).bind fun others others' hothers => .pure fun ht => ?_
      rw [htext ht, hothers ht]

theorem writeVariants (h : Matches ren texts w w') {members : List ClientType}
    (hmembers : ∀ member ∈ members, Agrees ren texts w w' member) (depth : Nat) (tag tagType : Option String)
    (values : Table String String) :
    Writes ren texts (w.writeVariants depth tag values tagType members)
      (w'.writeVariants depth tag values tagType (members.map (ClientType.withNames ren))) := by
  induction members with
  | nil => exact writes_pure _
  | cons member rest ih =>
    rw [List.forall_mem_cons] at hmembers
    rw [List.map_cons, writeVariants_cons, writeVariants_cons, valueOf_withNames]
    refine (hmembers.1 depth).bind fun text text' htext => ?_
    have hvariant : Writes ren texts (w.writeVariant tag (valueOf values member) tagType member text)
        (w'.writeVariant tag (valueOf values member) tagType (member.withNames ren) text') := by
      unfold TypeWriter.writeVariant
      split
      · refine (h.tagText _ _).bind fun value value' hvalue => .pure fun ht => ?_
        rw [htext ht, hvalue ht]
      · refine .pure fun ht => ?_
        rw [htext ht, h.parenthesized]
    refine hvariant.bind fun variant variant' hvariants => ?_
    refine (ih hmembers.2).bind fun others others' hothers => .pure fun ht => ?_
    rw [hvariants ht, hothers ht]

theorem writeUnion (h : Matches ren texts w w') {members : List ClientType} {tag : Option String}
    {mapping : Table String String} {shared : Option (List (Field ClientType))} {tagType : Option String}
    (hmembers : ∀ member ∈ members, Agrees ren texts w w' member)
    (hshared : ∀ fields, shared = some fields → ∀ f ∈ fields, Agrees ren texts w w' f.type) :
    Agrees ren texts w w' (.union members tag mapping shared tagType) := by
  intro depth
  rw [ClientType.withNames_union]
  cases shared with
  | none =>
    rw [Option.map_none, TypeWriter.write, TypeWriter.write, memberKeys_withNames]
    refine (Logged.Parallel.lift (.refl (fun _ => rfl) _)).bind fun values values' (hvalues : values = values') => ?_
    rw [← hvalues]
    exact (h.writeVariants hmembers depth tag tagType values).map _
  | some fields =>
    rw [Option.map_some, TypeWriter.write, TypeWriter.write, memberKeys_withNames]
    refine (Logged.Parallel.lift (.refl (fun _ => rfl) _)).bind fun values values' (hvalues : values = values') => ?_
    rw [← hvalues]
    refine (h.writeVariants hmembers depth tag tagType values).bind fun variants variants' hvariants => ?_
    simp only [isEmpty_shownFields_withNames]
    split
    · exact .pure fun ht => by rw [hvariants ht]
    · refine (writeFields (hshared fields rfl) depth tag).bind fun lines lines' hlines => .pure fun ht => ?_
      rw [hvariants ht, hlines ht]

/-- **Types are written in parallel.** -/
theorem write (h : Matches ren texts w w') (type : ClientType) : Agrees ren texts w w' type := by
  induction type using ClientType.inductFields with
  | string | number | boolean | void | freeFormMap =>
    intro depth
    exact writes_pure _
  | enum values name =>
    intro depth
    show Writes ren texts _ (w'.write depth (.enum values (name.map (renameEnum ren))))
    rw [TypeWriter.write, TypeWriter.write, h.enumName?]
    cases w.enumName? name with
    | none => exact writes_pure _
    | some name => exact h.qualified name
  | array element ih =>
    intro depth
    show Writes ren texts _ (w'.write depth (.array (element.withNames ren)))
    rw [TypeWriter.write, TypeWriter.write]
    refine (ih depth).bind fun text text' htext => .pure fun ht => ?_
    rw [htext ht, h.parenthesized]
  | map element ih =>
    intro depth
    show Writes ren texts _ (w'.write depth (.map (element.withNames ren)))
    rw [TypeWriter.write, TypeWriter.write]
    exact (ih depth).map _
  | object fields ih =>
    intro depth
    rw [ClientType.withNames_object]
    cases fields with
    | nil => exact writes_pure _
    | cons f rest =>
      rw [List.map_cons, TypeWriter.write, TypeWriter.write, ← List.map_cons]
      · exact (writeFields ih depth none).map _
      · exact List.cons_ne_nil _ _
      · exact List.cons_ne_nil _ _
  | composition parts ih =>
    intro depth
    rw [ClientType.withNames_composition, TypeWriter.write, TypeWriter.write]
    exact (h.writeOperands ih depth).map _
  | ref target =>
    intro depth
    show Writes ren texts _ (w'.write depth (.ref target))
    rw [TypeWriter.write, TypeWriter.write, h.declaration]
    cases w.declaration target with
    | error e => exact ⟨rfl, .error e⟩
    | ok d =>
      simp only [Except.map, Logged.lift_ok_bind]
      exact h.qualified d.name
  | union members tag mapping shared tagType ihm ihs => exact h.writeUnion ihm ihs

theorem writeOperand (h : Matches ren texts w w') (depth : Nat) (type : ClientType) :
    Writes ren texts (w.writeOperand depth type) (w'.writeOperand depth (type.withNames ren)) := by
  refine (h.write type depth).bind fun text text' htext => .pure fun ht => ?_
  rw [htext ht, h.parenthesized]

/-! ### Methods -/

/-- The pieces of a method that depend on names of parameters alone do not depend on other names. -/
theorem callOf_withNames (o : Operation) : Call.of (o.withNames ren) = Call.of o := by
  have hnames : ∀ location, (o.withNames ren).namesIn location = o.namesIn location := by
    intro location
    simp only [Operation.namesIn, Operation.withNames, List.filter_map, List.map_map]
    rfl
  have hbody : (o.withNames ren).bodyTypes.isEmpty = o.bodyTypes.isEmpty := List.isEmpty_map
  simp only [Call.of, hnames, hbody]
  rfl

theorem writeArgument (h : Matches ren texts w w') (o : Operation) :
    Writes ren texts (w.writeArgument o) (w'.writeArgument (o.withNames ren)) := by
  have hfields : ((o.withNames ren).parameters.map fun p => (⟨p.name, p.type, p.required⟩ : Field ClientType))
      = (o.parameters.map fun p => ⟨p.name, p.type, p.required⟩).map (Field.withNames ren) := by
    simp only [Operation.withNames, List.map_map]
    rfl
  have hobject := h.write (.object (o.parameters.map fun p => ⟨p.name, p.type, p.required⟩)) 1
  rw [ClientType.withNames_object] at hobject
  have hbodies : ∀ {own own' : List String}, (texts → own = own') →
      Writes ren texts (do return own ++ (← w.writeOperands 1 o.bodyTypes))
        (do return own' ++ (← w'.writeOperands 1 (o.withNames ren).bodyTypes)) := by
    intro own own' hown
    refine (h.writeOperands (fun type _ => h.write type) 1).bind fun bodies bodies' hbodies => .pure fun ht => ?_
    rw [hown ht, hbodies ht]
  unfold TypeWriter.writeArgument
  simp only [hfields, List.isEmpty_map, pure_bind]
  split
  · exact hbodies fun _ => rfl
  · refine hobject.bind fun text text' htext => hbodies fun ht => ?_
    rw [htext ht]

theorem writeMethod (h : Matches ren texts w w') (o : Operation) :
    Writes ren texts (w.writeMethod o) (w'.writeMethod (o.withNames ren)) := by
  unfold TypeWriter.writeMethod
  rw [callOf_withNames]
  refine (h.writeArgument o).bind fun types types' htypes => ?_
  refine (Logged.Parallel.lift (.refl (fun _ => rfl) _)).bind fun passed passed' (hpassed : passed = passed') => ?_
  refine (h.write o.result 1).bind fun result result' hresult => .pure fun ht => ?_
  rw [htypes ht, hpassed, hresult ht]
  rfl

theorem writeGroup (h : Matches ren texts w w') (operations : List Operation) (g : Group) :
    Writes ren texts (writeGroup w operations g) (writeGroup w' (operations.map (Operation.withNames ren)) g) := by
  unfold Output.writeGroup
  rw [List.filter_map]
  refine (Logged.Parallel.mapM fun o _ => h.writeMethod o).bind fun methods methods' hmethods => .pure fun ht => ?_
  have hsame := hmethods.imp fun _ _ hmethod => hmethod ht
  rw [List.forall₂_eq_eq_eq] at hsame
  rw [hsame]

end Matches

end TypeWriter

/-! ### Files -/

/-- The space in front of a name, as a qualified name is written. -/
def spaced (space name : String) : String :=
  space ++ "." ++ name

/-- A writer with a space, and one without it that knows the names with the space in front, write the same. -/
theorem TypeWriter.matches_spaced (registry : Registry) (namedEnums : Bool) (space : String) :
    Matches (spaced space) True ⟨registry, namedEnums, some space⟩
      ⟨registry.withNames (spaced space), namedEnums, none⟩ where
  registry_eq := rfl
  namedEnums_eq := rfl
  prints _ name := rfl
  ne_empty name _ hempty := by
    have hlength := congrArg String.length hempty
    simp [spaced] at hlength

/-- A writer with a space meets the same names as one without it, and fails in the same way. -/
theorem TypeWriter.matches_id (registry : Registry) (namedEnums : Bool) (space : Option String) :
    Matches id False ⟨registry, namedEnums, space⟩ ⟨registry, namedEnums, none⟩ where
  registry_eq := registry.withNames_id.symm
  namedEnums_eq := rfl
  prints := False.elim
  ne_empty _ h := h

/-- The file of the methods is there with a space exactly if it is there without it. -/
theorem methodsFile_matched (namedEnums : Bool) (space : Option String) (d : Description) :
    Logged.Matched (fun _ _ => True) (methodsFile ⟨namedEnums, space⟩ d) (methodsFile ⟨namedEnums, none⟩ d) := by
  -- The names stay the same here; the texts differ, but they do not count.
  have hoperations : d.operations.map (Operation.withNames id) = d.operations :=
    (List.map_congr_left fun o _ => o.withNames_id).trans (List.map_id _)
  have hgroup : ∀ g ∈ groups, TypeWriter.Writes id False
      (writeGroup ⟨d.registry, namedEnums, space⟩ d.operations g)
      (writeGroup ⟨d.registry, namedEnums, none⟩ d.operations (id g)) := by
    intro g _
    have hwrites := (TypeWriter.matches_id d.registry namedEnums space).writeGroup d.operations g
    rwa [hoperations] at hwrites
  have hwritten := Logged.Parallel.mapM hgroup
  rw [List.map_id] at hwritten
  unfold methodsFile
  split
  · exact .error _
  · exact hwritten.matched.bind fun _ _ _ => .ok trivial

/-- Generation with a space gives the same file of types as without it, or the same failure. -/
theorem generate_matched (namedEnums : Bool) (space : Option String) (d : Description) :
    Logged.Matched (fun project plain => ∃ types methods methods', types.name = "types.ts"
        ∧ project = ⟨[types, methods]⟩ ∧ plain = ⟨[types, methods']⟩)
      (generate ⟨namedEnums, space⟩ d) (generate ⟨namedEnums, none⟩ d) := by
  have hsame : typesFile ⟨namedEnums, space⟩ d = typesFile ⟨namedEnums, none⟩ d := rfl
  unfold generate
  rw [hsame]
  cases htypes : typesFile ⟨namedEnums, none⟩ d with
  | error e => exact .error e
  | ok types =>
    rw [Except.ok_bind, Except.ok_bind]
    exact (methodsFile_matched namedEnums space d).bind fun methods methods' _ =>
      .ok ⟨types, methods, methods', name_typesFile htypes, rfl, rfl⟩

/-- The second computation gives the same result as the first one and meets the same names, with the space in
    front. -/
def Spaces (space : String) {α : Type} (x y : Logged α) : Prop :=
  y.result = x.result ∧ y.log = x.log.map (spaced space)

theorem TypeWriter.Writes.spaces {space : String} {α : Type} {x y : Logged α}
    (h : TypeWriter.Writes (spaced space) True x y) : Spaces space x y := by
  have hresult : ∀ {result result' : Except Failure α},
      Logged.Matched (fun a b => True → a = b) result result' → result' = result := by
    intro result result' hmatched
    cases hmatched with
    | ok hab => rw [hab trivial]
    | error e => rfl
  exact ⟨hresult h.matched, h.log_eq⟩

/-- **A namespace qualifies names and changes nothing else.**  What is written with a space is what is written
    without one when the space stands in front of the declared names and the names of enums, and the names that are
    met are the same without the space.  The file of the types does not depend on the space at all. -/
theorem namespace_qualifies (namedEnums : Bool) (space : String) :
    (∀ (registry : Registry) depth type,
      Spaces space (TypeWriter.write ⟨registry, namedEnums, some space⟩ depth type)
        (TypeWriter.write ⟨registry.withNames (spaced space), namedEnums, none⟩ depth
          (type.withNames (spaced space)))
      ∧ Spaces space (TypeWriter.writeOperand ⟨registry, namedEnums, some space⟩ depth type)
        (TypeWriter.writeOperand ⟨registry.withNames (spaced space), namedEnums, none⟩ depth
          (type.withNames (spaced space))))
    ∧ (∀ (registry : Registry) o,
      Spaces space (TypeWriter.writeMethod ⟨registry, namedEnums, some space⟩ o)
        (TypeWriter.writeMethod ⟨registry.withNames (spaced space), namedEnums, none⟩ (o.withNames (spaced space))))
    ∧ ∀ d,
      (∃ types methods methods', types.name = "types.ts"
        ∧ generate ⟨namedEnums, some space⟩ d = .ok ⟨[types, methods]⟩
        ∧ generate ⟨namedEnums, none⟩ d = .ok ⟨[types, methods']⟩)
      ∨ ∃ failure, generate ⟨namedEnums, some space⟩ d = .error failure
        ∧ generate ⟨namedEnums, none⟩ d = .error failure := by
  refine ⟨fun registry depth type => ?_, fun registry o => ?_, fun d => ?_⟩
  · have hwriters := TypeWriter.matches_spaced registry namedEnums space
    exact ⟨(hwriters.write type depth).spaces, (hwriters.writeOperand depth type).spaces⟩
  · exact ((TypeWriter.matches_spaced registry namedEnums space).writeMethod o).spaces
  · have hmatched := generate_matched namedEnums (some space) d
    generalize generate ⟨namedEnums, some space⟩ d = project at hmatched
    generalize generate ⟨namedEnums, none⟩ d = plain at hmatched
    cases hmatched with
    | ok hfiles =>
      obtain ⟨types, methods, methods', hname, rfl, rfl⟩ := hfiles
      exact .inl ⟨types, methods, methods', hname, rfl, rfl⟩
    | error failure => exact .inr ⟨failure, rfl, rfl⟩

/-- A named enum and a declaration, both behind the space. -/
example : TypeWriter.write ⟨[("#/components/schemas/Cat", ⟨"Cat", "#/components/schemas/Cat", .string⟩)], true,
      some "Api"⟩ 0 (.composition [.ref "#/components/schemas/Cat", .array (.enum ["a", "b"] (some "Kind"))])
    = ⟨["Cat", "Kind"], .ok "Api.Cat & Api.Kind[]"⟩ := by
  cbv

end Output

end TypedClient
