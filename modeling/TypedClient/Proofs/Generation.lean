import TypedClient.Proofs.Closure
import TypedClient.Proofs.Emission
import TypedClient.Proofs.MemberNames

namespace TypedClient

open ClientType (Inside)

/-!
# A description can be generated

Writing the client looks up declarations, groups, placeholders and enum members.  Reading the documents has
made sure that all of them are there, so the only mistake that is left to be found is a discriminator that
maps a value to something that is no member of its union.

* `FailsOnly` — which failures a computation can end with.
* `Mismatch` — the mistake that is left.
* `TypeWriter.write_failsOnly` — writing a type whose references are declared makes no other mistake.
* `Description.Complete` — what reading the documents has made sure of.
* `generate_parsed` — a description that was read is generated, or holds such a discriminator.
-/

/-! ### Failures of a computation -/

/-- If a computation has no result, its failure is one of these. -/
def FailsOnly {α : Type} (P : Failure → Prop) (x : Except Failure α) : Prop :=
  ∀ e, x = .error e → P e

namespace FailsOnly

variable {α β : Type} {P Q : Failure → Prop}

theorem ok (a : α) : FailsOnly P (.ok a) := nofun

theorem mono {x : Except Failure α} (h : FailsOnly P x) (hPQ : ∀ e, P e → Q e) : FailsOnly Q x :=
  fun e he => hPQ e (h e he)

theorem bind {x : Except Failure α} {f : α → Except Failure β} (hx : FailsOnly P x)
    (hf : ∀ a, x = .ok a → FailsOnly P (f a)) : FailsOnly P (x >>= f) := by
  cases x with
  | error e =>
    rintro _ ⟨⟩
    exact hx e rfl
  | ok a => exact hf a rfl

/-- There is a result, or one of the failures. -/
theorem ok_or_error {x : Except Failure α} (h : FailsOnly P x) :
    (∃ a, x = .ok a) ∨ ∃ e, x = .error e ∧ P e := by
  cases x with
  | error e => exact .inr ⟨e, rfl, h e rfl⟩
  | ok a => exact .inl ⟨a, rfl⟩

end FailsOnly

namespace Logged

variable {α β : Type} {P : Failure → Prop}

theorem result_bind (x : Logged α) (f : α → Logged β) :
    (x >>= f).result = x.result >>= fun a => (f a).result := by
  obtain ⟨log, result⟩ := x
  cases result <;> rfl

/-- One step after the other. -/
theorem failsOnly_bind {x : Logged α} {f : α → Logged β} (hx : FailsOnly P x.result)
    (hf : ∀ a, x.result = .ok a → FailsOnly P (f a).result) : FailsOnly P (x >>= f).result := by
  rw [result_bind]
  exact hx.bind hf

/-- The last step only puts something together. -/
theorem failsOnly_map {x : Logged α} (f : α → β) (hx : FailsOnly P x.result) :
    FailsOnly P (x >>= fun a => pure (f a)).result :=
  failsOnly_bind hx fun a _ => .ok (f a)

theorem failsOnly_mapM {f : α → Logged β} {xs : List α} (h : ∀ x ∈ xs, FailsOnly P (f x).result) :
    FailsOnly P (xs.mapM f).result := by
  induction xs with
  | nil => exact .ok _
  | cons x xs ih =>
    rw [List.forall_mem_cons] at h
    rw [List.mapM_cons]
    exact failsOnly_bind h.1 fun _ _ => failsOnly_map _ (ih h.2)

end Logged

open Logged (failsOnly_bind failsOnly_map failsOnly_mapM)

/-! ### Types -/

/-- Everything that the type refers to is declared. -/
def Covers (registry : Registry) (type : ClientType) : Prop :=
  ∀ key, Inside (.ref key) type → key ∈ registry.keys

/-- A union inside of the type has a discriminator that maps the value to a key that is no member. -/
def Mismatch (type : ClientType) (e : Failure) : Prop :=
  ∃ members tag mapping shared tagType value key,
    Inside (.union members tag mapping shared tagType) type ∧ (value, key) ∈ mapping
      ∧ .ref key ∉ members ∧ e = .discriminatorMismatch value key

/-- What is inside of a piece is inside of the whole. -/
theorem Mismatch.mono {inner outer : ClientType} {e : Failure} (h : Mismatch inner e)
    (hinside : ∀ node, Inside node inner → Inside node outer) : Mismatch outer e := by
  obtain ⟨members, tag, mapping, shared, tagType, value, key, hunion, hmem⟩ := h
  exact ⟨members, tag, mapping, shared, tagType, value, key, hinside _ hunion, hmem⟩

/-- One of the types has a wrong discriminator inside of it. -/
def MismatchIn (types : List ClientType) (e : Failure) : Prop :=
  ∃ type ∈ types, Mismatch type e

/-- A wrong discriminator inside of an object is inside of one of its fields. -/
theorem mismatchIn_of_object {fields : List (Field ClientType)} {e : Failure}
    (h : Mismatch (.object fields) e) : MismatchIn (fields.map (·.type)) e := by
  obtain ⟨members, tag, mapping, shared, tagType, value, key, hunion, hmem⟩ := h
  cases hunion with
  | field hf hunion =>
    exact ⟨_, List.mem_map_of_mem hf, members, tag, mapping, shared, tagType, value, key, hunion, hmem⟩

namespace Output

theorem TypeWriter.mem_memberKeys_iff {members : List ClientType} {key : String} :
    key ∈ memberKeys members ↔ .ref key ∈ members := by
  induction members with
  | nil => simp [memberKeys]
  | cons member rest ih =>
    simp only [memberKeys] at ih ⊢
    cases member with
    | ref target => simp [ih]
    | _ => simp [ih]

namespace TypeWriter

variable {w : TypeWriter} {depth : Nat} {P : Failure → Prop}

theorem exists_declaration {key : String} (h : key ∈ w.registry.keys) :
    ∃ d, w.declaration key = .ok d := by
  obtain ⟨d, hd⟩ := Option.isSome_iff_exists.mp (Table.isSome_get?_iff.mpr h)
  exact ⟨d, declaration_eq_ok.mpr hd⟩

theorem writeOperands_failsOnly {types : List ClientType}
    (h : ∀ type ∈ types, FailsOnly P (w.write depth type).result) :
    FailsOnly P (w.writeOperands depth types).result := by
  induction types with
  | nil => exact .ok _
  | cons type rest ih =>
    rw [List.forall_mem_cons] at h
    rw [writeOperands]
    exact failsOnly_bind h.1 fun _ _ => failsOnly_map _ (ih h.2)

theorem writeFields_failsOnly {omitted : Option String} {fields : List (Field ClientType)}
    (h : ∀ f ∈ fields, FailsOnly P (w.write (depth + 1) f.type).result) :
    FailsOnly P (w.writeFields depth omitted fields).result := by
  induction fields with
  | nil => exact .ok _
  | cons f rest ih =>
    obtain ⟨name, type, required⟩ := f
    rw [List.forall_mem_cons] at h
    rw [writeFields]
    split
    · exact ih h.2
    · exact failsOnly_bind h.1 fun _ _ => failsOnly_map _ (ih h.2)

/-- The value of a discriminator is written if the declaration that types it is there. -/
theorem tagText_failsOnly {tagType : Option String} (value : String)
    (h : ∀ key, tagType = some key → key ∈ w.registry.keys) :
    FailsOnly P (w.tagText tagType value).result := by
  unfold tagText
  split
  · next key =>
    split
    · obtain ⟨d, hd⟩ := exists_declaration (h key rfl)
      rw [hd, Logged.lift_ok_bind]
      split
      · split <;> exact .ok _
      · exact .ok _
    · exact .ok _
  · exact .ok _

theorem writeVariants_failsOnly {tag tagType : Option String} {values : Table String String}
    {members : List ClientType} (hmembers : ∀ member ∈ members, FailsOnly P (w.write depth member).result)
    (htagType : ∀ key, tagType = some key → key ∈ w.registry.keys) :
    FailsOnly P (w.writeVariants depth tag values tagType members).result := by
  induction members with
  | nil => exact .ok _
  | cons member rest ih =>
    rw [List.forall_mem_cons] at hmembers
    rw [writeVariants_cons]
    refine failsOnly_bind hmembers.1 fun text _ => failsOnly_bind ?_ fun _ _ => failsOnly_map _ (ih hmembers.2)
    unfold writeVariant
    split
    · exact failsOnly_map _ (tagText_failsOnly _ htagType)
    · exact .ok _

/-- A discriminator is right if it maps its values to members only. -/
theorem tagValues_failsOnly (keys : List String) (mapping : Table String String) :
    FailsOnly (fun e => ∃ value key, (value, key) ∈ mapping ∧ key ∉ keys
      ∧ e = .discriminatorMismatch value key) (tagValues keys mapping) := by
  induction mapping with
  | nil => exact .ok _
  | cons entry rest ih =>
    obtain ⟨value, key⟩ := entry
    rw [tagValues]
    split
    · refine FailsOnly.bind (ih.mono ?_) fun _ _ => .ok _
      rintro e ⟨value, key, hmem, hkey⟩
      exact ⟨value, key, List.mem_cons_of_mem _ hmem, hkey⟩
    · next hkey =>
      rintro _ ⟨⟩
      rw [List.contains_iff_mem] at hkey
      exact ⟨value, key, List.mem_cons_self, hkey, rfl⟩

/-- **Writing a type.**  If everything that a type refers to is declared, it is written, or a discriminator
    inside of it is wrong. -/
theorem write_failsOnly {type : ClientType} (h : Covers w.registry type) (depth : Nat) :
    FailsOnly (Mismatch type) (w.write depth type).result := by
  induction type using ClientType.inductFields generalizing depth with
  | string | number | boolean | void | freeFormMap => rw [write]; exact .ok _
  | enum values name =>
    rw [write]
    split <;> exact .ok _
  | array element ih =>
    rw [write]
    refine failsOnly_map _ ((ih (fun key hkey => h key (.element hkey)) depth).mono fun e he => ?_)
    exact he.mono fun _ => .element
  | map element ih =>
    rw [write]
    refine failsOnly_map _ ((ih (fun key hkey => h key (.value hkey)) depth).mono fun e he => ?_)
    exact he.mono fun _ => .value
  | object fields ih =>
    cases fields with
    | nil => rw [write]; exact .ok _
    | cons f rest =>
      rw [write]
      · refine failsOnly_map _ (writeFields_failsOnly fun g hg => ?_)
        refine (ih g hg (fun key hkey => h key (.field hg hkey)) _).mono fun e he => ?_
        exact he.mono fun _ => .field hg
      · exact List.cons_ne_nil f rest
  | composition parts ih =>
    rw [write]
    refine failsOnly_map _ (writeOperands_failsOnly fun part hp => ?_)
    refine (ih part hp (fun key hkey => h key (.part hp hkey)) depth).mono fun e he => ?_
    exact he.mono fun _ => .part hp
  | ref target =>
    obtain ⟨d, hd⟩ := exists_declaration (h target .here)
    rw [write, hd, Logged.lift_ok_bind]
    exact .ok _
  | union members tag mapping shared tagType ihm ihs =>
    -- The mapping may name what is no member; everything else comes from the members and fields.
    have hvalues : FailsOnly (Mismatch (.union members tag mapping shared tagType))
        (tagValues (memberKeys members) mapping) := by
      refine (tagValues_failsOnly _ mapping).mono ?_
      rintro e ⟨value, key, hmem, hkey, rfl⟩
      rw [mem_memberKeys_iff] at hkey
      exact ⟨members, tag, mapping, shared, tagType, value, key, .here, hmem, hkey, rfl⟩
    have hvariants : ∀ values, FailsOnly (Mismatch (.union members tag mapping shared tagType))
        (w.writeVariants depth tag values tagType members).result := by
      refine fun values => writeVariants_failsOnly (fun member hm => ?_) fun key hkey => h key ?_
      · refine (ihm member hm (fun key hkey => h key (.member hm hkey)) depth).mono fun e he => ?_
        exact he.mono fun _ => .member hm
      · subst hkey
        exact .tagType rfl
    cases shared with
    | none =>
      rw [write]
      exact failsOnly_bind hvalues fun values _ => failsOnly_map _ (hvariants values)
    | some fields =>
      rw [write]
      refine failsOnly_bind hvalues fun values _ => failsOnly_bind (hvariants values) fun _ _ => ?_
      split
      · exact .ok _
      · refine failsOnly_map _ (writeFields_failsOnly fun f hf => ?_)
        refine (ihs fields rfl f hf (fun key hkey => h key (.shared (.field hf hkey))) _).mono fun e he => ?_
        exact he.mono fun _ hnode => .shared (.field hf hnode)

/-! ### Methods -/

theorem writeArgument_failsOnly {o : Operation} (h : ∀ type ∈ o.types, Covers w.registry type) :
    FailsOnly (MismatchIn o.types) (w.writeArgument o).result := by
  have hparameter : ∀ p ∈ o.parameters, p.type ∈ o.types := by
    intro p hp
    exact List.mem_append_left _ (List.mem_append_left _ (List.mem_map_of_mem hp))
  have hbody : FailsOnly (MismatchIn o.types) (w.writeOperands 1 o.bodyTypes).result := by
    refine writeOperands_failsOnly fun type ht => ?_
    have htype : type ∈ o.types := List.mem_append_left _ (List.mem_append_right _ ht)
    exact (write_failsOnly (h type htype) 1).mono fun e he => ⟨type, htype, he⟩
  have hown : FailsOnly (MismatchIn o.types)
      (w.write 1 (.object (o.parameters.map fun p => ⟨p.name, p.type, p.required⟩))).result := by
    have hcovers : Covers w.registry (.object (o.parameters.map fun p => ⟨p.name, p.type, p.required⟩)) := by
      intro key hkey
      obtain ⟨f, hf, hkey⟩ := ClientType.inside_ref_object.mp hkey
      obtain ⟨p, hp, rfl⟩ := List.mem_map.mp hf
      exact h p.type (hparameter p hp) key hkey
    refine (write_failsOnly hcovers 1).mono fun e he => ?_
    obtain ⟨type, ht, he⟩ := mismatchIn_of_object he
    rw [List.map_map] at ht
    obtain ⟨p, hp, rfl⟩ := List.mem_map.mp ht
    exact ⟨p.type, hparameter p hp, he⟩
  unfold writeArgument
  dsimp only
  split
  · exact failsOnly_bind (.ok _) fun _ _ => failsOnly_map _ hbody
  · exact failsOnly_bind hown fun _ _ => failsOnly_bind (.ok _) fun _ _ => failsOnly_map _ hbody

/-- The route of a call can be written if it is a right template. -/
theorem arguments_failsOnly {c : Call} (h : ∃ names, Route.parameterNames c.route = .ok names) :
    FailsOnly P c.arguments := by
  obtain ⟨names, hnames⟩ := h
  have hroute : FailsOnly P c.routeText := by
    unfold Call.routeText
    rw [hnames]
    split <;> exact .ok _
  exact hroute.bind fun _ _ => .ok _

theorem writeMethod_failsOnly {o : Operation} (h : ∀ type ∈ o.types, Covers w.registry type)
    (hroute : ∃ names, Route.parameterNames o.route = .ok names) :
    FailsOnly (MismatchIn o.types) (w.writeMethod o).result := by
  have hresult : o.result ∈ o.types := List.mem_append_right _ (List.mem_singleton_self _)
  unfold writeMethod
  refine failsOnly_bind (writeArgument_failsOnly h) fun types _ => ?_
  refine failsOnly_bind (arguments_failsOnly hroute) fun arguments _ => failsOnly_map _ ?_
  exact (write_failsOnly (h _ hresult) 1).mono fun e he => ⟨o.result, hresult, he⟩

theorem writeDeclaration_failsOnly {d : Declaration} (h : Covers w.registry d.type) :
    FailsOnly (Mismatch d.type) (w.writeDeclaration d).result := by
  unfold writeDeclaration
  split
  · exact .ok _
  · exact failsOnly_map _ (write_failsOnly h 0)

end TypeWriter

end Output

/-! ### Descriptions -/

/-- The types that a description is generated from. -/
def Description.types (d : Description) : List ClientType :=
  d.registry.values.map (·.type) ++ d.operations.flatMap Operation.types

/-- What reading the documents has made sure of. -/
structure Description.Complete (d : Description) : Prop where
  /-- Everything that a type refers to is declared. -/
  declared : ∀ type ∈ d.types, Covers d.registry type
  /-- There is a group for the method of every operation. -/
  grouped : ∀ o ∈ d.operations, ∃ g ∈ Output.groups, g.method = o.method
  /-- Every route is a right template. -/
  scanned : ∀ o ∈ d.operations, ∃ names, Route.parameterNames o.route = .ok names

namespace Output

variable {d : Description} {options : Options}

theorem typesFile_failsOnly (h : d.Complete) :
    FailsOnly (MismatchIn d.types) (typesFile options d) := by
  have hdeclarations : FailsOnly (MismatchIn d.types)
      ((sortedDeclarations d.registry).mapM
        (TypeWriter.writeDeclaration ⟨d.registry, options.namedEnums, none⟩)).result := by
    refine failsOnly_mapM fun x hx => ?_
    have hx' : x ∈ d.registry.values := (List.mergeSort_perm ..).mem_iff.mp hx
    have htype : x.type ∈ d.types := List.mem_append_left _ (List.mem_map_of_mem hx')
    exact (TypeWriter.writeDeclaration_failsOnly (h.declared x.type htype)).mono fun e he =>
      ⟨x.type, htype, he⟩
  exact hdeclarations.bind fun _ _ => .ok _

theorem methodsFile_failsOnly (h : d.Complete) :
    FailsOnly (MismatchIn d.types) (methodsFile options d) := by
  have hgrouped : (d.operations.all fun o => groups.any fun g => g.method == o.method) = true := by
    rw [List.all_eq_true]
    intro o ho
    obtain ⟨g, hg, hmethod⟩ := h.grouped o ho
    exact List.any_eq_true.mpr ⟨g, hg, beq_iff_eq.mpr hmethod⟩
  have hwritten : FailsOnly (MismatchIn d.types)
      (groups.mapM (writeGroup ⟨d.registry, options.namedEnums, options.space⟩ d.operations)).result := by
    refine failsOnly_mapM fun g _ => failsOnly_map _ (failsOnly_mapM fun o ho => ?_)
    have ho' : o ∈ d.operations := (List.mem_filter.mp ho).1
    have htypes : ∀ type ∈ o.types, type ∈ d.types := fun type ht =>
      List.mem_append_right _ (List.mem_flatMap.mpr ⟨o, ho', ht⟩)
    refine (TypeWriter.writeMethod_failsOnly (fun type ht => h.declared type (htypes type ht))
      (h.scanned o ho')).mono ?_
    rintro e ⟨type, ht, he⟩
    exact ⟨type, htypes type ht, he⟩
  unfold methodsFile
  rw [hgrouped]
  exact hwritten.bind fun _ _ => .ok _

/-- **Nothing else is missing.**  A complete description is generated, or a discriminator in it is wrong. -/
theorem generate_failsOnly (h : d.Complete) : FailsOnly (MismatchIn d.types) (generate options d) :=
  (typesFile_failsOnly h).bind fun _ _ => (methodsFile_failsOnly h).bind fun _ _ => .ok _

/-- The two files of a client. -/
theorem exists_files {project : Project} (h : generate options d = .ok project) :
    ∃ types methods, typesFile options d = .ok types ∧ methodsFile options d = .ok methods
      ∧ project = ⟨[types, methods]⟩ := by
  obtain ⟨types, htypes, hrest⟩ := Except.bind_eq_ok.mp h
  obtain ⟨methods, hmethods, hproject⟩ := Except.bind_eq_ok.mp hrest
  cases hproject
  exact ⟨types, methods, htypes, hmethods, rfl⟩

theorem generate_of_files {types methods : CodeFile} (htypes : typesFile options d = .ok types)
    (hmethods : methodsFile options d = .ok methods) : generate options d = .ok ⟨[types, methods]⟩ := by
  rw [generate, htypes, Except.ok_bind, hmethods]
  rfl

/-- Without declarations the file of the types is written. -/
theorem exists_typesFile_nil (options : Options) (operations : List Operation)
    (enums : Table String (List String)) : ∃ file, typesFile options ⟨[], operations, enums⟩ = .ok file := by
  have hsorted : sortedDeclarations [] = [] := List.mergeSort_nil
  simp only [typesFile, hsorted]
  exact ⟨_, rfl⟩

theorem name_typesFile {file : CodeFile} (h : typesFile options d = .ok file) : file.name = "types.ts" := by
  obtain ⟨texts, -, hfile⟩ := Except.bind_eq_ok.mp h
  cases hfile
  rfl

theorem name_methodsFile {file : CodeFile} (h : methodsFile options d = .ok file) :
    file.name = "api.ts" := by
  unfold methodsFile at h
  split at h
  · cases h
  · obtain ⟨texts, -, hfile⟩ := Except.bind_eq_ok.mp h
    cases hfile
    rfl

end Output

/-! ### Reading makes descriptions complete -/

namespace Route

/-- A method that is extracted has a group. -/
theorem exists_group_of_methodOf {key : Value} {method : String}
    (h : methodOf key = .ok (some method)) : ∃ g ∈ Output.groups, g.method = method := by
  unfold methodOf at h
  split at h
  · next s =>
    rw [Except.pure_eq_ok] at h
    split at h
    · next hmethod =>
      cases h
      -- The five words in lower case are the methods of the five groups.
      rw [List.contains_iff_mem] at hmethod
      simp only [methods, List.mem_cons, List.not_mem_nil, or_false] at hmethod
      rcases hmethod with hword | hword | hword | hword | hword <;> rw [hword] <;> decide
    · cases h
  · cases h
  · cases h

/-- The method and the route of an outline have been checked. -/
theorem checked_outline {paths : Value} {os : List Outline} (h : outlines paths = .ok os) {o : Outline}
    (ho : o ∈ os) : (∃ g ∈ Output.groups, g.method = o.method)
      ∧ ∃ names, parameterNames o.route = .ok names := by
  obtain ⟨entries, -, h⟩ := Except.bind_eq_ok.mp h
  obtain ⟨route, path, shared, described, key, spec, method, -, -, -, -, hmethod, ho⟩ :=
    exists_of_mem_outlinesOfPaths h ho
  simp only [outlineOf, headOf, Except.bind_eq_ok, Except.pure_eq_ok] at ho
  obtain ⟨head, ⟨text, -, names, hnames, own, -, merged, -, bound, -, hhead⟩, _, -, _, -, rfl⟩ := ho
  refine ⟨exists_group_of_methodOf hmethod, names, ?_⟩
  split at hhead
  · cases hhead
    exact hnames
  · cases hhead

end Route

namespace Bundle

variable {b : Bundle} {r : Resolver} {operations : List Operation}

/-- The method and the route of an operation have been checked. -/
theorem Reads.checked (h : b.Reads operations r) {o : Operation} (ho : o ∈ operations) :
    (∃ g ∈ Output.groups, g.method = o.method) ∧ ∃ names, Route.parameterNames o.route = .ok names := by
  obtain ⟨r₁, -, hrun⟩ := h
  obtain ⟨log, hextract, -⟩ := run_eq_ok.mp hrun
  obtain ⟨os, hos, xs, rfl, -, -, rfl⟩ := operations_eq_ok_iff.mp hextract
  obtain ⟨paths, -, hos⟩ := Except.bind_eq_ok.mp hos
  obtain ⟨x, hx, rfl⟩ := List.mem_map.mp ho
  exact Route.checked_outline hos (List.mem_map_of_mem hx)

/-- Everything that an operation refers to is known when the first document has been read. -/
theorem Reads.knows (h : b.Reads operations r) {o : Operation} (ho : o ∈ operations) {type : ClientType}
    (ht : type ∈ o.types) {key : String} (hkey : Inside (.ref key) type) : r.Knows key := by
  obtain ⟨r₁, -, hrun⟩ := h
  obtain ⟨log, hextract, rfl⟩ := run_eq_ok.mp hrun
  have hlog : key ∈ log := by
    unfold Bundle.operations at hextract
    cases hpaths : b.document.get "paths" with
    | error e => simp [hpaths] at hextract
    | ok paths =>
      rw [hpaths, Logged.lift_ok_bind] at hextract
      exact (Route.mem_log_iff_inside hextract).mpr ⟨o, ho, type, ht, hkey⟩
  exact Resolver.knows_noteLinks.mpr (.inr hlog)

/-- What has been read is complete when nothing is missing any more. -/
theorem Reads.complete {r' : Resolver} (h : b.Reads operations r)
    (hresolve : r.resolve b.source = (.ok (), r')) :
    Description.Complete ⟨r'.registry, operations, []⟩ := by
  obtain ⟨-, hpending⟩ := resolve_eq_ok.mp hresolve
  have hsteps := Resolver.steps_resolve b.source r
  rw [hresolve] at hsteps
  obtain ⟨hconsistent, hmono⟩ := h.settled.consistent.steps hsteps
  have hknown : ∀ key, r'.Knows key → key ∈ r'.registry.keys := by
    rintro key (hkey | hkey)
    · exact hkey
    · rw [hpending] at hkey
      cases hkey
  refine ⟨fun type ht key hkey => ?_, fun o ho => (h.checked ho).1, fun o ho => (h.checked ho).2⟩
  rcases List.mem_append.mp ht with ht | ht
  · obtain ⟨d, hd, rfl⟩ := List.mem_map.mp ht
    exact hknown key (hconsistent.declared_known d hd key hkey)
  · obtain ⟨o, ho, ht⟩ := List.mem_flatMap.mp ht
    exact hknown key (hmono key (h.knows ho ht hkey))

end Bundle

namespace EnumNaming

variable {registry : Registry} {operations : List Operation}

/-- Naming enums leaves the references of a declaration as they are. -/
theorem inside_ref_named_iff {pairs : List (List String × String)} {d : Declaration} {key : String} :
    Inside (.ref key) (applyToDeclaration pairs (nameDeclared d)).type ↔ Inside (.ref key) d.type := by
  obtain ⟨name, own, type⟩ := d
  cases type with
  | enum values assigned => simp [nameDeclared, applyToDeclaration]
  | _ => exact ClientType.inside_ref_nameEnums_iff

theorem keys_apply_start (pairs : List (List String × String)) :
    ((start registry operations).apply pairs).registry.keys = registry.keys := by
  simp [apply, start, Table.keys, Function.comp_def]

/-- A complete description stays complete when its enums are named. -/
theorem complete_resolve (h : Description.Complete ⟨registry, operations, []⟩)
    {enums : Table String (List String)} {named : EnumNaming}
    (hresolve : (start registry operations).resolve = (.ok enums, named)) :
    Description.Complete ⟨named.registry, named.operations, enums⟩ := by
  obtain ⟨names, -, -, rfl⟩ := resolve_eq_ok hresolve
  generalize (start registry operations).candidates.map (·.values) = sets
  refine ⟨fun type ht key hkey => ?_, fun _ hnamed => ?_, fun _ hnamed => ?_⟩
  · rw [keys_apply_start]
    rcases List.mem_append.mp ht with ht | ht
    · rw [values_apply, values_start, List.map_map, List.map_map] at ht
      obtain ⟨d, hd, rfl⟩ := List.mem_map.mp ht
      have htype : d.type ∈ Description.types ⟨registry, operations, []⟩ :=
        List.mem_append_left _ (List.mem_map_of_mem hd)
      exact h.declared d.type htype key (inside_ref_named_iff.mp hkey)
    · obtain ⟨_, hnamed, ht⟩ := List.mem_flatMap.mp ht
      obtain ⟨o, ho, rfl⟩ := List.mem_map.mp hnamed
      rw [types_applyToOperation] at ht
      obtain ⟨type, hold, rfl⟩ := List.mem_map.mp ht
      have htype : type ∈ Description.types ⟨registry, operations, []⟩ :=
        List.mem_append_right _ (List.mem_flatMap.mpr ⟨o, ho, hold⟩)
      exact h.declared type htype key (ClientType.inside_ref_nameEnums_iff.mp hkey)
  · obtain ⟨o, ho, rfl⟩ := List.mem_map.mp hnamed
    exact h.grouped o ho
  · obtain ⟨o, ho, rfl⟩ := List.mem_map.mp hnamed
    exact h.scanned o ho

end EnumNaming

/-- Reading a document is describing what it is linked to. -/
theorem Description.parse_eq_ok {source : Source} {base entry : String} {namedEnums : Bool}
    {document : Value} {d : Description} (h : parse source base entry namedEnums document = .ok d) :
    ∃ name r, Bundle.describe ⟨source, base, name, document⟩ namedEnums = (.ok d, r) := by
  obtain ⟨r, hstart, hdescribe⟩ := Except.bind_eq_ok.mp h
  rw [Resolver.eq_fresh_of_start hstart] at hdescribe
  exact ⟨r.entry, _, Prod.ext hdescribe rfl⟩

/-- A document that is linked to no other is described by what is read from it. -/
theorem Description.parse_of_reads {document : Value} {operations : List Operation} {r : Resolver}
    (hreads : Bundle.Reads ⟨Source.ofTable [], "", "", document⟩ operations r) (hqueue : r.queue = [])
    (hpending : r.pending = []) (hunique : r.checkUniqueNames = .ok ()) :
    parse (Source.ofTable []) "" "" false document = .ok ⟨r.registry, operations, []⟩ := by
  have hdescribe : Bundle.describe ⟨Source.ofTable [], "", "", document⟩ false
      = (.ok ⟨r.registry, operations, []⟩, r) :=
    Bundle.describe_eq_ok.mpr ⟨operations, r, r, hreads,
      Bundle.resolve_eq_ok.mpr ⟨Resolver.loadAll_nil hqueue, hpending⟩, hunique, rfl, rfl⟩
  show (Bundle.describe ⟨Source.ofTable [], "", "", document⟩ false).1 = _
  rw [hdescribe]

/-- **Reading makes descriptions complete.** -/
theorem Bundle.complete_of_describe {b : Bundle} {namedEnums : Bool} {d : Description} {r : Resolver}
    (h : b.describe namedEnums = (.ok d, r)) : d.Complete := by
  obtain ⟨operations, r₀, r₁, hreads, hresolve, -, hnamed⟩ := describe_eq_ok.mp h
  have hcomplete := hreads.complete hresolve
  cases namedEnums with
  | false =>
    obtain ⟨rfl, -⟩ := hnamed
    exact hcomplete
  | true =>
    obtain ⟨enums, henums, rfl, rfl⟩ := hnamed
    exact EnumNaming.complete_resolve hcomplete (Prod.ext henums rfl)

open Output in
/-- **A description can be generated.**  Whatever is read from documents is generated as the two files, or it
    has a union with a discriminator that maps a value to something that is no member; this is what is
    reported then.  The members of enums are always found. -/
theorem generate_parsed {source : Source} {base entry : String} {namedEnums : Bool} {document : Value}
    {d : Description} (h : Description.parse source base entry namedEnums document = .ok d)
    (options : Options) :
    ((∃ types methods, generate options d = .ok ⟨[types, methods]⟩ ∧ types.name = "types.ts"
        ∧ methods.name = "api.ts")
      ∨ ∃ members tag mapping shared tagType value key,
        (∃ type ∈ d.types, Inside (.union members tag mapping shared tagType) type)
          ∧ (value, key) ∈ mapping ∧ .ref key ∉ members
          ∧ generate options d = .error (.discriminatorMismatch value key))
    ∧ ∀ name values, (name, values) ∈ d.exportedEnums → ∀ value ∈ values,
      ((Naming.members values).get? value).isSome := by
  obtain ⟨_, r, hdescribe⟩ := Description.parse_eq_ok h
  refine ⟨?_, fun _ values _ value hvalue => Naming.isSome_get?_members_iff.mpr hvalue⟩
  have honly : FailsOnly (MismatchIn d.types) (generate options d) :=
    generate_failsOnly (Bundle.complete_of_describe hdescribe)
  rcases honly.ok_or_error with ⟨project, hproject⟩ | ⟨e, herror, type, ht, hmismatch⟩
  · obtain ⟨types, methods, htypes, hmethods, rfl⟩ := exists_files hproject
    exact .inl ⟨types, methods, hproject, name_typesFile htypes, name_methodsFile hmethods⟩
  · obtain ⟨members, tag, mapping, shared, tagType, value, key, hunion, hmem, hkey, rfl⟩ := hmismatch
    exact .inr ⟨members, tag, mapping, shared, tagType, value, key, ⟨type, ht, hunion⟩, hmem, hkey, herror⟩

/-! ### A value that is mapped to no member -/

/-- A schema without any fields. -/
def plainSchema : Value := .map [(.text "properties", .map [])]

/-- A pet is a cat, but the discriminator knows birds too. -/
def petEntries : List (Value × Value) :=
  [(.text "oneOf", .list [.map [(.text "$ref", .text "#/components/schemas/Cat")]]),
    (.text "discriminator", .map [(.text "propertyName", .text "kind"),
      (.text "mapping", .map [(.text "cat", .text "Cat"), (.text "bird", .text "Bird")])])]

def petSchemas : List (Value × Value) :=
  [(.text "Cat", plainSchema), (.text "Bird", plainSchema), (.text "Pet", .map petEntries)]

def petsDocument : Value :=
  .map [(.text "components", .map [(.text "schemas", .map petSchemas)])]

def petMapping : Table String String :=
  [("cat", "#/components/schemas/Cat"), ("bird", "#/components/schemas/Bird")]

def petUnion : ClientType :=
  .union [.ref "#/components/schemas/Cat"] (some "kind") petMapping none none

/-- What is known when the pets have been read. -/
def petsRead : Resolver where
  entry := ""
  base := ""
  registry := [("#/components/schemas/Cat", ⟨"Cat", "#/components/schemas/Cat", .object []⟩),
    ("#/components/schemas/Bird", ⟨"Bird", "#/components/schemas/Bird", .object []⟩),
    ("#/components/schemas/Pet", ⟨"Pet", "#/components/schemas/Pet", petUnion⟩)]
  pending := []
  queue := []
  loaded := [""]
  asked := []

theorem converts_plain : Schema.Converts ⟨"", ""⟩ plainSchema [] (.object []) := by
  have howns : Schema.Owns [(.text "properties", .map [])] (some []) := ⟨_, rfl, rfl, by simp⟩
  exact .object ⟨rfl, rfl⟩ howns (by simp) rfl rfl

theorem converts_pet : Schema.Converts ⟨"", ""⟩ (.map petEntries) ["#/components/schemas/Cat"] petUnion := by
  let cat : Schema.Conversion := ⟨.map [(.text "$ref", .text "#/components/schemas/Cat")],
    ["#/components/schemas/Cat"], .ref "#/components/schemas/Cat"⟩
  have hcat : ∀ c ∈ [cat], Schema.Converts ⟨"", ""⟩ c.schema c.log c.type := by
    intro c hc
    rw [List.mem_singleton.mp hc]
    exact .link rfl (by cbv)
  have howns : Schema.Owns petEntries none := by
    show Value.find? "properties" petEntries = none
    rfl
  have htags : Schema.Tags ⟨"", ""⟩ petEntries none (some "kind") petMapping none :=
    ⟨_, _, _, rfl, rfl, by cbv, rfl, rfl, by cbv⟩
  exact .union ⟨rfl, rfl⟩ howns (by simp) rfl rfl rfl hcat htags

theorem register_pets : (Resolver.fresh "" "").register "" petsDocument = (.ok (), petsRead) := by
  show Resolver.registerSchemas _ "" petSchemas = _
  have hscope : ∀ r : Resolver, r.entry = "" → r.scope "" = ⟨"", ""⟩ := by
    intro r hr
    rw [Resolver.scope, hr]
  simp only [petSchemas, Resolver.registerSchemas, Resolver.convert, Resolver.run, Value.asText]
  rw [hscope _ rfl, converts_plain.convert_eq]
  simp only []
  rw [hscope _ rfl, converts_plain.convert_eq]
  simp only []
  rw [hscope _ rfl, converts_pet.convert_eq]
  rfl

theorem parse_pets : Description.parse (Source.ofTable []) "" "" false petsDocument
    = .ok ⟨petsRead.registry, [], []⟩ :=
  Description.parse_of_reads ⟨_, register_pets, rfl⟩ rfl rfl rfl

/-- The pets are read; the only thing that can be reported when they are generated is the value that is
    mapped to no member. -/
theorem pets_mismatch :
    Description.parse (Source.ofTable []) "" "" false petsDocument = .ok ⟨petsRead.registry, [], []⟩
      ∧ ((∃ project, Output.generate ⟨false, none⟩ ⟨petsRead.registry, [], []⟩ = .ok project)
        ∨ Output.generate ⟨false, none⟩ ⟨petsRead.registry, [], []⟩
          = .error (.discriminatorMismatch "bird" "#/components/schemas/Bird")) := by
  refine ⟨parse_pets, ?_⟩
  rcases (generate_parsed parse_pets ⟨false, none⟩).1 with ⟨_, _, h, -, -⟩
    | ⟨members, tag, mapping, shared, tagType, value, key, ⟨type, ht, hunion⟩, hmem, hkey, herror⟩
  · exact .inl ⟨_, h⟩
  · have htypes : Description.types ⟨petsRead.registry, [], []⟩ = [.object [], .object [], petUnion] := rfl
    simp only [htypes, List.mem_cons, List.not_mem_nil, or_false] at ht
    rcases ht with rfl | rfl | rfl
    · cases hunion with
      | field hf _ => cases hf
    · cases hunion with
      | field hf _ => cases hf
    · cases hunion with
      | here =>
        simp only [petMapping, List.mem_cons, Prod.mk.injEq, List.not_mem_nil, or_false] at hmem
        rcases hmem with ⟨rfl, rfl⟩ | ⟨rfl, rfl⟩
        · exact absurd List.mem_cons_self hkey
        · exact .inr herror
      | member hm hunion =>
        cases List.mem_singleton.mp hm
        cases hunion

end TypedClient
