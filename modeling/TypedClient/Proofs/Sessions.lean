import Mathlib
import TypedClient.Proofs.ResolverSteps

namespace TypedClient

open ClientType (Inside)

/-!
# A resolver stays consistent

A resolver can be used in any order, and an action that fails keeps what it did before.  The declared,
missing, queued, and loaded things have to fit together all the same, after every action.

* `Resolver.Consistent` — how they fit together.
* `Resolver.Consistent.step` — every step of a resolver keeps this.
* `Session` — a resolver in use, with what it has returned.
* `Session.performAll_consistent` — a session stays consistent, whatever it is used for.
-/

namespace Resolver

variable {r r' : Resolver}

/-- The declared, missing, queued, and loaded things of a resolver fit together. -/
structure Consistent (r : Resolver) : Prop where
  /-- No missing key is declared. -/
  missing_new : ∀ key ∈ r.pending, key ∉ r.registry.keys
  missing_once : r.pending.Nodup
  /-- No file of the queue is loaded. -/
  queue_new : ∀ file ∈ r.queue, file ∉ r.loaded
  queue_once : r.queue.Nodup
  loaded_once : r.loaded.Nodup
  /-- The file of a missing key has been loaded or is going to be. -/
  missing_file : ∀ key ∈ r.pending, Link.fileOf key ∈ r.loaded ∨ Link.fileOf key ∈ r.queue
  /-- What a declared type refers to is declared or missing. -/
  declared_known : ∀ d ∈ r.registry.values, ∀ key, Inside (.ref key) d.type → r.Knows key
  /-- No key is declared twice. -/
  declared_once : r.registry.keys.Nodup
  /-- A declaration has the key that it is registered under. -/
  own_key : ∀ key d, (key, d) ∈ r.registry → d.key = key
  /-- The documents asked for are those of different files, all of them loaded. -/
  asked_once : ∃ files : List String, files.Nodup ∧ (∀ file ∈ files, file ∈ r.loaded)
    ∧ List.Forall₂ (fun file locator => Locator.join r.base file = .ok locator) files r.asked

/-- A resolver forgets no key. -/
theorem Step.knows (h : Step r r') (hnodup : r.pending.Nodup) {key : String} (hkey : r.Knows key) :
    r'.Knows key := by
  cases h with
  | note key' => exact knows_noteLink.mpr (.inl hkey)
  | declare file name =>
    rw [Knows, registry_declare, Table.mem_keys_put, mem_pending_declare hnodup]
    -- The declared key is not missing any more, and all other keys are where they were.
    by_cases heq : key = Link.schemaKey file name
    · exact .inl (.inl heq)
    · rcases hkey with hkey | hkey
      · exact .inl (.inr hkey)
      · exact .inr ⟨heq, hkey⟩
  | take => exact hkey
  | ask => exact hkey

theorem Consistent.noteLink (h : r.Consistent) (key : String) : (r.noteLink key).Consistent where
  missing_new k hk := by
    rw [registry_noteLink]
    rcases mem_pending_noteLink.mp hk with hk | ⟨-, hk⟩
    · exact h.missing_new k hk
    · exact hk
  missing_once := nodup_pending_noteLink h.missing_once
  queue_new file hfile := by
    rw [loaded_noteLink]
    rcases mem_queue_noteLink.mp hfile with hfile | ⟨-, -, hfile⟩
    · exact h.queue_new file hfile
    · exact hfile
  queue_once := nodup_queue_noteLink h.queue_once
  loaded_once := by
    rw [loaded_noteLink]
    exact h.loaded_once
  -- A key that gets pending queues its file, unless the file is loaded.
  missing_file k hk := by
    rw [loaded_noteLink, mem_queue_noteLink]
    rcases mem_pending_noteLink.mp hk with hold | ⟨rfl, hnew⟩
    · exact (h.missing_file k hold).imp_right .inl
    · by_cases hloaded : Link.fileOf k ∈ r.loaded
      · exact .inl hloaded
      · exact .inr (.inr ⟨rfl, hnew, hloaded⟩)
  declared_known d hd k hk := by
    rw [registry_noteLink] at hd
    exact (Step.note r key).knows h.missing_once (h.declared_known d hd k hk)
  declared_once := by
    rw [registry_noteLink]
    exact h.declared_once
  own_key k d hd := h.own_key k d (by rwa [registry_noteLink] at hd)
  asked_once := by
    rw [loaded_noteLink, asked_noteLink, base_noteLink]
    exact h.asked_once

theorem Consistent.declare (h : r.Consistent) (file name : String) {type : ClientType}
    (htype : ∀ key, Inside (.ref key) type → r.Knows key) : (r.declare file name type).Consistent where
  missing_new k hk := by
    rw [mem_pending_declare h.missing_once] at hk
    rw [registry_declare, Table.mem_keys_put, not_or]
    exact ⟨hk.1, h.missing_new k hk.2⟩
  missing_once := h.missing_once.erase _
  queue_new := h.queue_new
  queue_once := h.queue_once
  loaded_once := h.loaded_once
  missing_file k hk := h.missing_file k ((mem_pending_declare h.missing_once).mp hk).2
  -- The new type refers to known keys, and a key that is declared stays known.
  declared_known d hd k hk := by
    refine (Step.declare r file name htype).knows h.missing_once ?_
    obtain ⟨key, hd⟩ := Table.mem_values_iff.mp hd
    rcases Table.mem_put hd with heq | hd
    · cases heq
      exact htype k hk
    · exact h.declared_known d (Table.mem_values_iff.mpr ⟨key, hd⟩) k hk
  declared_once := Table.nodup_keys_put h.declared_once _ _
  own_key k d hd := by
    rcases Table.mem_put hd with heq | hd
    · cases heq
      rfl
    · exact h.own_key k d hd
  asked_once := h.asked_once

theorem Consistent.taken (h : r.Consistent) (file : String) : (r.taken file).Consistent where
  missing_new := h.missing_new
  missing_once := h.missing_once
  queue_new other hother := by
    obtain ⟨hne, hother⟩ := h.queue_once.mem_erase_iff.mp hother
    rw [mem_loaded_taken, not_or]
    exact ⟨h.queue_new other hother, hne⟩
  queue_once := h.queue_once.erase _
  loaded_once := nodup_loaded_taken h.loaded_once
  missing_file k hk := by
    -- The file has moved from the queue to the loaded ones.
    rw [mem_loaded_taken]
    by_cases heq : Link.fileOf k = file
    · exact .inl (.inr heq)
    · rcases h.missing_file k hk with hk | hk
      · exact .inl (.inl hk)
      · exact .inr (h.queue_once.mem_erase_iff.mpr ⟨heq, hk⟩)
  declared_known := h.declared_known
  declared_once := h.declared_once
  own_key := h.own_key
  asked_once := by
    obtain ⟨files, hnodup, hloaded, hasked⟩ := h.asked_once
    exact ⟨files, hnodup, fun f hf => mem_loaded_taken.mpr (.inl (hloaded f hf)), hasked⟩

/-- A file of the queue has not been asked for yet. -/
theorem Consistent.asking (h : r.Consistent) {file locator : String} (hfile : file ∈ r.queue)
    (hjoin : Locator.join r.base file = .ok locator) :
    ((r.taken file).asking locator).Consistent :=
  { h.taken file with
    asked_once := by
      -- The files that were asked for are loaded, and those of the queue are not.
      obtain ⟨files, hnodup, hloaded, hasked⟩ := h.asked_once
      refine ⟨files ++ [file], ?_, ?_, ?_⟩
      · refine hnodup.append (List.nodup_singleton _) ?_
        rw [List.disjoint_singleton]
        exact fun hmem => h.queue_new file hfile (hloaded file hmem)
      · intro other hother
        refine mem_loaded_taken.mpr ?_
        rw [List.mem_append, List.mem_singleton] at hother
        exact hother.imp_left (hloaded other)
      · exact List.rel_append hasked (.cons hjoin .nil) }

/-- **Every step keeps a resolver consistent.** -/
theorem Consistent.step (h : r.Consistent) (hstep : Step r r') : r'.Consistent := by
  cases hstep with
  | note key => exact h.noteLink key
  | declare file name htype => exact h.declare file name htype
  | @take file => exact h.taken file
  | ask hfile hjoin => exact h.asking hfile hjoin

/-- Steps keep a resolver consistent, and it forgets no key on the way. -/
theorem Consistent.steps (h : r.Consistent) (hsteps : Steps r r') :
    r'.Consistent ∧ ∀ key, r.Knows key → r'.Knows key := by
  induction hsteps with
  | refl => exact ⟨h, fun _ => id⟩
  | tail _ hstep ih =>
    exact ⟨ih.1.step hstep, fun key hkey => hstep.knows ih.1.missing_once (ih.2 key hkey)⟩

/-- A resolver that knows nothing yet is consistent. -/
theorem fresh_consistent (base entry : String) : (fresh base entry).Consistent where
  missing_new := nofun
  missing_once := .nil
  queue_new := nofun
  queue_once := .nil
  loaded_once := List.nodup_singleton _
  missing_file := nofun
  declared_known := nofun
  declared_once := .nil
  own_key := nofun
  asked_once := ⟨[], .nil, nofun, .nil⟩

end Resolver

/-! ### Sessions -/

/-- What a resolver can be asked to do, with a document, a schema, or a link of some file.  The source
    of the documents can be another one every time. -/
inductive Action where
  | register (document : Value) (file : String)
  | convert (schema : Value) (file : String)
  | reference (link : Value) (file : String)
  | keyOf (link : Value) (file : String)
  | extract (paths : Value)
  | resolve (source : Source)

/-- A resolver in use, and the types and operations that it has returned so far. -/
structure Session where
  resolver : Resolver
  types : List ClientType
  operations : List Operation

namespace Session

/-- The session after an action, whether the action has succeeded or not. -/
def perform (s : Session) : Action → Session
  | .register document file => { s with resolver := (s.resolver.register file document).2 }
  | .convert schema file =>
    let (result, resolver) := s.resolver.convert file schema
    { s with resolver, types := s.types ++ result.toOption.toList }
  | .reference link file =>
    let (result, resolver) := s.resolver.reference file link
    { s with resolver, types := s.types ++ result.toOption.toList }
  | .keyOf _ _ => s
  | .extract paths =>
    let (result, resolver) := s.resolver.run (Route.extract s.resolver.entry paths)
    { s with resolver, operations := s.operations ++ (result.toOption.getD []) }
  | .resolve source => { s with resolver := (s.resolver.resolve source).2 }

/-- The resolver is consistent and knows everything that a returned type or operation refers to. -/
structure Consistent (s : Session) : Prop where
  resolver : s.resolver.Consistent
  types_known : ∀ type ∈ s.types, ∀ key, Inside (.ref key) type → s.resolver.Knows key
  operations_known : ∀ o ∈ s.operations, ∀ type ∈ o.types, ∀ key, Inside (.ref key) type →
    s.resolver.Knows key

variable {s : Session}

/-- A session stays consistent while its resolver takes steps and nothing is returned. -/
theorem Consistent.steps (h : s.Consistent) {r : Resolver} (hsteps : Resolver.Steps s.resolver r) :
    Consistent { s with resolver := r } := by
  obtain ⟨hr, hknows⟩ := h.resolver.steps hsteps
  exact {
    resolver := hr
    types_known := fun type ht key hkey => hknows key (h.types_known type ht key hkey)
    operations_known := fun o ho type ht key hkey => hknows key (h.operations_known o ho type ht key hkey) }

/-- A session stays consistent when a type is returned of which everything is known. -/
theorem Consistent.returning (h : s.Consistent) (result : Except Failure ClientType)
    (hresult : ∀ type, result = .ok type → ∀ key, Inside (.ref key) type → s.resolver.Knows key) :
    Consistent { s with types := s.types ++ result.toOption.toList } := by
  refine { h with types_known := fun type ht => ?_ }
  rcases List.mem_append.mp ht with ht | ht
  · exact h.types_known type ht
  · cases result with
    | error e => cases ht
    | ok returned =>
      rw [List.mem_singleton.mp ht]
      exact hresult returned rfl

/-- The links of an extraction are known after it. -/
theorem knows_extract {r : Resolver} {paths : Value} {operations : List Operation}
    (h : (Route.extract r.entry paths).result = .ok operations) {o : Operation}
    (ho : o ∈ operations) {type : ClientType} (ht : type ∈ o.types) {key : String}
    (hkey : Inside (.ref key) type) : (r.run (Route.extract r.entry paths)).2.Knows key := by
  refine Resolver.knows_noteLinks.mpr (.inr ?_)
  exact (Route.mem_log_iff_inside (Logged.eq_mk_of_result h)).mpr ⟨o, ho, type, ht, hkey⟩

/-- **Every action keeps a session consistent.** -/
theorem Consistent.perform (h : s.Consistent) (action : Action) : (s.perform action).Consistent := by
  cases action with
  | register document file => exact h.steps (Resolver.steps_register _ file document)
  | convert schema file =>
    refine (h.steps (Resolver.steps_run s.resolver _)).returning _ ?_
    exact fun type ht key hkey => Resolver.knows_convert ht hkey
  | reference link file =>
    simp only [Session.perform, Resolver.reference]
    cases Link.keyOfValue (s.resolver.scope file) link with
    | error e =>
      refine h.returning (.error e) ?_
      intro type ht
      cases ht
    | ok key =>
      refine (h.steps (.single (.note s.resolver key))).returning (.ok (.ref key)) ?_
      intro type ht target htarget
      cases ht
      exact Resolver.knows_noteLink.mpr (.inr (ClientType.inside_ref_ref.mp htarget))
  | keyOf => exact h
  | extract paths =>
    have hsteps := h.steps (Resolver.steps_run s.resolver (Route.extract s.resolver.entry paths))
    refine { hsteps with operations_known := fun o ho type ht key hkey => ?_ }
    rcases List.mem_append.mp ho with ho | ho
    · exact hsteps.operations_known o ho type ht key hkey
    · -- Only an extraction that succeeds returns operations.
      change o ∈ (Route.extract s.resolver.entry paths).result.toOption.getD [] at ho
      cases hresult : (Route.extract s.resolver.entry paths).result with
      | error e =>
        rw [hresult] at ho
        cases ho
      | ok operations =>
        rw [hresult] at ho
        exact knows_extract hresult ho ht hkey
  | resolve source => exact h.steps (Resolver.steps_resolve source _)

/-- A session in which nothing has been done yet. -/
def start (r : Resolver) : Session :=
  { resolver := r, types := [], operations := [] }

/-- The session after actions one after the other. -/
def performAll (s : Session) (actions : List Action) : Session :=
  actions.foldl perform s

theorem Consistent.performAll (h : s.Consistent) (actions : List Action) :
    (s.performAll actions).Consistent := by
  induction actions generalizing s with
  | nil => exact h
  | cons action actions ih => exact ih (h.perform action)

/-- **A resolver is always consistent.**  Whatever it has been used for since it was made, and however
    often that failed, its declared, missing, queued, and loaded things fit together; it knows whatever
    it has returned refers to; and it has asked for no file twice. -/
theorem performAll_consistent {base entry : String} {r : Resolver}
    (h : Resolver.start base entry = .ok r) (actions : List Action) :
    ((start r).performAll actions).Consistent := by
  have hr : r.Consistent := by
    rw [Resolver.eq_fresh_of_start h]
    exact Resolver.fresh_consistent base r.entry
  have hstart : (start r).Consistent := ⟨hr, nofun, nofun⟩
  exact hstart.performAll actions

/-- An array of links to a file that cannot be loaded, a schema of that file, and a second try. -/
def orderActions : List Action :=
  [.convert (.map [(.text "type", .text "array"),
      (.text "items", .map [(.text "$ref", .text "./order.yaml#/components/schemas/Order")])]) "",
    .resolve (Source.ofTable []),
    .register (.map [(.text "components", .map [(.text "schemas",
      .map [(.text "Order", .map [(.text "$ref", .text "#/components/schemas/Missing")])])])])
      "order.yaml",
    .resolve (Source.ofTable [])]

theorem orderActions_consistent :
    Resolver.start "/specs" "main.yaml" = .ok (Resolver.fresh "/specs" "main.yaml")
      ∧ ((start (Resolver.fresh "/specs" "main.yaml")).performAll orderActions).Consistent := by
  have h : Resolver.start "/specs" "main.yaml" = .ok (Resolver.fresh "/specs" "main.yaml") := by cbv
  exact ⟨h, performAll_consistent h orderActions⟩

end Session

end TypedClient
