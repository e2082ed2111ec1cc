import TypedClient.Loading
import TypedClient.Proofs.Reading
import TypedClient.Proofs.Resolution
import TypedClient.Proofs.Writing
import Mathlib.Data.List.Infix

namespace TypedClient

/-!
# Sources that give the same documents

What a document describes depends on the documents that loading asks for, and on nothing else that a source could
give.  Two sources can bound the number of files by different numbers; a bound that is large enough never shows.

* `Bundle.Settled.loadAll_eq` — every bound that is large enough leads to the same result.
* `Bundle.describe_together` — a source that answers alike where it is asked leads to the same description.
* `Storage.mem_documents` — a storage gives no documents but those that its texts spell.
* `Job.describe_akin` — storages that give the same documents lead to the same description.
-/

/-- Sources that answer alike under all of these locators. -/
def Source.AnswersAlike (source other : Source) (locators : List String) : Prop :=
  ∀ locator ∈ locators, Akin (source.ask locator) (other.ask locator)

namespace Bundle

variable {b : Bundle} {r : Resolver} {source : Source}

/-! ### Bounds that are large enough -/

/-- Two bounds on the number of files lead to the same result, if neither is smaller than the number of files that
    are left. -/
theorem Settled.loadAll_eq (h : b.Settled r) {files : List String} (hfiles : ∀ file, b.Reachable file → file ∈ files)
    {fuel other : Nat} (hfuel : files.length ≤ r.loaded.length + fuel)
    (hother : files.length ≤ r.loaded.length + other) :
    r.loadAll b.source fuel = r.loadAll b.source other := by
  -- A file that is loaded counts, so one less is left for the bounds; a bound of zero is reached with an empty queue.
  induction fuel generalizing r other with
  | zero =>
    have hqueue := h.queue_eq_nil hfiles hfuel
    rw [Resolver.loadAll_nil hqueue, Resolver.loadAll_nil hqueue]
  | succ fuel ih =>
    cases hqueue : r.queue with
    | nil => rw [Resolver.loadAll_nil hqueue, Resolver.loadAll_nil hqueue]
    | cons file rest =>
      have hfile : file ∈ r.queue := by simp [hqueue]
      cases other with
      | zero =>
        have hnil := h.queue_eq_nil hfiles hother
        simp [hqueue] at hnil
      | succ other =>
        rw [Resolver.loadAll, Resolver.loadAll, hqueue]
        dsimp only
        split
        · next r₁ hload =>
          have hlength := h.length_loaded hfile hload
          apply ih (h.load hqueue hload)
          · omega
          · omega
        · rfl

/-- A bound that is larger than that of the source shows in nothing. -/
theorem Settled.loadAll_add (h : b.Settled r) (hreach : b.WithinReach) (more : Nat) :
    r.loadAll b.source (b.source.reach + r.queue.length + more)
      = r.loadAll b.source (b.source.reach + r.queue.length) := by
  obtain ⟨files, hlength, hfiles⟩ := hreach
  have hall : ∀ file, b.Reachable file → file ∈ r.loaded ++ r.queue ++ files :=
    fun file hfile => h.mem_of_reachable hfiles hfile
  apply h.loadAll_eq hall
  · simp only [List.length_append]
    omega
  · simp only [List.length_append]
    omega

/-! ### Documents that are asked for -/

/-- No document is forgotten to have been asked for. -/
theorem asked_steps {r r' : Resolver} (h : Resolver.Steps r r') : r.asked <+: r'.asked := by
  induction h with
  | refl => exact List.prefix_refl _
  | tail _ hstep ih =>
    apply ih.trans
    cases hstep with
    | note key => rw [Resolver.asked_noteLink]
    | declare file name _ => exact List.prefix_refl _
    | take _ => exact List.prefix_refl _
    | ask _ _ => exact List.prefix_append _ _

/-- What a resolver has come to is the same, or both resolvers have failed. -/
def Together {α : Type} (x y : Except Failure α × Resolver) : Prop :=
  Akin x.1 y.1 ∧ y.2 = x.2

theorem Together.refl {α : Type} (x : Except Failure α × Resolver) : Together x x :=
  ⟨.refl _, rfl⟩

theorem Together.andThen {α β : Type} {x y : Except Failure α × Resolver}
    {next : α → Resolver → Except Failure β × Resolver} (h : Together x y) :
    Together (Resolver.andThen x next) (Resolver.andThen y next) := by
  obtain ⟨result, r⟩ := x
  obtain ⟨result', r'⟩ := y
  obtain ⟨hresult, hr⟩ := h
  dsimp only at hresult hr
  subst hr
  cases hresult with
  | ok a => exact .refl _
  | error e e' => exact ⟨.error e e', rfl⟩

/-- One file is loaded alike from a source that answers alike. -/
theorem load_together {file : String} (hask : b.source.AnswersAlike source (r.load b.source file).2.asked) :
    Together (r.load b.source file) (r.load source file) := by
  rw [Resolver.load_eq] at hask ⊢
  rw [Resolver.load_eq]
  cases hjoin : Locator.join r.base file with
  | error e => exact .refl _
  | ok locator =>
    rw [hjoin] at hask
    dsimp only at hask ⊢
    -- The document is asked for before anything can fail.
    have hsame : Akin (b.source.ask locator) (source.ask locator) := by
      apply hask
      split
      · exact List.mem_append_right _ (List.mem_singleton_self _)
      · rw [(loaded_register _ file _).2]
        exact List.mem_append_right _ (List.mem_singleton_self _)
    generalize b.source.ask locator = answer at hsame ⊢
    generalize source.ask locator = answer' at hsame ⊢
    cases hsame with
    | ok document => exact .refl _
    | error e e' => exact ⟨.error e e', rfl⟩

/-- All files are loaded alike from a source that answers alike. -/
theorem loadAll_together {fuel : Nat} (hask : b.source.AnswersAlike source (r.loadAll b.source fuel).2.asked) :
    Together (r.loadAll b.source fuel) (r.loadAll source fuel) := by
  induction fuel generalizing r with
  | zero =>
    unfold Resolver.loadAll
    exact .refl _
  | succ fuel ih =>
    rw [Resolver.loadAll] at hask ⊢
    rw [Resolver.loadAll]
    split
    · exact .refl _
    · next file rest hqueue =>
      rw [hqueue] at hask
      dsimp only at hask ⊢
      -- What one file has asked for is asked for in the end.
      have hfirst : b.source.AnswersAlike source (r.load b.source file).2.asked := by
        intro locator hlocator
        apply hask
        cases hresult : r.load b.source file with
        | mk result r₁ =>
          rw [hresult] at hlocator
          cases result with
          | error e => exact hlocator
          | ok _ => exact (asked_steps (Resolver.steps_loadAll b.source fuel r₁)).subset hlocator
      have hload := load_together hfirst
      generalize r.load b.source file = loaded at hload hask ⊢
      generalize r.load source file = loaded' at hload ⊢
      obtain ⟨result, r₁⟩ := loaded
      obtain ⟨result', r₁'⟩ := loaded'
      obtain ⟨hresult, hr⟩ := hload
      dsimp only at hresult hr
      subst hr
      cases hresult with
      | ok _ => exact ih hask
      | error e e' => exact ⟨.error e e', rfl⟩

/-- Files are loaded alike from a source that answers alike, whatever bounds the two sources have. -/
theorem Settled.resolve_together (h : b.Settled r) (hreach : b.WithinReach) (hsettled : { b with source }.Settled r)
    (hother : { b with source }.WithinReach) (hask : b.source.AnswersAlike source (r.resolve b.source).2.asked) :
    Together (r.resolve b.source) (r.resolve source) := by
  have hbound := h.loadAll_add hreach source.reach
  have hbound' := hsettled.loadAll_add hother b.source.reach
  dsimp only at hbound'
  -- Both go on to the sum of the bounds.
  have hsum : source.reach + r.queue.length + b.source.reach = b.source.reach + r.queue.length + source.reach := by
    omega
  rw [hsum] at hbound'
  rw [snd_resolve, ← hbound] at hask
  have hload := loadAll_together hask
  rw [hbound, hbound'] at hload
  unfold Resolver.resolve
  generalize r.loadAll b.source (b.source.reach + r.queue.length) = loaded at hload ⊢
  generalize r.loadAll source (source.reach + r.queue.length) = loaded' at hload ⊢
  obtain ⟨result, r₁⟩ := loaded
  obtain ⟨result', r₁'⟩ := loaded'
  obtain ⟨hresult, hr⟩ := hload
  dsimp only at hresult hr
  subst hr
  cases hresult with
  | ok _ => exact .refl _
  | error e e' => exact ⟨.error e e', rfl⟩

/-- What follows when all files are loaded. -/
def finish (namedEnums : Bool) (operations : List Operation) (r : Resolver) : Except Failure Description × Resolver :=
  Resolver.andThen (r.checkUniqueNames, r) fun _ r =>
  if namedEnums then
    let (enums, r, operations) := r.nameEnums operations
    (enums.map fun enums => ⟨r.registry, operations, enums⟩, r)
  else (.ok ⟨r.registry, operations, []⟩, r)

/-- Checking names and giving them asks for nothing. -/
theorem asked_finish (namedEnums : Bool) (operations : List Operation) (r : Resolver) :
    (finish namedEnums operations r).2.asked = r.asked := by
  unfold finish
  apply snd_andThen (P := fun after => after.asked = r.asked)
  · intro e after hcheck
    rw [← (Prod.mk.inj hcheck).2]
  · intro _ after hcheck
    rw [← (Prod.mk.inj hcheck).2]
    cases namedEnums with
    | false => rfl
    | true => rfl

/-- A description is made in two parts: the first document is read, and then everything that it is linked to. -/
theorem describe_of_reads {operations : List Operation} (h : b.Reads operations r) (namedEnums : Bool) :
    b.describe namedEnums
      = Resolver.andThen (r.resolve b.source) fun _ r => finish namedEnums operations r := by
  obtain ⟨r₁, hregister, hrun⟩ := h
  obtain ⟨entries, -, hentries⟩ := register_first_eq_ok.mp hregister
  have hentry : r₁.entry = b.entry :=
    (Resolver.registerSchemas_eq_ok (Resolver.fresh_consistent b.base b.entry) hentries).entry_eq
  unfold describe Resolver.describe
  rw [hregister, andThen_ok, hentry]
  show Resolver.andThen (r₁.run b.operations) _ = _
  rw [hrun, andThen_ok]
  rfl

/-- **The same documents, the same description.**  Nothing matters but the answers to what is asked for. -/
theorem describe_together {namedEnums : Bool} (hreach : b.WithinReach) (hother : { b with source }.WithinReach)
    (hask : b.source.AnswersAlike source (b.describe namedEnums).2.asked) :
    Together (b.describe namedEnums) ({ b with source }.describe namedEnums) := by
  by_cases hreads : ∃ operations r, b.Reads operations r
  · obtain ⟨operations, r, hreads⟩ := hreads
    have hreadsOther : { b with source }.Reads operations r := hreads
    have hresolve : Together (r.resolve b.source) (r.resolve source) := by
      apply hreads.settled.resolve_together hreach hreadsOther.settled hother
      intro locator hlocator
      apply hask
      rw [describe_of_reads hreads]
      apply snd_andThen (P := fun after => locator ∈ after.asked)
      · intro e after hafter
        rwa [hafter] at hlocator
      · intro _ after hafter
        rw [asked_finish]
        rwa [hafter] at hlocator
    rw [describe_of_reads hreads, describe_of_reads hreadsOther]
    exact hresolve.andThen
  · -- An error in the first document ends everything before the source is asked.
    unfold describe Resolver.describe
    dsimp only
    cases hregister : (Resolver.fresh b.base b.entry).register "" b.document with
    | mk result r₁ =>
      cases result with
      | error e => exact .refl _
      | ok _ =>
        rw [andThen_ok, andThen_ok]
        obtain ⟨entries, -, hentries⟩ := register_first_eq_ok.mp hregister
        have hentry : r₁.entry = b.entry :=
          (Resolver.registerSchemas_eq_ok (Resolver.fresh_consistent b.base b.entry) hentries).entry_eq
        rw [hentry]
        show Together (Resolver.andThen (r₁.run b.operations) _) (Resolver.andThen (r₁.run b.operations) _)
        cases hrun : r₁.run b.operations with
        | mk result r =>
          cases result with
          | error e => exact .refl _
          | ok operations => exact absurd ⟨operations, r, r₁, hregister, hrun⟩ hreads

end Bundle

/-! ### Documents in a storage -/

namespace Storage

variable {s : Storage} {locator text : String} {document : Value}

theorem mem_texts_of_readText (h : s.disk.readText locator = .ok text) : text ∈ s.disk.texts := by
  obtain ⟨content, hread, hdecode⟩ := Except.bind_eq_ok.mp h
  obtain ⟨entry, hfind, hentry⟩ := Except.bind_eq_ok.mp hread
  obtain ⟨place, -, rfl⟩ := Except.map_eq_ok.mp hfind
  cases hplace : s.disk.entryAt place with
  | directory =>
    rw [hplace] at hentry
    cases hentry
  | missing =>
    rw [hplace] at hentry
    cases hentry
  | file found =>
    rw [hplace] at hentry
    cases hentry
    have hmem := Table.mem_of_get?_eq_some (Disk.entryAt_eq_file_iff.mp hplace)
    refine List.mem_filterMap.mpr ⟨_, hmem, ?_⟩
    split at hdecode
    · next decoded hdecoded =>
      cases hdecode
      exact hdecoded
    · cases hdecode

/-- A storage gives no documents but those that its texts spell. -/
theorem mem_documents (h : s.readDocument locator = .ok document) : document ∈ s.documents := by
  obtain ⟨text, htext, hvalue⟩ := Except.bind_eq_ok.mp h
  obtain ⟨value, hparse, hmap⟩ := Except.bind_eq_ok.mp hvalue
  have hsame : value = document := by
    split at hmap
    · cases hmap
      rfl
    · cases hmap
  subst hsame
  have hmem : text ∈ s.texts := by
    unfold readText at htext
    split at htext
    · split at htext
      · next found hfound =>
        cases htext
        exact List.mem_append_right _ (Table.mem_values_iff.mpr ⟨locator, Table.mem_of_get?_eq_some hfound⟩)
      · cases htext
    · exact List.mem_append_left _ (mem_texts_of_readText htext)
  refine List.mem_flatMap.mpr ⟨text, hmem, ?_⟩
  -- A text is spelled in one of the two formats, and both of its values are among the documents.
  unfold parseText at hparse
  split at hparse
  · exact List.mem_filterMap.mpr ⟨_, List.mem_cons_self, by rw [hparse]; rfl⟩
  · exact List.mem_filterMap.mpr ⟨_, List.mem_cons_of_mem _ List.mem_cons_self, by rw [hparse]; rfl⟩

/-- The bound that a storage sets is large enough. -/
theorem withinReach (s : Storage) {b : Bundle} (h : b.source = s.source) : b.WithinReach := by
  apply Bundle.withinReach_of_documents s.documents
  · intro locator document hdocument
    rw [h] at hdocument
    exact mem_documents hdocument
  · rw [h]
    exact Nat.le_refl _

end Storage

/-- **The same documents in two storages.**  A storage that answers alike where documents are asked for leads to the
    same description. -/
theorem Job.describe_akin {s s' : Storage} {base entry : String} {document : Value} {namedEnums : Bool}
    (hask : s.source.AnswersAlike s'.source
      (Job.describe ⟨s.source, document, Resolver.fresh base entry⟩ namedEnums).2.asked) :
    Akin (Job.describe ⟨s.source, document, Resolver.fresh base entry⟩ namedEnums).1
      (Job.describe ⟨s'.source, document, Resolver.fresh base entry⟩ namedEnums).1 :=
  (Bundle.describe_together (b := ⟨s.source, base, entry, document⟩) (s.withinReach rfl) (s'.withinReach rfl) hask).1

end TypedClient
