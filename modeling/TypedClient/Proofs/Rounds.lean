import TypedClient.Proofs.Reading
import TypedClient.Proofs.Resolution

namespace TypedClient

open Resolver (Step Steps)

/-!
# Loading ends

Files are loaded in rounds.  A round goes through the files that were queued when it began and takes each of them
from the queue; meanwhile the documents queue more files, and the rounds go on until the queue is empty.  Documents
may link to each other as they like: a file is queued only if it has not been loaded, and there are no more files
to queue than the links of all documents name.

* `Value.namedFiles`, `Source.Names` — the files that links name, under their canonical names.
* `Resolver.Ready` — what holds of a resolver whenever loading begins; `Session.performAll_ready`.
* `Resolver.Ready.load` — what one file leaves of this, and what it puts to the queue.
* `Rounds` — the rounds, with nothing that bounds their number.
* `Resolver.Ready.rounds` — they end, and no file is missed in the queue.
* `Resolver.Ready.exists_asked` — what is asked for on the way.
* `Session.LoadsTo`, `Session.loading_ends` — this is so after whatever a resolver has been used for.
-/

/-! ### Files that links name -/

/-- The canonical name of what stands before the first number sign of a link, if something does. -/
def Link.filePart? (link : String) : Option String :=
  let cs := Text.trim link.toList
  if (Text.after? '#' cs).isSome && !(Text.before '#' cs).isEmpty then
    (Locator.canonicalFile (String.ofList (Text.before '#' cs))).toOption
  else none

/-- The files that the links of a document name. -/
def Value.namedFiles (document : Value) : List String :=
  document.subvalues.filterMap fun
    | .map entries =>
      match Value.find? "$ref" entries with
      | some (.text link) => Link.filePart? link
      | _ => none
    | _ => none

/-- A document of the source names the file in a link. -/
def Source.Names (source : Source) (file : String) : Prop :=
  ∃ locator document, source.ask locator = .ok document ∧ file ∈ document.namedFiles

/-- A source that answers finitely often names finitely many files. -/
theorem Source.finite_names {source : Source} {answered : List String}
    (h : ∀ locator document, source.ask locator = .ok document → locator ∈ answered) :
    {file | source.Names file}.Finite := by
  refine (List.finite_toSet (answered.flatMap fun locator =>
    (source.ask locator).toOption.toList.flatMap Value.namedFiles)).subset ?_
  rintro file ⟨locator, document, hask, hfile⟩
  refine List.mem_flatMap.mpr ⟨locator, h locator document hask, List.mem_flatMap.mpr ⟨document, ?_, hfile⟩⟩
  rw [hask]
  exact List.mem_singleton_self document

/-- A link denotes a schema of the file that it stands in, of the document that generation starts from, or of the
    file that it names. -/
theorem Link.fileOf_of_keyOfValue {scope : Link.Scope} {link : Value} {key : String}
    (hscope : '#' ∉ scope.file.toList) (h : Link.keyOfValue scope link = .ok key) :
    Link.fileOf key = scope.file ∨ Link.fileOf key = ""
      ∨ ∃ text, link = .text text ∧ Link.filePart? text = some (Link.fileOf key) := by
  unfold Link.keyOfValue at h
  split at h
  · next text =>
    simp only [Link.keyOf] at h
    split at h
    · cases h
    · next pointer hpointer =>
      split at h
      · obtain ⟨target, htarget, hkey⟩ := Except.bind_eq_ok.mp h
        cases hkey
        -- A link without a file part stays in its file.
        by_cases hempty : Text.before '#' (Text.trim text.toList) = []
        · rw [hempty] at htarget
          cases htarget
          exact .inl (Bundle.fileOf_append hscope _)
        rcases Link.targetFile_eq_ok htarget with rfl | rfl | ⟨-, hcanonical⟩
        · exact .inl (Bundle.fileOf_append hscope _)
        · exact .inr (.inl (Bundle.fileOf_append (by simp) _))
        · have hfront : '#' ∉ (String.ofList (Text.before '#' (Text.trim text.toList))).toList := by
            rw [String.toList_ofList]
            exact Text.notMem_before '#' _
          rw [Bundle.fileOf_append (Locator.notMem_canonicalFile hfront hcanonical)]
          refine .inr (.inr ⟨text, rfl, ?_⟩)
          simp [Link.filePart?, hpointer, hempty, hcanonical, Except.toOption]
      · cases h
  · cases h
  · cases h

/-- What a conversion links to outside of its file is named in the document that holds the schema. -/
theorem Value.mem_namedFiles {document schema : Value} {text file : String} (hschema : schema ∈ document.subvalues)
    (hvisits : Schema.Visits (.text text) schema) (hfile : Link.filePart? text = some file) :
    file ∈ document.namedFiles := by
  obtain ⟨entries, hentries, hlink⟩ := Value.exists_map_of_visits hvisits
  refine List.mem_filterMap.mpr ⟨.map entries, Value.mem_subvalues_trans hentries document hschema, ?_⟩
  simp only [hlink]
  exact hfile

/-! ### Resolvers that can load -/

namespace Resolver

variable {r r' : Resolver} {source : Source} {file : String}

/-- What holds of a resolver whenever loading begins: it is consistent, the document that generation starts from
    counts as loaded, and the names in the queue have no number signs. -/
structure Ready (r : Resolver) : Prop where
  consistent : r.Consistent
  first_loaded : "" ∈ r.loaded
  noMark : ∀ file ∈ r.queue, '#' ∉ file.toList

theorem Ready.step (h : r.Ready) (hstep : Step r r') : r'.Ready where
  consistent := h.consistent.step hstep
  first_loaded := by
    cases hstep with
    | note key =>
      rw [loaded_noteLink]
      exact h.first_loaded
    | declare => exact h.first_loaded
    | take => exact mem_loaded_taken.mpr (.inl h.first_loaded)
    | ask => exact mem_loaded_taken.mpr (.inl h.first_loaded)
  noMark := by
    cases hstep with
    | note key =>
      intro file hfile
      rcases mem_queue_noteLink.mp hfile with hfile | ⟨rfl, -⟩
      · exact h.noMark file hfile
      · exact Bundle.notMem_fileOf key
    | declare => exact h.noMark
    | take => exact fun file hfile => h.noMark file (List.mem_of_mem_erase hfile)
    | ask => exact fun file hfile => h.noMark file (List.mem_of_mem_erase hfile)

theorem Ready.steps (h : r.Ready) (hsteps : Steps r r') : r'.Ready := by
  induction hsteps with
  | refl => exact h
  | tail _ hstep ih => exact ih.step hstep

/-- Files that are queued stay queued in their order while schemas are declared. -/
theorem prefix_queue_noteLinks (r : Resolver) (keys : List String) : r.queue <+: (r.noteLinks keys).queue := by
  refine noteLinks_induction (P := fun r' => r.queue <+: r'.queue) (List.prefix_refl _) fun r' key _ h => ?_
  refine h.trans ?_
  unfold noteLink
  split
  · exact List.prefix_refl _
  · dsimp only
    split
    · exact List.prefix_refl _
    · exact List.prefix_append _ _

theorem prefix_queue_registerSchemas (r : Resolver) (file : String) (schemas : List (Value × Value)) :
    r.queue <+: (r.registerSchemas file schemas).2.queue := by
  induction schemas generalizing r with
  | nil => exact List.prefix_refl _
  | cons e rest ih =>
    obtain ⟨key, schema⟩ := e
    unfold registerSchemas
    split
    · exact List.prefix_refl _
    · next name _ =>
      have hconvert : r.queue <+: (r.convert file schema).2.queue := prefix_queue_noteLinks r _
      generalize r.convert file schema = converted at *
      obtain ⟨result, r₁⟩ := converted
      cases result with
      | error e => exact hconvert
      | ok type => exact hconvert.trans (ih (r₁.declare file name type))

/-! ### One file -/

/-- The files that can still be loaded: those that are queued or named, and not loaded. -/
def Ahead (source : Source) (r : Resolver) : Set String :=
  {file | (file ∈ r.queue ∨ source.Names file) ∧ file ∉ r.loaded}

theorem finite_ahead (hfinite : {file | source.Names file}.Finite) (r : Resolver) : (Ahead source r).Finite :=
  ((List.finite_toSet r.queue).union hfinite).subset fun _ h => h.1

/-- A queued file is one of those that can still be loaded. -/
theorem Ready.mem_ahead (h : r.Ready) (hfile : file ∈ r.queue) : file ∈ Ahead source r :=
  ⟨.inl hfile, h.consistent.queue_new file hfile⟩

/-- What holds after a file has been loaded from the front of the queue: the file is not ahead any more, and the
    other files of the queue are still in front. -/
structure Passed (source : Source) (r : Resolver) (file : String) (rest : List String) (r' : Resolver) : Prop where
  ready : r'.Ready
  base_eq : r'.base = r.base
  queue_front : rest <+: r'.queue
  ahead_less : Ahead source r' ⊆ Ahead source r \ {file}
  asked_eq : ∃ locator, Locator.join r.base file = .ok locator ∧ r'.asked = r.asked ++ [locator]

/-- **One file.**  What a document puts to the queue is named in it, and has not been loaded. -/
theorem Ready.load (h : r.Ready) {rest : List String} (hqueue : r.queue = file :: rest)
    (hload : r.load source file = (.ok (), r')) : Passed source r file rest r' := by
  have hfile : file ∈ r.queue := by
    rw [hqueue]
    exact List.mem_cons_self
  have hready : r'.Ready := by
    have hsteps := steps_load source r hfile
    rw [hload] at hsteps
    exact h.steps hsteps
  obtain ⟨locator, document, schemas, hjoin, hask, hschemas, hregister⟩ := load_eq_ok hload
  have hregistered := registerSchemas_eq_ok (h.consistent.asking hfile hjoin) hregister
  have htaken : ((r.taken file).asking locator).queue = rest := by
    show r.queue.erase file = rest
    rw [hqueue, List.erase_cons_head]
  have hloaded : ∀ other, other ∈ r'.loaded ↔ other ∈ r.loaded ∨ other = file := by
    intro other
    rw [hregistered.loaded_eq]
    exact mem_loaded_taken
  -- A link in the document denotes a schema of this file, of the first document, or of a file that it names.
  have hnamed : ∀ other ∈ r'.queue, other ∈ rest ∨ source.Names other := by
    intro other hother
    rcases hregistered.queued other hother with hold | ⟨label, schema, key, hmem, ⟨link, hvisits, hkey⟩, rfl⟩
    · rw [htaken] at hold
      exact .inl hold
    · have hnew := hready.consistent.queue_new _ hother
      rcases Link.fileOf_of_keyOfValue (h.noMark file hfile) hkey with hsame | hfirst | ⟨text, rfl, hpart⟩
      · exact absurd ((hloaded _).mpr (.inr hsame)) hnew
      · rw [hfirst] at hnew
        exact absurd hready.first_loaded hnew
      · exact .inr ⟨locator, document, hask,
          Value.mem_namedFiles (Value.mem_subvalues_of_schemasOf hschemas hmem) hvisits hpart⟩
  refine ⟨hready, hregistered.base_eq, ?_, ?_, locator, hjoin, ?_⟩
  · have hprefix := prefix_queue_registerSchemas ((r.taken file).asking locator) file schemas
    rwa [htaken, hregister] at hprefix
  · rintro other ⟨hother, hnew⟩
    rw [hloaded, not_or] at hnew
    refine ⟨⟨?_, hnew.1⟩, hnew.2⟩
    rcases hother with hother | hother
    · refine (hnamed other hother).imp_left fun hrest => ?_
      rw [hqueue]
      exact List.mem_cons_of_mem _ hrest
    · exact .inr hother
  · have hasked := (Bundle.loaded_registerSchemas ((r.taken file).asking locator) file schemas).2
    rw [hregister] at hasked
    exact hasked

/-- With each file there are fewer ahead. -/
theorem Passed.ncard_lt {rest : List String} (h : Passed source r file rest r') (hahead : file ∈ Ahead source r)
    (hfinite : {file | source.Names file}.Finite) : (Ahead source r').ncard < (Ahead source r).ncard := by
  have hle := Set.ncard_le_ncard h.ahead_less ((finite_ahead hfinite r).subset Set.sdiff_subset)
  exact Nat.lt_of_le_of_lt hle (Set.ncard_sdiff_singleton_lt_of_mem hahead (finite_ahead hfinite r))

end Resolver

/-! ### Rounds -/

/-- The rounds of loading, from the middle of a round in which the files of a list are still to be loaded.  They
    come to a result, which may be an error; or a file that is to be taken from the queue is not there, and then
    they come to none. -/
inductive Rounds (source : Source) : List String → Resolver → Option (Except Failure Unit × Resolver) → Prop
  | done {r : Resolver} (hqueue : r.queue = []) : Rounds source [] r (some (.ok (), r))
  | again {r : Resolver} {out : Option (Except Failure Unit × Resolver)} (hqueue : r.queue ≠ [])
      (hround : Rounds source r.queue r out) : Rounds source [] r out
  | missed {r : Resolver} {file : String} {rest : List String} (hfile : file ∉ r.queue) :
      Rounds source (file :: rest) r none
  | failed {r r' : Resolver} {file : String} {rest : List String} {failure : Failure} (hfile : file ∈ r.queue)
      (hload : r.load source file = (.error failure, r')) : Rounds source (file :: rest) r (some (.error failure, r'))
  | loaded {r r' : Resolver} {file : String} {rest : List String} {out : Option (Except Failure Unit × Resolver)}
      (hfile : file ∈ r.queue) (hload : r.load source file = (.ok (), r')) (hrest : Rounds source rest r' out) :
      Rounds source (file :: rest) r out

/-- The rounds come to one end at most. -/
theorem Rounds.unique {source : Source} {round : List String} {r : Resolver}
    {out other : Option (Except Failure Unit × Resolver)} (h : Rounds source round r out)
    (h' : Rounds source round r other) : other = out := by
  -- The queue, and what loading its first file gives, leave one rule each time.
  induction h with
  | done hqueue =>
    cases h' with
    | done => rfl
    | again hqueue' => exact absurd hqueue hqueue'
  | again hqueue _ ih =>
    cases h' with
    | done hqueue' => exact absurd hqueue' hqueue
    | again _ hround' => exact ih hround'
  | missed hfile =>
    cases h' with
    | missed => rfl
    | failed hfile' | loaded hfile' => exact absurd hfile' hfile
  | failed hfile hload =>
    cases h' with
    | missed hfile' => exact absurd hfile hfile'
    | failed _ hload' => rw [← hload, ← hload']
    | loaded _ hload' => cases hload.symm.trans hload'
  | loaded hfile hload _ ih =>
    cases h' with
    | missed hfile' => exact absurd hfile hfile'
    | failed _ hload' => cases hload.symm.trans hload'
    | loaded _ hload' hrest' =>
      cases hload.symm.trans hload'
      exact ih hrest'

namespace Resolver

variable {r r' : Resolver} {source : Source} {file : String}

/-- **All files.**  The rounds end in a result, from the middle of every round whose files are in front of the queue.
    It is that of loading one file after the other, if as many are allowed as are ahead. -/
theorem Ready.rounds (h : r.Ready) (hfinite : {file | source.Names file}.Finite) {fuel : Nat}
    (hfuel : (Ahead source r).ncard ≤ fuel) {round : List String} (hround : round <+: r.queue) :
    Rounds source round r (some (r.loadAll source fuel)) := by
  induction fuel generalizing r round with
  | zero =>
    -- Nothing is ahead, so nothing is queued.
    have hnone : r.queue = [] := by
      rw [List.eq_nil_iff_forall_not_mem]
      intro file hfile
      have hempty := (Set.ncard_eq_zero (finite_ahead hfinite r)).mp (Nat.le_zero.mp hfuel)
      exact (Set.eq_empty_iff_forall_notMem.mp hempty) file (h.mem_ahead hfile)
    rw [hnone, List.prefix_nil] at hround
    rw [hround, loadAll_nil hnone]
    exact .done hnone
  | succ fuel ih =>
    have hloads : ∀ file rest, (file :: rest) <+: r.queue →
        Rounds source (file :: rest) r (some (r.loadAll source (fuel + 1))) := by
      rintro file rest ⟨more, hqueue⟩
      rw [List.cons_append] at hqueue
      have hfile : file ∈ r.queue := by
        rw [← hqueue]
        exact List.mem_cons_self
      rcases hload : r.load source file with ⟨failure | _, r'⟩
      · rw [loadAll, ← hqueue]
        simp only [hload]
        exact .failed hfile hload
      · have hpassed := h.load hqueue.symm hload
        have hless := hpassed.ncard_lt (h.mem_ahead hfile) hfinite
        rw [loadAll_cons hqueue.symm hload]
        refine .loaded hfile hload (ih hpassed.ready (by omega) ?_)
        exact (List.prefix_append rest more).trans hpassed.queue_front
    cases round with
    | cons file rest => exact hloads file rest hround
    | nil =>
      cases hqueue : r.queue with
      | nil =>
        rw [loadAll_nil hqueue]
        exact .done hqueue
      | cons file rest =>
        refine .again (by simp [hqueue]) ?_
        rw [hqueue]
        exact hloads file rest (by rw [hqueue])

/-- **What is asked for.**  These are the documents of different files that were ahead. -/
theorem Ready.exists_asked (h : r.Ready) (source : Source) (fuel : Nat) :
    ∃ files locators, (r.loadAll source fuel).2.asked = r.asked ++ locators
      ∧ List.Forall₂ (fun file locator => Locator.join r.base file = .ok locator) files locators
      ∧ files.Nodup ∧ ∀ file ∈ files, file ∈ Ahead source r := by
  induction fuel generalizing r with
  | zero =>
    refine ⟨[], [], ?_, .nil, .nil, nofun⟩
    rw [List.append_nil]
    unfold loadAll
    split <;> rfl
  | succ fuel ih =>
    cases hqueue : r.queue with
    | nil =>
      refine ⟨[], [], ?_, .nil, .nil, nofun⟩
      rw [loadAll_nil hqueue, List.append_nil]
    | cons file rest =>
      have hfile : file ∈ r.queue := by
        rw [hqueue]
        exact List.mem_cons_self
      rcases hload : r.load source file with ⟨failure | _, r'⟩
      · have hlast : r.loadAll source (fuel + 1) = (.error failure, r') := by
          rw [loadAll, hqueue]
          simp only [hload]
        rw [hlast]
        -- A file that fails is asked for if there is a locator for it.
        rw [load_eq] at hload
        cases hjoin : Locator.join r.base file with
        | error e =>
          rw [hjoin] at hload
          cases hload
          exact ⟨[], [], (List.append_nil _).symm, .nil, .nil, nofun⟩
        | ok locator =>
          refine ⟨[file], [locator], ?_, .cons hjoin .nil, List.nodup_singleton _, ?_⟩
          · rw [hjoin] at hload
            dsimp only at hload
            split at hload
            · cases hload
              rfl
            · next document _ =>
              have hasked := (Bundle.loaded_register ((r.taken file).asking locator) file document).2
              rw [hload] at hasked
              exact hasked
          · intro other hother
            rw [List.mem_singleton.mp hother]
            exact h.mem_ahead hfile
      · have hpassed := h.load hqueue hload
        obtain ⟨locator, hjoin, hasked⟩ := hpassed.asked_eq
        obtain ⟨files, locators, hall, hjoins, hnodup, hfiles⟩ := ih hpassed.ready
        rw [loadAll_cons hqueue hload]
        have hahead : ∀ other ∈ files, other ∈ Ahead source r \ {file} :=
          fun other hother => hpassed.ahead_less (hfiles other hother)
        refine ⟨file :: files, locator :: locators, ?_, .cons hjoin ?_, List.nodup_cons.mpr ⟨?_, hnodup⟩, ?_⟩
        · rw [hall, hasked, List.append_assoc]
          rfl
        · rwa [hpassed.base_eq] at hjoins
        · exact fun hmem => (hahead file hmem).2 rfl
        · intro other hother
          rcases List.mem_cons.mp hother with rfl | hother
          · exact h.mem_ahead hfile
          · exact (hahead other hother).1

/-- What resolving gives when loading has come to a result. -/
def afterLoading (loaded : Except Failure Unit × Resolver) : Except Failure Unit × Resolver :=
  match loaded with
  | (.error failure, r) => (.error failure, r)
  | (.ok (), r) =>
    match r.missing with
    | [] => (.ok (), r)
    | key :: _ => (.error (.unresolvableSchema key), r)

end Resolver

/-! ### Sessions -/

namespace Session

/-- Whatever a resolver is used for, it takes steps. -/
theorem steps_perform (s : Session) (action : Action) : Steps s.resolver (s.perform action).resolver := by
  cases action with
  | register document file => exact Resolver.steps_register _ file document
  | convert schema file => exact Resolver.steps_run s.resolver _
  | reference link file =>
    simp only [perform, Resolver.reference]
    cases Link.keyOfValue (s.resolver.scope file) link with
    | error e => exact .refl
    | ok key => exact .single (.note s.resolver key)
  | keyOf => exact .refl
  | extract paths => exact Resolver.steps_run s.resolver (Route.extract s.resolver.entry paths)
  | resolve source => exact Resolver.steps_resolve source _

theorem steps_performAll (s : Session) (actions : List Action) : Steps s.resolver (s.performAll actions).resolver := by
  induction actions generalizing s with
  | nil => exact .refl
  | cons action actions ih => exact (steps_perform s action).trans (ih (s.perform action))

/-- A resolver is ready to load, whatever it has been used for since it was made. -/
theorem performAll_ready {base entry : String} {r : Resolver} (h : Resolver.start base entry = .ok r)
    (actions : List Action) : ((start r).performAll actions).resolver.Ready := by
  have hready : r.Ready := by
    rw [Resolver.eq_fresh_of_start h]
    exact ⟨Resolver.fresh_consistent base r.entry, List.mem_singleton_self "", nofun⟩
  exact hready.steps (steps_performAll (start r) actions)

/-- Loading from a source ends in a result. -/
structure LoadsTo (source : Source) (r : Resolver) (out : Except Failure Unit × Resolver) : Prop where
  /-- The rounds end in this way and in no other. -/
  ends : ∀ other, Rounds source [] r other ↔ other = some out
  /-- The documents asked for are those of different files, which are queued or named in a document of the source. -/
  asks : ∃ files locators, out.2.asked = r.asked ++ locators
    ∧ List.Forall₂ (fun file locator => Locator.join r.base file = .ok locator) files locators
    ∧ files.Nodup ∧ (∀ file ∈ files, file ∈ r.queue ∨ source.Names file)
    ∧ locators.length ≤ ({file | file ∈ r.queue} ∪ {file | source.Names file}).ncard
  /-- Resolving goes on from the result, if the source does not understate how many files its documents name. -/
  resolves : {file | source.Names file}.ncard ≤ source.reach → r.resolve source = Resolver.afterLoading out

/-- **Loading ends.**  Let a source answer finitely often.  Whatever a resolver has been used for, and however its
    files link to each other, loading ends in a result, and no file is missed in the queue. -/
theorem loading_ends {base entry : String} {r₀ : Resolver} (hstart : Resolver.start base entry = .ok r₀)
    (actions : List Action) (source : Source) {answered : List String}
    (hanswered : ∀ locator document, source.ask locator = .ok document → locator ∈ answered) :
    ∃ out, LoadsTo source ((start r₀).performAll actions).resolver out := by
  have hready := performAll_ready hstart actions
  generalize ((start r₀).performAll actions).resolver = r at hready
  have hfinite := source.finite_names hanswered
  have hall : ({file | file ∈ r.queue} ∪ {file | source.Names file}).Finite :=
    (List.finite_toSet r.queue).union hfinite
  have hahead : Resolver.Ahead source r ⊆ {file | file ∈ r.queue} ∪ {file | source.Names file} := fun _ h => h.1
  obtain ⟨files, locators, hasked, hjoins, hnodup, hfiles⟩ :=
    hready.exists_asked source (Resolver.Ahead source r).ncard
  have hrounds : Rounds source [] r (some (r.loadAll source (Resolver.Ahead source r).ncard)) :=
    hready.rounds hfinite (Nat.le_refl _) List.nil_prefix
  refine ⟨r.loadAll source (Resolver.Ahead source r).ncard, fun other => ⟨fun h => hrounds.unique h, ?_⟩,
    ⟨files, locators, hasked, hjoins, hnodup, fun file hfile => hahead (hfiles file hfile), ?_⟩, fun hreach => ?_⟩
  · rintro rfl
    exact hrounds
  · rw [← hjoins.length_eq, ← List.toFinset_card_of_nodup hnodup, ← Set.ncard_coe_finset]
    exact Set.ncard_le_ncard (fun file hfile => hahead (hfiles file (List.mem_toFinset.mp hfile))) hall
  · -- The queue and the named files together are no more than resolving allows.
    have hqueue : {file | file ∈ r.queue}.ncard ≤ r.queue.length := by
      have hcard := r.queue.toFinset_card_le
      rwa [← Set.ncard_coe_finset, List.coe_toFinset] at hcard
    have hunion := Set.ncard_union_le {file | file ∈ r.queue} {file | source.Names file}
    have hless := Set.ncard_le_ncard hahead hall
    have hfuel : (Resolver.Ahead source r).ncard ≤ source.reach + r.queue.length := by omega
    have hsame := hrounds.unique (hready.rounds hfinite hfuel List.nil_prefix)
    rw [Resolver.resolve, Option.some.inj hsame]
    rfl

/-- Two files whose schemas link to each other. -/
def circle : Table String Value :=
  [("/specs/a.yaml", Bundle.holding "A" (.map [(.text "$ref", .text "b.yaml#/components/schemas/B")])),
    ("/specs/b.yaml", Bundle.holding "B" (.map [(.text "$ref", .text "./a.yaml#/components/schemas/A")]))]

/-- Loading ends when one of them is linked to. -/
theorem circle_loading_ends : Resolver.start "/specs" "main.yaml" = .ok (Resolver.fresh "/specs" "main.yaml")
    ∧ (∀ locator document, (Source.ofTable circle).ask locator = .ok document →
      locator ∈ ["/specs/a.yaml", "/specs/b.yaml"])
    ∧ ∃ out, LoadsTo (Source.ofTable circle) ((start (Resolver.fresh "/specs" "main.yaml")).performAll
      [.reference (.text "a.yaml#/components/schemas/A") ""]).resolver out := by
  have hstart : Resolver.start "/specs" "main.yaml" = .ok (Resolver.fresh "/specs" "main.yaml") := by cbv
  have hanswered : ∀ locator document, (Source.ofTable circle).ask locator = .ok document →
      locator ∈ ["/specs/a.yaml", "/specs/b.yaml"] := by
    intro locator document hask
    have hkey : locator ∈ circle.keys := by
      rw [← Table.isSome_get?_iff]
      simp only [Source.ofTable] at hask
      split at hask
      · next found hfound => rw [hfound, Option.isSome_some]
      · cases hask
    exact hkey
  exact ⟨hstart, hanswered, loading_ends hstart _ _ hanswered⟩

end Session

end TypedClient
