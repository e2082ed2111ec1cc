import Mathlib
import TypedClient.CommandLine.Run
import TypedClient.Proofs.PlainTexts
import TypedClient.Proofs.Reading
import TypedClient.Proofs.Writing

namespace TypedClient

/-!
# What a run leaves behind

A run that does not keep settings reads, asks and generates before it writes anything.  So an error leaves all
files as they were, unless it comes up while the two files of the client are written.

* `CommandLine.Ends` — what holds when a part of a run is over, at its end or after an error.
* `CommandLine.Keeps` — a part of a run that changes nothing but what is said.
* `CommandLine.LeadsTo` — the client that a command line leads to, and its directory.
* `CommandLine.carryOut_all_or_nothing` — what a whole run leaves on the disk.
-/

namespace CommandLine

variable {α β : Type} {x : Run α} {c : Console}

/-! ### Parts of runs -/

/-- A run that ends early has found an error. -/
def Ending.IsError : Ending → Prop
  | .reported code => code = 1 ∨ code = 2
  | .failed _ => True

/-- What a part of a run comes to, and the console after it. -/
def leave (x : Run α) (c : Console) : Except Ending α × Console :=
  x.run c

theorem leave_bind (x : Run α) (f : α → Run β) (c : Console) :
    leave (x >>= f) c = match leave x c with
      | (.ok a, after) => leave (f a) after
      | (.error e, after) => (.error e, after) := by
  have hrun : leave (x >>= f) c
      = (ExceptT.bindCont f (leave x c).1 : StateM Console (Except Ending β)) (leave x c).2 := rfl
  rw [hrun]
  rcases leave x c with ⟨e | a, after⟩
  · rfl
  · rfl

theorem leave_tryCatch (x : Run α) (handle : Ending → Run α) (c : Console) :
    leave (tryCatch x handle) c = match leave x c with
      | (.ok a, after) => (.ok a, after)
      | (.error e, after) => leave (handle e) after := by
  unfold leave
  simp only [tryCatch, tryCatchThe, MonadExceptOf.tryCatch, ExceptT.tryCatch, ExceptT.run, ExceptT.mk, bind,
    StateT.bind]
  rcases x c with ⟨e | a, after⟩
  · rfl
  · rfl

/-- What holds when a part of a run is over: `done` if it comes to its end, `failed` if an error ends it. -/
def Ends (x : Run α) (c : Console) (done : α → Console → Prop) (failed : Console → Prop) : Prop :=
  match leave x c with
  | (.ok a, after) => done a after
  | (.error e, after) => e.IsError ∧ failed after

section Rules

variable {P : α → Console → Prop} {Q : β → Console → Prop} {E : Console → Prop} {f : α → Run β}

theorem Ends.mono {P' : α → Console → Prop} {E' : Console → Prop} (h : Ends x c P E)
    (hdone : ∀ a after, P a after → P' a after) (hfailed : ∀ after, E after → E' after) : Ends x c P' E' := by
  unfold Ends at h ⊢
  generalize leave x c = result at h ⊢
  rcases result with ⟨e | a, after⟩
  · exact ⟨h.1, hfailed after h.2⟩
  · exact hdone a after h

/-- A part that is followed by another one. -/
theorem Ends.bind (h : Ends x c P E) (hnext : ∀ a after, P a after → Ends (f a) after Q E) :
    Ends (x >>= f) c Q E := by
  unfold Ends at h hnext ⊢
  rw [leave_bind]
  generalize leave x c = result at h ⊢
  rcases result with ⟨e | a, after⟩
  · exact h
  · exact hnext a after h

/-- A part that cannot fail is followed by another one. -/
theorem Ends.bind_sure (h : Ends x c P fun _ => False) (hnext : ∀ a after, P a after → Ends (f a) after Q E) :
    Ends (x >>= f) c Q E :=
  (h.mono (fun _ _ => id) fun _ hfalse => hfalse.elim).bind hnext

/-- A part whose errors are handled. -/
theorem Ends.tryCatch {C : Console → Prop} {handle : Ending → Run α} (h : Ends x c P C)
    (hhandle : ∀ e after, e.IsError → C after → Ends (handle e) after P E) :
    Ends (MonadExcept.tryCatch x handle) c P E := by
  unfold Ends at h hhandle ⊢
  rw [leave_tryCatch]
  generalize leave x c = result at h ⊢
  rcases result with ⟨e | a, after⟩
  · exact hhandle e after h.1 h.2
  · exact h

theorem ends_get_bind {f : Console → Run β} (h : Ends (f c) c Q E) : Ends (get >>= f) c Q E := by
  unfold Ends at h ⊢
  rw [leave_bind]
  exact h

/-- What is known about the end of a part can be told of the end itself. -/
theorem Ends.leave_eq (h : Ends x c P E) : Ends x c (fun a after => leave x c = (.ok a, after) ∧ P a after) E := by
  unfold Ends at h ⊢
  generalize leave x c = result at h ⊢
  rcases result with ⟨e | a, after⟩
  · exact h
  · exact ⟨rfl, h⟩

end Rules

/-! ### Parts that change no file -/

/-- A part of a run that leaves the storage as it is. -/
def Keeps (x : Run α) : Prop :=
  ∀ c, Ends x c (fun _ after => after.storage = c.storage) fun after => after.storage = c.storage

theorem keeps_pure (a : α) : Keeps (pure a : Run α) := fun _ => rfl

theorem Keeps.bind {f : α → Run β} (hx : Keeps x) (hf : ∀ a, Keeps (f a)) : Keeps (x >>= f) := fun c =>
  (hx c).bind fun a after hafter => (hf a after).mono (fun _ _ h => h.trans hafter) fun _ h => h.trans hafter

theorem keeps_giveUp : Keeps (giveUp : Run α) := fun _ => ⟨.inl rfl, rfl⟩

theorem keeps_check (x : Except Failure α) : Keeps (check x) := fun _ =>
  match x with
  | .ok _ => rfl
  | .error _ => ⟨trivial, rfl⟩

theorem keeps_get : Keeps (get : Run Console) := fun _ => rfl

/-- A part that cannot fail, either. -/
def Passes (x : Run Unit) : Prop :=
  ∀ c, ∃ after, leave x c = (.ok (), after) ∧ after.storage = c.storage

theorem passes_sayLine (line : String) : Passes (sayLine line) := fun _ => ⟨_, rfl, rfl⟩

theorem passes_look (paths : List String) : Passes (look paths) := fun _ => ⟨_, rfl, rfl⟩

theorem Passes.keeps {x : Run Unit} (h : Passes x) : Keeps x := by
  intro c
  obtain ⟨after, hleave, hafter⟩ := h c
  unfold Ends
  rw [hleave]
  exact hafter

theorem keeps_sayLine (line : String) : Keeps (sayLine line) :=
  (passes_sayLine line).keeps

theorem keeps_sayValue (text : String) (v : Value) : Keeps (sayValue text v) :=
  (keeps_check _).bind fun _ => keeps_sayLine _

/-- A text can always be shown. -/
theorem passes_sayValue_text (text shown : String) : Passes (sayValue text (.text shown)) := by
  intro c
  have hshown : (Value.text shown).asDisplayed = .ok shown := by cbv
  unfold sayValue
  rw [leave_bind, hshown]
  exact passes_sayLine _ c

theorem keeps_confirm (question : String) : Keeps (confirm question) := by
  intro c
  unfold confirm
  refine ends_get_bind ?_
  split
  · exact (rfl : _ = _)
  · exact ⟨trivial, rfl⟩

theorem keeps_stored : Keeps stored :=
  (passes_look _).keeps.bind fun _ => keeps_get.bind fun _ => keeps_check _

theorem keeps_settle (a : Arguments) : Keeps (settle a) := by
  unfold settle
  refine keeps_stored.bind fun kept => ?_
  cases kept with
  | some kept =>
    dsimp only
    split
    · refine (keeps_sayLine _).bind fun _ => (keeps_sayValue _ _).bind fun _ => (keeps_sayValue _ _).bind fun _ =>
        (keeps_sayLine _).bind fun _ => ?_
      split
      · exact keeps_pure _
      · refine (keeps_confirm _).bind fun answer => ?_
        split
        · exact keeps_pure _
        · exact keeps_pure _
    · exact (keeps_sayLine _).bind fun _ => keeps_pure _
  | none =>
    dsimp only
    split
    · exact keeps_pure _
    · exact (keeps_sayLine _).bind fun _ => keeps_giveUp

/-! ### Generating -/

/-- The client that settings lead to. -/
def clientOf (s : Settings) (storage : Storage) : Except Failure Output.Project := do
  let locator ← pathOf s.url .notApplicable
  let job ← Job.start storage locator
  job.generate (← s.options)

section Steps

variable {P : α → Console → Prop} {Q : β → Console → Prop} {E : Console → Prop} {f : α → Run β} {storage : Storage}

theorem Keeps.ends_bind (hx : Keeps x) (hc : c.storage = storage)
    (hfailed : ∀ after, after.storage = storage → E after)
    (hnext : ∀ a after, after.storage = storage → Ends (f a) after Q E) :
    Ends (x >>= f) c Q E := by
  refine Ends.bind ((hx c).mono (fun a after hafter => hafter.trans hc) ?_) hnext
  exact fun after hafter => hfailed after (hafter.trans hc)

theorem Passes.ends_bind {x : Run Unit} {f : Unit → Run β} (hx : Passes x) (hc : c.storage = storage)
    (hnext : ∀ after, after.storage = storage → Ends (f ()) after Q E) : Ends (x >>= f) c Q E := by
  obtain ⟨after, hleave, hafter⟩ := hx c
  unfold Ends at hnext ⊢
  rw [leave_bind, hleave]
  exact hnext after (hafter.trans hc)

/-- The last part of a run, if it cannot fail. -/
theorem Passes.ends {x : Run Unit} {P : Unit → Console → Prop} (hx : Passes x) (hc : c.storage = storage)
    (hdone : ∀ after, after.storage = storage → P () after) : Ends x c P E := by
  obtain ⟨after, hleave, hafter⟩ := hx c
  unfold Ends
  rw [hleave]
  exact hdone after (hafter.trans hc)

theorem ends_check {result : Except Failure α} (hfailed : ∀ e, result = .error e → E c)
    (hdone : ∀ a, result = .ok a → P a c) : Ends (check result) c P E := by
  cases result with
  | error e => exact ⟨trivial, hfailed e rfl⟩
  | ok a => exact hdone a rfl

theorem ends_check_bind {result : Except Failure α} (hfailed : ∀ e, result = .error e → E c)
    (hnext : ∀ a, result = .ok a → Ends (f a) c Q E) : Ends (check result >>= f) c Q E := by
  refine (ends_check (P := fun a after => result = .ok a ∧ after = c) hfailed fun a ha => ⟨ha, rfl⟩).bind ?_
  rintro a after ⟨ha, rfl⟩
  exact hnext a ha

/-- What is known to be right does not end a run. -/
theorem ends_check_ok_bind {a : α} (hnext : Ends (f a) c Q E) : Ends (check (.ok a) >>= f) c Q E := by
  refine ends_check_bind (fun _ h => by cases h) fun b h => ?_
  cases h
  exact hnext

/-- The console with another disk. -/
def Console.withDisk (c : Console) (disk : Disk) : Console :=
  { c with storage := { c.storage with disk } }

theorem ends_change_bind {f : Unit → Run β} {write : Disk → Except Failure Unit × Disk}
    (hfailed : ∀ e disk, write c.storage.disk = (.error e, disk) → E (c.withDisk disk))
    (hnext : ∀ disk, write c.storage.disk = (.ok (), disk) → Ends (f ()) (c.withDisk disk) Q E) :
    Ends (change write >>= f) c Q E := by
  have hleave : leave (change write) c
      = leave (check (write c.storage.disk).1) (c.withDisk (write c.storage.disk).2) := rfl
  unfold Ends at hnext ⊢
  rw [leave_bind, hleave]
  rcases hwrite : write c.storage.disk with ⟨e | _, disk⟩
  · exact ⟨trivial, hfailed e disk hwrite⟩
  · exact hnext disk hwrite

/-- A change that succeeds does not end a run. -/
theorem ends_change_bind_of_ok {f : Unit → Run β} {write : Disk → Except Failure Unit × Disk} {disk : Disk}
    (h : write c.storage.disk = (.ok (), disk)) (hnext : Ends (f ()) (c.withDisk disk) Q E) :
    Ends (change write >>= f) c Q E := by
  refine ends_change_bind (fun e other hfailed => ?_) fun other hdone => ?_
  · cases h.symm.trans hfailed
  · cases h.symm.trans hdone
    exact hnext

/-- A change that fails ends a run with the disk that it leaves behind. -/
theorem ends_change_bind_of_error {f : Unit → Run β} {write : Disk → Except Failure Unit × Disk} {e : Failure}
    {disk : Disk} (h : write c.storage.disk = (.error e, disk)) (hfailed : E (c.withDisk disk)) :
    Ends (change write >>= f) c Q E := by
  refine ends_change_bind (fun e' other hother => ?_) fun other hdone => ?_
  · cases h.symm.trans hother
    exact hfailed
  · cases h.symm.trans hdone

end Steps

/-- A path is the text of its setting. -/
theorem eq_text_of_pathOf {setting : Value} {fault : ShapeFault} {path : String}
    (h : pathOf setting fault = .ok path) : setting = .text path := by
  unfold pathOf at h
  split at h
  · cases h
    rfl
  · cases h

/-- The description is made before the options are, but with the same choice about enums. -/
theorem namedEnums_of_options {s : Settings} {options : Output.Options} (h : s.options = .ok options) :
    options.namedEnums = s.namedEnums.isFilled := by
  unfold Settings.options at h
  dsimp only at h
  split at h
  · obtain ⟨space, -, hspace⟩ := Except.bind_eq_ok.mp h
    cases hspace
    rfl
  · cases h
    rfl

/-- Generating changes nothing but what is said, and gives the client that the settings lead to. -/
theorem ends_create (s : Settings) (c : Console) : Ends (create s) c
    (fun project after => after.storage = c.storage ∧ clientOf s c.storage = .ok project)
    fun after => after.storage = c.storage := by
  unfold create
  refine (keeps_sayValue _ _).ends_bind rfl (fun _ => id) fun _ c₁ h₁ => ?_
  refine (passes_sayLine _).ends_bind h₁ fun c₂ h₂ => ?_
  refine ends_check_bind (fun _ _ => h₂) fun locator hlocator => ?_
  refine (passes_look _).ends_bind h₂ fun c₃ h₃ => ends_get_bind ?_
  refine ends_check_bind (fun _ _ => h₃) fun job hjob => ?_
  refine (passes_sayLine _).ends_bind h₃ fun c₄ h₄ => ?_
  refine (passes_look _).ends_bind h₄ fun c₅ h₅ => ?_
  refine ends_check_bind (fun _ _ => h₅) fun description hdescription => ?_
  refine ends_check_bind (fun _ _ => h₅) fun options hoptions => ?_
  refine ends_check (fun _ _ => h₅) fun project hproject => ⟨h₅, ?_⟩
  have hdescribe : (job.describe s.namedEnums.isFilled).1 = .ok description := hdescription
  rw [h₃] at hjob
  rw [clientOf, hlocator, Except.ok_bind, hjob, Except.ok_bind, hoptions, Except.ok_bind, Job.generate,
    namedEnums_of_options hoptions, hdescribe, Except.ok_bind, hproject]

/-- Generating fails in no other case than that the settings lead to no client. -/
theorem ends_create_of {s : Settings} {project : Output.Project} (h : clientOf s c.storage = .ok project) :
    Ends (create s) c (fun made after => made = project ∧ after.storage = c.storage) fun _ => False := by
  -- Every check of the run is a step on the way to the client, so none of them fails.
  obtain ⟨locator, hlocator, hlocated⟩ := Except.bind_eq_ok.mp h
  obtain ⟨job, hjob, hstarted⟩ := Except.bind_eq_ok.mp hlocated
  obtain ⟨options, hoptions, hgenerate⟩ := Except.bind_eq_ok.mp hstarted
  obtain ⟨description, hdescription, hproject⟩ := Except.bind_eq_ok.mp hgenerate
  rw [namedEnums_of_options hoptions] at hdescription
  obtain ⟨resolver, hdescribe⟩ : ∃ resolver, job.describe s.namedEnums.isFilled = (.ok description, resolver) :=
    ⟨_, Prod.ext hdescription rfl⟩
  unfold create
  rw [eq_text_of_pathOf hlocator]
  refine (passes_sayValue_text _ locator).ends_bind rfl fun c₁ h₁ => ?_
  refine (passes_sayLine _).ends_bind h₁ fun c₂ h₂ => ends_check_ok_bind ?_
  refine (passes_look _).ends_bind h₂ fun c₃ h₃ => ends_get_bind ?_
  rw [h₃, hjob]
  refine ends_check_ok_bind ?_
  rw [hdescribe]
  refine (passes_sayLine _).ends_bind h₃ fun c₄ h₄ => ?_
  refine (passes_look _).ends_bind h₄ fun c₅ h₅ => ?_
  rw [hoptions]
  refine ends_check_ok_bind (ends_check_ok_bind ?_)
  rw [hproject]
  refine ends_check (fun _ h => by cases h) fun made hmade => ⟨?_, h₅⟩
  exact (Except.ok.inj hmade).symm

/-! ### Writing -/

open Disk (IsFileName)

/-- **One file after the other.**  Either all files are written, or the writing is broken off at one of them. -/
theorem ends_writeFiles {directory : String} {files : List (String × String)}
    (hnames : ∀ f ∈ files, IsFileName f.1) (hdistinct : (files.map (·.1)).Nodup) (c : Console) :
    Ends (writeFiles directory files) c
      (fun _ after => c.storage.disk.Wrote after.storage.disk directory files)
      fun after => c.storage.disk.BrokeOff after.storage.disk directory files := by
  induction files generalizing c with
  | nil => exact Disk.wrote_nil _ directory
  | cons f rest ih =>
    obtain ⟨name, text⟩ := f
    rw [List.forall_mem_cons] at hnames
    rw [List.map_cons, List.nodup_cons] at hdistinct
    have hne : ∀ f ∈ rest, f.1 ≠ name := fun f hf hsame =>
      hdistinct.1 (List.mem_map.mpr ⟨f, hf, hsame⟩)
    rw [writeFiles]
    refine (passes_look _).ends_bind rfl fun c₁ h₁ => ?_
    refine ends_change_bind (fun e disk hwrite => ?_) fun disk hwrite => ?_
    · -- The file is as it was or is empty; none of the others has been opened.
      rw [h₁] at hwrite
      exact ⟨[], (name, text), rest, c.storage.disk, rfl, Disk.wrote_nil _ directory,
        Disk.writeText_eq_error hwrite⟩
    · rw [h₁] at hwrite
      obtain ⟨place, plain, hwalk, hentry, hplain, rfl⟩ := Disk.writeText_eq_ok hwrite
      refine (passes_sayLine _).ends_bind rfl fun c₂ h₂ => ?_
      -- The file keeps its text while the others are written, as they have other names.
      refine (ih hnames.2 hdistinct.2 c₂).mono (fun _ after h => ?_) fun after h => ?_
      · rw [h₂] at h
        exact h.cons hnames.1 hnames.2 hne hwalk hentry hplain
      · rw [h₂] at h
        exact h.cons hnames.1 hnames.2 hne hwalk hentry hplain

/-- The names of the two files stand for themselves. -/
theorem isFileName_types : IsFileName "types.ts" where
  ne_nil := by decide
  ne_dot := by decide
  ne_dots := by decide
  notMem := by decide
  plain := by cbv

theorem isFileName_api : IsFileName "api.ts" where
  ne_nil := by decide
  ne_dot := by decide
  ne_dots := by decide
  notMem := by decide
  plain := by cbv

/-- A client has two files. -/
theorem texts_of_clientOf {s : Settings} {storage : Storage} {project : Output.Project}
    (h : clientOf s storage = .ok project) :
    ∃ types methods, project.texts = [("types.ts", types), ("api.ts", methods)] := by
  obtain ⟨locator, -, hlocator⟩ := Except.bind_eq_ok.mp h
  obtain ⟨job, -, hjob⟩ := Except.bind_eq_ok.mp hlocator
  obtain ⟨options, -, hoptions⟩ := Except.bind_eq_ok.mp hjob
  obtain ⟨description, -, hgenerate⟩ := Except.bind_eq_ok.mp hoptions
  obtain ⟨types, methods, htypes, hmethods, rfl⟩ := Output.exists_files hgenerate
  refine ⟨types.text, methods.text, ?_⟩
  rw [← Output.name_typesFile htypes, ← Output.name_methodsFile hmethods]
  rfl

/-- The client is written to its directory, or it is written in part, or no file has changed. -/
theorem ends_save {s : Settings} {storage : Storage} {project : Output.Project} (h : clientOf s storage = .ok project)
    (directory : Value) (c : Console) : Ends (save project directory) c
      (fun _ after => ∃ path, directory = .text path
        ∧ c.storage.disk.Wrote after.storage.disk path project.texts)
      fun after => after.storage.disk.files = c.storage.disk.files ∨ ∃ path, directory = .text path
        ∧ c.storage.disk.BrokeOff after.storage.disk path project.texts := by
  obtain ⟨types, methods, htexts⟩ := texts_of_clientOf h
  unfold save
  refine (passes_sayLine _).ends_bind rfl fun c₁ h₁ => ?_
  refine ends_check_bind (fun _ _ => .inl (by rw [h₁])) fun path hpath => ?_
  have hdirectory := eq_text_of_pathOf hpath
  refine (passes_look _).ends_bind h₁ fun c₂ h₂ => ?_
  refine ends_change_bind (fun e disk hmake => ?_) fun disk hmake => ?_
  · -- Nothing of the directory stays on a disk that it cannot be made on.
    split at hmake
    · cases hmake
    · cases hmake
      exact .inl (by rw [Console.withDisk, h₂])
  · have hmade : c.storage.disk.makeDirectories path = .ok disk := by
      rw [← h₂]
      split at hmake
      · next made hok =>
        cases hmake
        exact hok
      · cases hmake
    obtain ⟨hfiles, hgrows⟩ := Disk.makeDirectories_eq_ok hmade
    have hnames : ∀ f ∈ project.texts, IsFileName f.1 := by
      rw [htexts]
      simp [isFileName_types, isFileName_api]
    have hwrite := @ends_writeFiles path _ hnames (by rw [htexts]; simp) (c₂.withDisk disk)
    refine Ends.bind (hwrite.mono (fun _ _ => id) fun after hbroke => .inr ?_) fun _ c₃ hwrote => ?_
    · exact ⟨path, hdirectory, hbroke.of_made hfiles hgrows⟩
    · -- What is said afterwards cannot fail.
      exact ⟨path, hdirectory, hwrote.of_made hfiles hgrows⟩

/-- One file is written where nothing is in its way, and then the others. -/
theorem ends_writeFiles_cons {directory name text plain : String} {rest : List (String × String)}
    {place : List String} {P : Unit → Console → Prop} {E : Console → Prop}
    (hwalk : c.storage.disk.walk (Path.join directory name) = .ok place)
    (hentry : c.storage.disk.entryAt place ≠ .directory) (hplain : Text.plain? text = some plain)
    (hnext : ∀ after : Console, after.storage.disk = c.storage.disk.putFile place plain.toUTF8 →
      Ends (writeFiles directory rest) after P E) :
    Ends (writeFiles directory ((name, text) :: rest)) c P E := by
  have hwrite := Disk.writeText_of_walk hwalk hentry hplain
  rw [writeFiles]
  refine (passes_look _).ends_bind rfl fun c₁ h₁ => ?_
  rw [← h₁] at hwrite hnext
  refine ends_change_bind_of_ok hwrite ?_
  exact (passes_sayLine _).ends_bind rfl fun c₂ h₂ => hnext c₂ (by rw [h₂, Console.withDisk])

/-- Once the directory is made, saving depends on the files alone: what is said afterwards cannot fail. -/
theorem ends_save_made {project : Output.Project} {directory : String} {made : Disk} {D : Storage → Prop}
    {E : Console → Prop} (hmake : c.storage.disk.makeDirectories directory = .ok made)
    (hwrite : ∀ before : Console, before.storage.disk = made →
      Ends (writeFiles directory project.texts) before (fun _ after => D after.storage) E) :
    Ends (save project (.text directory)) c (fun _ after => D after.storage) E := by
  unfold save
  refine (passes_sayLine _).ends_bind rfl fun c₁ h₁ => ends_check_ok_bind ?_
  refine (passes_look _).ends_bind h₁ fun c₂ h₂ => ?_
  rw [← h₂] at hmake
  refine ends_change_bind_of_ok (by rw [hmake]) ?_
  refine (hwrite (c₂.withDisk made) rfl).bind fun _ c₃ hdone => ?_
  refine (passes_sayLine _).ends_bind rfl fun c₄ h₄ => ends_get_bind ?_
  refine (passes_sayLine _).ends h₄ fun c₅ h₅ => ?_
  rw [h₅]
  exact hdone

/-- A client is saved in a directory that can be made, if nothing is in the way of its files. -/
theorem ends_save_of {project : Output.Project} {directory types methods plain plain' : String}
    {made : Disk} {place place' : List String}
    (htexts : project.texts = [("types.ts", types), ("api.ts", methods)])
    (hmake : c.storage.disk.makeDirectories directory = .ok made)
    (htypes : made.walk (Path.join directory "types.ts") = .ok place) (hentry : made.entryAt place ≠ .directory)
    (hplain : Text.plain? types = some plain)
    (hmethods : made.walk (Path.join directory "api.ts") = .ok place')
    (hentry' : (made.putFile place plain.toUTF8).entryAt place' ≠ .directory)
    (hplain' : Text.plain? methods = some plain') :
    Ends (save project (.text directory)) c (fun _ _ => True) fun _ => False := by
  refine ends_save_made (D := fun _ => True) hmake fun c₁ h₁ => ?_
  rw [htexts]
  subst h₁
  refine ends_writeFiles_cons htypes hentry hplain fun c₂ h₂ => ?_
  -- Paths lead where they did before the first file was there.
  have hgrows := Disk.grows_putFile hentry plain.toUTF8
  rw [← h₂] at hentry' hgrows
  exact ends_writeFiles_cons (hgrows.walk_eq_ok hmethods) hentry' hplain' fun c₃ _ => trivial

/-! ### Whole runs -/

/-- The client that settings lead to is written to their directory. -/
def Saved (s : Settings) (before after : Storage) : Prop :=
  ∃ project path, clientOf s before = .ok project ∧ s.directory = .text path
    ∧ before.disk.Wrote after.disk path project.texts

/-- The writing of this client was broken off. -/
def SavedInPart (s : Settings) (before after : Storage) : Prop :=
  ∃ project path, clientOf s before = .ok project ∧ s.directory = .text path
    ∧ before.disk.BrokeOff after.disk path project.texts

/-- A report of an error changes nothing but what is said, and the run still ends with the error. -/
theorem ends_produce_of {s : Settings} {P : Unit → Console → Prop} {E : Console → Prop}
    (hwork : Ends (do save (← create s) s.directory) c P E)
    (hsame : ∀ before after : Console, after.storage = before.storage → E before → E after) :
    Ends (produce s) c P E := by
  refine hwork.tryCatch fun e c₁ he hfailed => ?_
  -- An error that was reported passes; of the others some are reported here and the rest end the run.
  cases e with
  | reported code => exact ⟨he, hfailed⟩
  | failed e =>
    dsimp only
    split
    · refine (passes_sayLine _).ends_bind rfl fun c₂ h₂ => ?_
      exact ⟨.inl rfl, hsame c₁ c₂ h₂ hfailed⟩
    · exact ⟨trivial, hfailed⟩

theorem ends_produce (s : Settings) (c : Console) : Ends (produce s) c
    (fun _ after => Saved s c.storage after.storage)
    fun after => after.storage.disk.files = c.storage.disk.files ∨ SavedInPart s c.storage after.storage := by
  refine ends_produce_of ?_ fun before after hsame hfailed => by rw [hsame]; exact hfailed
  refine ((ends_create s c).mono (fun _ _ => id) fun after h => .inl (by rw [h])).bind ?_
  rintro project c₁ ⟨h₁, hproject⟩
  refine (ends_save hproject s.directory c₁).mono (fun _ after hsaved => ?_) fun after hfailed => ?_
  · obtain ⟨path, hpath, hwrote⟩ := hsaved
    rw [h₁] at hwrote
    exact ⟨project, path, hproject, hpath, hwrote⟩
  · rw [h₁] at hfailed
    exact hfailed.imp_right fun ⟨path, hpath, hbroke⟩ => ⟨project, path, hproject, hpath, hbroke⟩

/-- The client that a command line leads to, and the directory that it is for. -/
structure LeadsTo (words : List String) (storage : Storage) (input : List String) (project : Output.Project)
    (directory : String) : Prop where
  settings : ∃ a s after, Arguments.parse words = .ok a
    ∧ leave (settle a) ⟨storage, input, "", []⟩ = (.ok s, after)
    ∧ clientOf s storage = .ok project ∧ s.directory = .text directory
  texts : ∃ types methods, project.texts = [("types.ts", types), ("api.ts", methods)]

/-- The run has ended with an error. -/
def Outcome.IsError (o : Outcome) : Prop :=
  o.result = .ok 1 ∨ o.result = .ok 2 ∨ ∃ e, o.result = .error e

theorem ends_execute {a : Arguments} (hgenerate : a.keepSettings = false) (c : Console) : Ends (execute a) c
    (fun _ after => ∃ s settled, leave (settle a) c = (.ok s, settled) ∧ Saved s c.storage after.storage)
    fun after => after.storage.disk.files = c.storage.disk.files
      ∨ ∃ s settled, leave (settle a) c = (.ok s, settled) ∧ SavedInPart s c.storage after.storage := by
  have hkept : ∀ after : Console, after.storage = c.storage → after.storage.disk.files = c.storage.disk.files
      ∨ ∃ s settled, leave (settle a) c = (.ok s, settled) ∧ SavedInPart s c.storage after.storage :=
    fun after hafter => .inl (by rw [hafter])
  unfold execute
  rw [hgenerate, if_neg Bool.false_ne_true]
  refine Ends.bind ((keeps_settle a c).leave_eq.mono (fun _ _ => id) hkept) ?_
  rintro s c₁ ⟨hsettled, h₁⟩
  dsimp only
  split
  · refine (passes_sayLine _).ends_bind h₁ fun c₂ h₂ => ?_
    exact ⟨.inl rfl, hkept c₂ h₂⟩
  · refine (keeps_sayValue _ _).ends_bind h₁ hkept fun _ c₂ h₂ => ?_
    refine (ends_produce s c₂).mono (fun _ after hsaved => ?_) fun after hfailed => ?_
    · rw [h₂] at hsaved
      exact ⟨s, c₁, hsettled, hsaved⟩
    · rw [h₂] at hfailed
      exact hfailed.imp_right fun hpart => ⟨s, c₁, hsettled, hpart⟩

/-- A whole run is what its program leaves. -/
theorem carryOut_eq (words input : List String) (storage : Storage) : carryOut words storage input
    = match leave (program words) ⟨storage, input, "", []⟩ with
      | (.ok (), console) => ⟨.ok 0, console⟩
      | (.error (.reported code), console) => ⟨.ok code, console⟩
      | (.error (.failed e), console) => ⟨.error e, console⟩ := rfl

/-- How a run that has ended shows its end. -/
theorem Ends.carryOut {words : List String} {storage : Storage} {input : List String} {P E : Console → Prop}
    (h : Ends (program words) ⟨storage, input, "", []⟩ (fun _ => P) E) :
    ((CommandLine.carryOut words storage input).result = .ok 0
        ∧ P (CommandLine.carryOut words storage input).console)
      ∨ ((CommandLine.carryOut words storage input).IsError
        ∧ E (CommandLine.carryOut words storage input).console) := by
  unfold Ends at h
  rw [carryOut_eq]
  generalize leave (program words) ⟨storage, input, "", []⟩ = result at h ⊢
  rcases result with ⟨(code | e) | _, after⟩
  · obtain ⟨rfl | rfl, hafter⟩ := h
    · exact .inr ⟨.inl rfl, hafter⟩
    · exact .inr ⟨.inr (.inl rfl), hafter⟩
  · exact .inr ⟨.inr (.inr ⟨e, rfl⟩), h.2⟩
  · exact .inl ⟨rfl, h⟩

end CommandLine

open CommandLine Output

/-! ### A directory where a file should be -/

/-- A schema in a document, and a directory where the methods' file should be. -/
def blockedText : String :=
  "\x7b\"components\":\x7b\"schemas\":\x7b\"Id\":\x7b\"type\":\"string\"\x7d\x7d\x7d\x7d"

def blockedDisk (content : ByteArray) : Disk :=
  ⟨[(["w", "m.json"], content), (["w", "out", "api.ts", "x"], ByteArray.empty)], [], ["w"]⟩

def blocked : Storage :=
  ⟨blockedDisk blockedText.toUTF8, []⟩

def idSchema : Value := .map [(.text "type", .text "string")]

def idDocument : Value :=
  .map [(.text "components", .map [(.text "schemas", .map [(.text "Id", idSchema)])])]

theorem parse_blockedText : Json.parse blockedText = .ok idDocument := by cbv

def idRead : Resolver where
  entry := "m.json"
  base := "/w"
  registry := [("#/components/schemas/Id", ⟨"Id", "#/components/schemas/Id", .string⟩)]
  pending := []
  queue := []
  loaded := [""]
  asked := []

def blockedJob : Job :=
  ⟨blocked.source, idDocument, Resolver.fresh "/w" "m.json"⟩

theorem converts_id : Schema.Converts ⟨"m.json", ""⟩ idSchema [] .string :=
  .string ⟨rfl, rfl⟩ rfl

theorem register_id : (Resolver.fresh "/w" "m.json").register "" idDocument = (.ok (), idRead) := by
  show Resolver.registerSchemas _ "" [(.text "Id", idSchema)] = _
  simp only [Resolver.registerSchemas, Resolver.convert, Resolver.run, Value.asText]
  have hscope : (Resolver.fresh "/w" "m.json").scope "" = ⟨"m.json", ""⟩ := rfl
  rw [hscope, converts_id.convert_eq]
  rfl

theorem describe_id : blockedJob.describe false = (.ok ⟨idRead.registry, [], []⟩, idRead) := by
  show Bundle.describe ⟨blocked.source, "/w", "m.json", idDocument⟩ false = _
  exact Bundle.describe_eq_ok.mpr ⟨[], idRead, idRead, ⟨_, register_id, rfl⟩,
    Bundle.resolve_eq_ok.mpr ⟨Resolver.loadAll_nil rfl, rfl⟩, rfl, rfl, rfl⟩

def idTypes : CodeFile := (CodeFile.empty "types.ts").addCode ["export type Id = string;"]

theorem generate_id : generate ⟨false, none⟩ ⟨idRead.registry, [], []⟩ = .ok ⟨[idTypes, noMethods ⟨false, none⟩]⟩ := by
  have htypes : typesFile ⟨false, none⟩ ⟨idRead.registry, [], []⟩ = .ok idTypes := by
    have hsorted : sortedDeclarations idRead.registry = [⟨"Id", "#/components/schemas/Id", .string⟩] :=
      List.mergeSort_singleton _
    simp only [typesFile, hsorted]
    rfl
  exact generate_of_files htypes (methodsFile_nil _ _)

theorem text_idTypes : idTypes.text = "export type Id = string;\n" := by
  rw [idTypes, text_addCode]
  decide +kernel

theorem workingPath_blocked (content : ByteArray) : (blockedDisk content).workingPath = "/w" := by
  cbv

theorem walk_blocked {path : String} {segments : List String} (content : ByteArray)
    (hpath : Disk.isPlainPath path = true)
    (hsegments : Text.pieces '/' path.toList = segments.map String.toList)
    (hsteps : (segments.map String.toList).foldlM (blockedDisk content).step ["w"] = .ok ("w" :: segments)) :
    (blockedDisk content).walk path = .ok ("w" :: segments) := by
  refine Disk.walk_of_isPlainPath hpath ?_
  rw [hsegments]
  exact hsteps

theorem walks_blocked (content : ByteArray) :
    (blockedDisk content).walk "openapi.toml" = .ok ["w", "openapi.toml"]
      ∧ (blockedDisk content).walk "m.json" = .ok ["w", "m.json"]
      ∧ (blockedDisk content).walk "out/types.ts" = .ok ["w", "out", "types.ts"]
      ∧ (blockedDisk content).walk "out/api.ts" = .ok ["w", "out", "api.ts"] :=
  ⟨walk_blocked content (by decide +kernel) (by decide +kernel) (by cbv),
    walk_blocked content (by decide +kernel) (by decide +kernel) (by cbv),
    walk_blocked content (by decide +kernel) (by decide +kernel) (by cbv),
    walk_blocked content (by decide +kernel) (by decide +kernel) (by cbv)⟩

theorem entries_blocked (content : ByteArray) :
    (blockedDisk content).entryAt ["w", "openapi.toml"] = .missing
      ∧ (blockedDisk content).entryAt ["w", "m.json"] = .file content
      ∧ (blockedDisk content).entryAt ["w", "out", "types.ts"] = .missing
      ∧ (blockedDisk content).entryAt ["w", "out", "api.ts"] = .directory :=
  ⟨by cbv, by cbv, by cbv, by cbv⟩

theorem load_blocked : Settings.load blocked.disk Settings.fileName none = .ok none := by
  have hmissing : blocked.disk.exists? "openapi.toml" = false := by
    rw [Disk.exists?, Disk.find, blocked, (walks_blocked _).1, Except.map, (entries_blocked _).1]
  show (if !blocked.disk.exists? "openapi.toml" then _ else _) = _
  rw [hmissing]
  rfl

theorem start_blocked : Job.start blocked "m.json" = .ok blockedJob := by
  have hlocal : Locator.isUrl "m.json" = false := by cbv
  have hfind : blocked.disk.find "m.json" = .ok (.file blockedText.toUTF8) := by
    rw [Disk.find, blocked, (walks_blocked _).2.1, Except.map, (entries_blocked _).2.1]
  have hmarked : Text.marked blockedText = blockedText := by
    rw [Text.marked, if_neg (by decide +kernel)]
  have htext := readText_of_find hlocal hfind (by cbv) hmarked
  have hdocument : blocked.readDocument "m.json" = .ok idDocument := by
    rw [Storage.readDocument, htext, Except.ok_bind, Storage.parseText, if_pos (by cbv),
      parse_blockedText]
    rfl
  have hbase : Locator.base blocked.disk.workingPath "m.json" = .ok "/w" := by
    rw [blocked, workingPath_blocked]
    cbv
  have hentry : Locator.entry "m.json" = .ok "m.json" := by cbv
  have hstart : Resolver.start "/w" "m.json" = .ok (Resolver.fresh "/w" "m.json") := by cbv
  rw [Job.start, hdocument, Except.ok_bind, hbase, Except.ok_bind, hentry, Except.ok_bind, hstart]
  rfl

def blockedArguments : Arguments :=
  { Arguments.empty with url := some "m.json" }

theorem parse_blockedArguments : Arguments.parse ["m.json"] = .ok blockedArguments := by cbv

theorem makeDirectories_blocked (content : ByteArray) :
    (blockedDisk content).makeDirectories "out" = .ok (blockedDisk content) := by cbv

/-- The disk after the run: the types are there. -/
def blockedAfter : Disk :=
  blocked.disk.putFile ["w", "out", "types.ts"] "export type Id = string;\n".toUTF8

/-- Until the files are written, the run meets no error. -/
theorem ends_settle_blocked {c : Console} (hc : c.storage = blocked) : Ends (settle blockedArguments) c
    (fun s after => s = blockedArguments.settings ∧ after.storage = blocked) fun _ => False := by
  have hstored : Ends stored c (fun kept after => kept = none ∧ after.storage = blocked) fun _ => False := by
    refine (passes_look _).ends_bind hc fun c₁ h₁ => ends_get_bind ?_
    rw [h₁, load_blocked]
    exact ends_check (fun _ h => by cases h) fun kept hkept => ⟨(Except.ok.inj hkept).symm, h₁⟩
  unfold settle
  refine hstored.bind ?_
  rintro _ c₁ ⟨rfl, h₁⟩
  exact ⟨rfl, h₁⟩

theorem clientOf_blocked (directory : Value) : clientOf ⟨.text "m.json", directory, .bool false, .null⟩ blocked
    = .ok ⟨[idTypes, noMethods ⟨false, none⟩]⟩ := by
  show (Job.start blocked "m.json" >>= _) = _
  rw [start_blocked, Except.ok_bind]
  show (do generate ⟨false, none⟩ (← (blockedJob.describe false).1)) = _
  rw [describe_id, Except.ok_bind, generate_id]

theorem writeText_types : blocked.disk.writeText (Path.join "out" "types.ts") idTypes.text = (.ok (), blockedAfter) := by
  have hpath : Path.join "out" "types.ts" = "out/types.ts" := by cbv
  have hwrite : ∀ content, blocked.disk.write "out/types.ts" content
      = .ok (blocked.disk.putFile ["w", "out", "types.ts"] content) := by
    intro content
    refine Disk.write_eq_ok.mpr ⟨_, (walks_blocked _).2.2.1, ?_, rfl⟩
    rw [blocked, (entries_blocked _).2.2.1]
    exact DiskEntry.noConfusion
  have hplain : Text.plain? "export type Id = string;\n" = some "export type Id = string;\n" := by decide +kernel
  rw [text_idTypes, hpath, Disk.writeText, hwrite]
  simp only [hplain]
  rw [hwrite]
  rfl

theorem writeText_methods (text : String) : blockedAfter.writeText (Path.join "out" "api.ts") text
    = (.error (.access .isDirectory), blockedAfter) := by
  have hpath : Path.join "out" "api.ts" = "out/api.ts" := by cbv
  have hgrows : blocked.disk.Grows blockedAfter := by
    refine Disk.grows_putFile ?_ _
    rw [blocked, (entries_blocked _).2.2.1]
    exact DiskEntry.noConfusion
  have hwrite : ∀ content, blockedAfter.write "out/api.ts" content = .error (.access .isDirectory) := by
    intro content
    rw [Disk.write, hgrows.walk_eq_ok (walks_blocked _).2.2.2]
    simp only
    rw [hgrows.directories _ (entries_blocked _).2.2.2]
  rw [hpath, Disk.writeText, hwrite]

/-- The types are written, and then the other file cannot be opened. -/
theorem ends_save_blocked {c : Console} (hc : c.storage = blocked) {methods : CodeFile}
    (hname : methods.name = "api.ts") : Ends (save ⟨[idTypes, methods]⟩ (.text "out")) c (fun _ _ => False)
    fun after => after.storage.disk = blockedAfter := by
  have hmake : c.storage.disk.makeDirectories "out" = .ok blocked.disk := by
    rw [hc]
    exact makeDirectories_blocked _
  have htexts : Project.texts ⟨[idTypes, methods]⟩ = [("types.ts", idTypes.text), ("api.ts", methods.text)] := by
    rw [← hname]
    rfl
  refine ends_save_made (D := fun _ => False) hmake fun c₁ h₁ => ?_
  rw [htexts, writeFiles]
  refine (passes_look _).ends_bind rfl fun c₂ h₂ => ?_
  refine ends_change_bind_of_ok (by rw [h₂, h₁, writeText_types]) ?_
  refine (passes_sayLine _).ends_bind rfl fun c₃ h₃ => ?_
  rw [writeFiles]
  refine (passes_look _).ends_bind h₃ fun c₄ h₄ => ?_
  have hfailed : c₄.storage.disk.writeText (Path.join "out" "api.ts") methods.text
      = (.error (.access .isDirectory), blockedAfter) := by
    rw [h₄, Console.withDisk, writeText_methods]
  exact ends_change_bind_of_error hfailed rfl

theorem ends_blocked {c : Console} (hc : c.storage = blocked) : Ends (program ["m.json"]) c (fun _ _ => False)
    fun after => after.storage.disk = blockedAfter := by
  unfold program
  rw [parse_blockedArguments]
  show Ends (execute blockedArguments) c _ _
  unfold execute
  rw [if_neg (by decide)]
  refine (ends_settle_blocked hc).bind_sure ?_
  rintro _ c₁ ⟨rfl, h₁⟩
  dsimp only
  rw [if_neg (by decide)]
  refine (passes_sayValue_text _ "out").ends_bind h₁ fun c₂ h₂ => ?_
  refine ends_produce_of ?_ fun before after hsame hafter => by rw [hsame]; exact hafter
  have hclient : clientOf blockedArguments.settings c₂.storage = .ok ⟨[idTypes, noMethods ⟨false, none⟩]⟩ := by
    rw [h₂]
    exact clientOf_blocked _
  refine (ends_create_of hclient).bind_sure ?_
  rintro _ c₃ ⟨rfl, h₃⟩
  exact ends_save_blocked (h₃.trans h₂) rfl

theorem carryOut_blocked : (carryOut ["m.json"] blocked []).IsError
    ∧ (carryOut ["m.json"] blocked []).console.storage.disk = blockedAfter := by
  rcases (ends_blocked rfl).carryOut with ⟨-, hfalse⟩ | hblocked
  · exact hfalse.elim
  · exact hblocked

theorem isNew_types : blocked.disk.files.get? ["w", "out", "types.ts"] = none
    ∧ blockedAfter.files.get? ["w", "out", "types.ts"] = some "export type Id = string;\n".toUTF8 := by
  refine ⟨rfl, ?_⟩
  rw [blockedAfter, Disk.get?_putFile, if_pos rfl]

end TypedClient
