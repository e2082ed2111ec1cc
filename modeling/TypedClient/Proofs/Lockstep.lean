import TypedClient.Proofs.Runs
import TypedClient.Proofs.SameDocuments
import TypedClient.Proofs.Trails

namespace TypedClient

/-!
# Runs in step

Two runs that generate from the same settings do the same, step by step, if they find the same documents and if their
disks differ only at a place that the client keeps away from.  Both come to their ends or both fail, and they leave
disks that differ only at this place.

* `Storage.AgreesOff` — storages that differ at one place of their disks.
* `Storage.AgreesOff.readDocument_akin` — the documents in them are the same, but for one file.
* `Settings.locators` — the documents that a generation asks for.
* `CommandLine.InStep` — two parts of runs that come to the same.
* `CommandLine.inStep_produce` — generating and writing the client comes to the same.
-/

open Disk (Avoids)

variable {root place : List String}

/-! ### Storages that agree -/

/-- Storages that differ in nothing but what stands at one place of their disks. -/
structure Storage.AgreesOff (root place : List String) (s s' : Storage) : Prop where
  disk : Disk.AgreesOff root place s.disk s'.disk
  web_eq : s'.web = s.web

section Storages

variable {s s' : Storage} {locator : String}

/-- **The same documents are read**, unless the file that only one of the storages has is read as one. -/
theorem Storage.AgreesOff.readDocument_akin {content : ByteArray} (h : s.AgreesOff root place s')
    (hmissing : s.disk.entryAt place = .missing) (hfile : s'.disk.entryAt place = .file content)
    (hother : Locator.isUrl locator = false → s.disk.walk locator = .ok place →
      ∀ document, s'.readDocument locator ≠ .ok document) :
    Akin (s.readDocument locator) (s'.readDocument locator) := by
  cases hurl : Locator.isUrl locator with
  | true =>
    apply Akin.of_eq
    unfold readDocument readText
    rw [hurl, h.web_eq]
    rfl
  | false =>
    by_cases hwalk : s.disk.walk locator = .ok place
    · -- Without the file there is nothing to read, and the file is not a document.
      have hnothing : s.disk.readText locator = .error (.access .notFound) := by
        rw [Disk.readText, Disk.read, Disk.find, hwalk, Except.map, hmissing]
        rfl
      have hfails : s.readDocument locator = .error (.access .notFound) := by
        unfold readDocument readText
        rw [hurl, if_neg Bool.false_ne_true, hnothing]
        rfl
      rw [hfails]
      cases hread : s'.readDocument locator with
      | error e => exact .error _ e
      | ok document => exact absurd hread (hother hurl hwalk document)
    · unfold readDocument readText
      rw [hurl, if_neg Bool.false_ne_true, if_neg Bool.false_ne_true]
      exact (h.disk.readText_akin hmissing hfile hwalk).bind fun _ _ => .refl _

/-- **Generations start alike.**  They have the same document and know the same place of it, or both fail. -/
theorem Job.start_alike (h : s.AgreesOff root place s')
    (hread : Akin (s.readDocument locator) (s'.readDocument locator)) :
    (∃ e e', Job.start s locator = .error e ∧ Job.start s' locator = .error e')
      ∨ ∃ document base entry, Job.start s locator = .ok ⟨s.source, document, Resolver.fresh base entry⟩
        ∧ Job.start s' locator = .ok ⟨s'.source, document, Resolver.fresh base entry⟩ := by
  have hpath : s'.disk.workingPath = s.disk.workingPath := by
    rw [Disk.workingPath, Disk.workingPath, h.disk.root_eq, h.disk.root_eq']
  unfold Job.start
  rw [hpath]
  -- Nothing but the document comes from the storage.
  generalize s.readDocument locator = result at hread ⊢
  generalize s'.readDocument locator = result' at hread ⊢
  cases hread with
  | error e e' => exact .inl ⟨e, e', rfl, rfl⟩
  | ok document =>
    cases Locator.base s.disk.workingPath locator with
    | error e => exact .inl ⟨e, e, rfl, rfl⟩
    | ok base =>
      cases Locator.entry locator with
      | error e => exact .inl ⟨e, e, rfl, rfl⟩
      | ok entry =>
        simp only [Except.ok_bind]
        cases hstart : Resolver.start base entry with
        | error e => exact .inl ⟨e, e, rfl, rfl⟩
        | ok r =>
          rw [Resolver.eq_fresh_of_start hstart]
          exact .inr ⟨document, base, r.entry, rfl, rfl⟩

end Storages

/-- The documents that a generation with these settings asks for: the one of the settings, and those linked to it. -/
def Settings.locators (s : Settings) (storage : Storage) : List String :=
  match s.url with
  | .text locator =>
    locator :: match Job.start storage locator with
      | .ok job => (job.describe s.namedEnums.isFilled).2.asked
      | .error _ => []
  | _ => []

namespace Settings

variable {s : Settings} {storage : Storage} {locator : String}

/-- The document of the settings is asked for in any case. -/
theorem mem_locators (hurl : s.url = .text locator) : locator ∈ s.locators storage := by
  unfold locators
  rw [hurl]
  exact List.mem_cons_self

theorem locators_of_start {job : Job} (hurl : s.url = .text locator) (hstart : Job.start storage locator = .ok job) :
    s.locators storage = locator :: (job.describe s.namedEnums.isFilled).2.asked := by
  unfold locators
  rw [hurl]
  dsimp only
  rw [hstart]

end Settings

/-- The paths of a client in a directory: those that a run makes or writes to. -/
def Path.ofClient (directory : String) : List String :=
  [directory, join directory "types.ts", join directory "api.ts"]

namespace CommandLine

/-! ### Parts of runs in step -/

/-- Two parts of runs come to the same: they have the same result, or both have none, and the storages agree
    afterwards. -/
def InStep (root place : List String) {α : Type} (x : Run α) (c : Console) (y : Run α) (c' : Console) : Prop :=
  Akin (leave x c).1 (leave y c').1 ∧ (leave x c).2.storage.AgreesOff root place (leave y c').2.storage

section Rules

variable {α β γ : Type} {x y : Run α} {c c' : Console} {storage storage' : Storage}

/-- Parts that come to the same are followed by parts that do. -/
theorem InStep.bind {f g : α → Run β} (h : InStep root place x c y c')
    (hnext : ∀ a after after', leave x c = (.ok a, after) → after.storage.AgreesOff root place after'.storage →
      InStep root place (f a) after (g a) after') : InStep root place (x >>= f) c (y >>= g) c' := by
  unfold InStep at h hnext ⊢
  rw [leave_bind, leave_bind]
  generalize leave x c = result at h hnext ⊢
  generalize leave y c' = result' at h ⊢
  obtain ⟨ended, after⟩ := result
  obtain ⟨ended', after'⟩ := result'
  obtain ⟨hsame, hafter⟩ := h
  dsimp only at hsame hafter
  cases hsame with
  | error e e' => exact ⟨.error e e', hafter⟩
  | ok a => exact hnext a after after' rfl hafter

/-- What is done about an error ends with an error again, and leaves the storage as it is. -/
def Rethrows (handle : Ending → Run α) : Prop :=
  ∀ e c, ∃ e' after, leave (handle e) c = (.error e', after) ∧ after.storage = c.storage

theorem InStep.tryCatch {handle : Ending → Run α} (h : InStep root place x c y c') (hhandle : Rethrows handle) :
    InStep root place (MonadExcept.tryCatch x handle) c (MonadExcept.tryCatch y handle) c' := by
  unfold InStep at h ⊢
  rw [leave_tryCatch, leave_tryCatch]
  generalize leave x c = result at h ⊢
  generalize leave y c' = result' at h ⊢
  obtain ⟨ended, after⟩ := result
  obtain ⟨ended', after'⟩ := result'
  obtain ⟨hsame, hafter⟩ := h
  dsimp only at hsame hafter
  cases hsame with
  | error e e' =>
    obtain ⟨last, final, hleave, hfinal⟩ := hhandle e after
    obtain ⟨last', final', hleave', hfinal'⟩ := hhandle e' after'
    dsimp only
    rw [hleave, hleave']
    rw [← hfinal, ← hfinal'] at hafter
    exact ⟨.error last last', hafter⟩
  | ok a => exact ⟨.ok a, hafter⟩

theorem inStep_get_bind {f g : Console → Run β} (h : InStep root place (f c) c (g c') c') :
    InStep root place (get >>= f) c (get >>= g) c' := by
  unfold InStep at h ⊢
  rw [leave_bind, leave_bind]
  exact h

/-- What is said and looked at makes no difference, and changes neither storage. -/
theorem Passes.inStep_bind {x y : Run Unit} {f g : Unit → Run β} (hx : Passes x) (hy : Passes y)
    (hc : c.storage = storage) (hc' : c'.storage = storage')
    (hnext : ∀ after after', after.storage = storage → after'.storage = storage' →
      InStep root place (f ()) after (g ()) after') : InStep root place (x >>= f) c (y >>= g) c' := by
  obtain ⟨after, hleave, hafter⟩ := hx c
  obtain ⟨after', hleave', hafter'⟩ := hy c'
  unfold InStep at hnext ⊢
  rw [leave_bind, leave_bind, hleave, hleave']
  exact hnext after after' (hafter.trans hc) (hafter'.trans hc')

theorem Passes.inStep {x y : Run Unit} (hx : Passes x) (hy : Passes y)
    (hc : c.storage.AgreesOff root place c'.storage) : InStep root place x c y c' := by
  obtain ⟨after, hleave, hafter⟩ := hx c
  obtain ⟨after', hleave', hafter'⟩ := hy c'
  unfold InStep
  rw [hleave, hleave', hafter, hafter']
  exact ⟨.ok (), hc⟩

theorem inStep_check {result result' : Except Failure α} (hc : c.storage.AgreesOff root place c'.storage)
    (h : Akin result result') : InStep root place (check result) c (check result') c' := by
  cases h with
  | error e e' => exact ⟨.error _ _, hc⟩
  | ok a => exact ⟨.ok a, hc⟩

/-- Both runs have a result to go on with, or neither of them has one. -/
theorem inStep_check_bind {result : Except Failure α} {result' : Except Failure γ} {f : α → Run β} {g : γ → Run β}
    (hc : c.storage.AgreesOff root place c'.storage)
    (h : (∃ e e', result = .error e ∧ result' = .error e')
      ∨ ∃ a b, result = .ok a ∧ result' = .ok b ∧ InStep root place (f a) c (g b) c') :
    InStep root place (check result >>= f) c (check result' >>= g) c' := by
  unfold InStep at h ⊢
  rw [leave_bind, leave_bind]
  obtain ⟨e, e', rfl, rfl⟩ | ⟨a, b, rfl, rfl, hnext⟩ := h
  · exact ⟨.error _ _, hc⟩
  · exact hnext

/-- Both runs go on with the same result. -/
theorem inStep_check_akin {result result' : Except Failure α} {f g : α → Run β}
    (hc : c.storage.AgreesOff root place c'.storage) (h : Akin result result')
    (hnext : ∀ a, result = .ok a → InStep root place (f a) c (g a) c') :
    InStep root place (check result >>= f) c (check result' >>= g) c' := by
  apply inStep_check_bind hc
  cases h with
  | error e e' => exact .inl ⟨e, e', rfl, rfl⟩
  | ok a => exact .inr ⟨a, a, rfl, rfl, hnext a rfl⟩

/-- A value that can be shown is shown by both runs. -/
theorem inStep_sayValue_bind {text : String} {v : Value} {f g : Unit → Run β}
    (h : storage.AgreesOff root place storage') (hc : c.storage = storage) (hc' : c'.storage = storage')
    (hnext : ∀ after after', after.storage = storage → after'.storage = storage' →
      InStep root place (f ()) after (g ()) after') :
    InStep root place (sayValue text v >>= f) c (sayValue text v >>= g) c' := by
  have hagree : c.storage.AgreesOff root place c'.storage := by rwa [hc, hc']
  unfold sayValue
  cases v.asDisplayed with
  | error e => exact ⟨.error _ _, hagree⟩
  | ok shown => exact (passes_sayLine _).inStep_bind (passes_sayLine _) hc hc' hnext

theorem inStep_change {write : Disk → Except Failure Unit × Disk} (hc : c.storage.AgreesOff root place c'.storage)
    (hsame : (write c'.storage.disk).1 = (write c.storage.disk).1)
    (hdisk : Disk.AgreesOff root place (write c.storage.disk).2 (write c'.storage.disk).2) :
    InStep root place (change write) c (change write) c' := by
  have hleave : ∀ c : Console, leave (change write) c
      = leave (check (write c.storage.disk).1) (c.withDisk (write c.storage.disk).2) := fun _ => rfl
  unfold InStep
  rw [hleave, hleave]
  exact inStep_check ⟨hdisk, hc.web_eq⟩ (.of_eq hsame)

end Rules

/-! ### Generating in step -/

variable {c c' : Console} {s s' : Settings}

/-- Settings that lead to the same client in the same directory. -/
structure SameClient (s s' : Settings) : Prop where
  url_eq : s'.url = s.url
  directory_eq : s'.directory = s.directory
  namedEnums_eq : s'.namedEnums.isFilled = s.namedEnums.isFilled
  options_eq : s'.options = s.options

/-- **The client is generated alike**, if the documents that are asked for are the same. -/
theorem inStep_create (h : SameClient s s') (hc : c.storage.AgreesOff root place c'.storage)
    (hask : c.storage.source.AnswersAlike c'.storage.source (s.locators c.storage)) :
    InStep root place (create s) c (create s') c' := by
  unfold create
  rw [h.url_eq, h.namedEnums_eq, h.options_eq]
  generalize hstorage : c.storage = storage at hc hask
  generalize hstorage' : c'.storage = storage' at hc hask
  -- Until the client is complete, both storages stay as they are.
  refine inStep_sayValue_bind hc hstorage hstorage' fun c₁ c₁' h₁ h₁' => ?_
  refine (passes_sayLine _).inStep_bind (passes_sayLine _) h₁ h₁' fun c₂ c₂' h₂ h₂' => ?_
  refine inStep_check_akin (by rwa [h₂, h₂']) (.refl _) fun locator hlocator => ?_
  refine (passes_look _).inStep_bind (passes_look _) h₂ h₂' fun c₃ c₃' h₃ h₃' => inStep_get_bind ?_
  have hurl := eq_text_of_pathOf hlocator
  have hfirst : Akin (storage.readDocument locator) (storage'.readDocument locator) :=
    hask locator (Settings.mem_locators hurl)
  rw [h₃, h₃']
  apply inStep_check_bind (by rwa [h₃, h₃'])
  rcases Job.start_alike hc hfirst with ⟨e, e', hstart, hstart'⟩ | ⟨document, base, entry, hstart, hstart'⟩
  · exact .inl ⟨e, e', hstart, hstart'⟩
  · refine .inr ⟨_, _, hstart, hstart', ?_⟩
    refine (passes_sayLine _).inStep_bind (passes_sayLine _) h₃ h₃' fun c₄ c₄' h₄ h₄' => ?_
    have hlinked : storage.source.AnswersAlike storage'.source
        (Job.describe ⟨storage.source, document, Resolver.fresh base entry⟩ s.namedEnums.isFilled).2.asked := by
      intro other hother
      apply hask
      rw [Settings.locators_of_start hurl hstart]
      exact List.mem_cons_of_mem locator hother
    refine (passes_look _).inStep_bind (passes_look _) h₄ h₄' fun c₅ c₅' h₅ h₅' => ?_
    have hagree : c₅.storage.AgreesOff root place c₅'.storage := by rwa [h₅, h₅']
    refine inStep_check_akin hagree (Job.describe_akin hlinked) fun description _ => ?_
    refine inStep_check_akin hagree (.refl _) fun options _ => ?_
    exact inStep_check hagree (.refl _)

/-- Files are written alike, one after the other. -/
theorem inStep_writeFiles {directory : String} {files : List (String × String)}
    (hc : c.storage.AgreesOff root place c'.storage)
    (havoids : ∀ f ∈ files, Avoids root (Path.join directory f.1) place) :
    InStep root place (writeFiles directory files) c (writeFiles directory files) c' := by
  induction files generalizing c c' with
  | nil => exact ⟨.ok (), hc⟩
  | cons f rest ih =>
    obtain ⟨name, text⟩ := f
    rw [List.forall_mem_cons] at havoids
    rw [writeFiles]
    refine (passes_look _).inStep_bind (passes_look _) rfl rfl fun c₁ c₁' h₁ h₁' => ?_
    rw [← h₁, ← h₁'] at hc
    obtain ⟨hsame, hdisk⟩ := hc.disk.writeText havoids.1 text
    refine (inStep_change hc hsame hdisk).bind fun _ c₂ c₂' _ h₂ => ?_
    refine (passes_sayLine _).inStep_bind (passes_sayLine _) rfl rfl fun c₃ c₃' h₃ h₃' => ?_
    rw [← h₃, ← h₃'] at h₂
    exact ih h₂ havoids.2

/-- **The client is saved alike.** -/
theorem inStep_save {project : Output.Project} {types methods : String}
    (htexts : project.texts = [("types.ts", types), ("api.ts", methods)]) (directory : Value)
    (hc : c.storage.AgreesOff root place c'.storage)
    (havoids : ∀ path, directory = .text path → ∀ file ∈ Path.ofClient path, Avoids root file place)
    (hplace : Disk.IsNamed root place) :
    InStep root place (save project directory) c (save project directory) c' := by
  unfold save
  refine (passes_sayLine _).inStep_bind (passes_sayLine _) rfl rfl fun c₁ c₁' h₁ h₁' => ?_
  rw [← h₁, ← h₁'] at hc
  refine inStep_check_akin hc (.refl _) fun path hpath => ?_
  have hfiles := havoids path (eq_text_of_pathOf hpath)
  simp only [Path.ofClient, List.forall_mem_cons] at hfiles
  refine (passes_look _).inStep_bind (passes_look _) rfl rfl fun c₂ c₂' h₂ h₂' => ?_
  rw [← h₂, ← h₂'] at hc
  -- The directory is made on both disks or on neither, and its making does not come to the place.
  have hmade := hc.disk.makeDirectories hfiles.1 hplace
  refine (inStep_change hc ?_ ?_).bind fun _ c₃ c₃' _ h₃ => ?_
  · generalize c₂.storage.disk.makeDirectories path = made at hmade ⊢
    generalize c₂'.storage.disk.makeDirectories path = made' at hmade ⊢
    cases hmade with
    | ok _ => rfl
    | error e => rfl
  · generalize c₂.storage.disk.makeDirectories path = made at hmade ⊢
    generalize c₂'.storage.disk.makeDirectories path = made' at hmade ⊢
    cases hmade with
    | ok h => exact h
    | error e => exact hc.disk
  refine (inStep_writeFiles h₃ ?_).bind fun _ c₄ c₄' _ h₄ => ?_
  · rw [htexts]
    simp [hfiles]
  · refine (passes_sayLine _).inStep_bind (passes_sayLine _) rfl rfl fun c₅ c₅' h₅ h₅' => inStep_get_bind ?_
    rw [← h₅, ← h₅'] at h₄
    exact (passes_sayLine _).inStep (passes_sayLine _) h₄

/-- The client that is made has two files. -/
theorem texts_of_create {project : Output.Project} {after : Console} (h : leave (create s) c = (.ok project, after)) :
    ∃ types methods, project.texts = [("types.ts", types), ("api.ts", methods)] := by
  have hends := ends_create s c
  unfold Ends at hends
  rw [h] at hends
  exact texts_of_clientOf hends.2

/-- **The client is generated and saved alike.**  An error is reported or not, and ends the run. -/
theorem inStep_produce (h : SameClient s s') (hc : c.storage.AgreesOff root place c'.storage)
    (hask : c.storage.source.AnswersAlike c'.storage.source (s.locators c.storage))
    (havoids : ∀ directory, s.directory = .text directory → ∀ path ∈ Path.ofClient directory, Avoids root path place)
    (hplace : Disk.IsNamed root place) : InStep root place (produce s) c (produce s') c' := by
  unfold produce
  apply InStep.tryCatch
  · refine (inStep_create h hc hask).bind fun project c₁ c₁' hleave h₁ => ?_
    obtain ⟨types, methods, htexts⟩ := texts_of_create hleave
    rw [h.directory_eq]
    exact inStep_save htexts s.directory h₁ havoids hplace
  · intro e c₁
    cases e with
    | reported code => exact ⟨_, c₁, rfl, rfl⟩
    | failed e =>
      dsimp only
      split
      · obtain ⟨after, hleave, hafter⟩ := passes_sayLine (reportText e) c₁
        refine ⟨.reported 1, after, ?_, hafter⟩
        rw [leave_bind, hleave]
        rfl
      · exact ⟨_, c₁, rfl, rfl⟩

end CommandLine

end TypedClient
