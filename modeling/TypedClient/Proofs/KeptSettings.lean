import TypedClient.Proofs.Lockstep

namespace TypedClient

/-!
# Settings that are kept and used

A command line can keep its settings in a file instead of generating.  A run without any words then uses the file.  It
does what the command line would have done at once, unless the file is in its way.

* `CommandLine.parse_keeping` — the word that keeps the settings changes nothing else about a command line.
* `Settings.ReadsBack` — the settings are read from their text as they were written to it.
* `Settings.save_missing`, `Settings.load_of_find` — the settings that a run keeps are the ones that the next run finds.
* `CommandLine.carryOut_after_keeping` — the run that uses the file does what a run with the words does.
* `settingsFile_in_the_way` — a client in a directory with the name of the settings file, and settings that are a document.
-/

/-! ### The word that keeps the settings -/

namespace CommandLine

/-- The same command line with the wish to keep the settings. -/
def Arguments.keeping (a : Arguments) : Arguments :=
  { a with keepSettings := true }

theorem Arguments.setUrl_keeping (a : Arguments) (url : Option String) :
    { a.keeping with url } = ({ a with url } : Arguments).keeping := rfl

theorem Arguments.setValue_keeping (a : Arguments) (switch : Switch) (text : String) :
    a.keeping.setValue switch text = (a.setValue switch text).keeping := by
  cases switch <;> rfl

theorem Arguments.setSwitch_keeping (a : Arguments) (switch : Switch) :
    a.keeping.setSwitch switch = (a.setSwitch switch).keeping := by
  cases switch <;> rfl

/-- No word that is read takes the wish back. -/
theorem read_keeping (placed surplus : Bool) (a : Arguments) (words : List Word) :
    Arguments.read placed surplus a.keeping words
      = (Arguments.read placed surplus a words).map Arguments.keeping := by
  fun_induction Arguments.read placed surplus a words with
  | case1 | case2 => simp [Arguments.read, Except.map, *]
  | case3 | case4 | case5 | case6 | case7 | case8 | case9 | case10 =>
    simp_all [Arguments.read, Arguments.setUrl_keeping]
  | case11 | case12 | case13 | case14 | case15 =>
    simp_all [Arguments.read, Arguments.setValue_keeping, Except.map]
  | case16 | case17 =>
    -- The equation for an option without a value depends on the words after it, which do not matter here.
    conv_lhs => unfold Arguments.read
    simp_all [Arguments.setSwitch_keeping, Except.map]

/-- The word in front of a command line keeps its settings and changes nothing else about it. -/
theorem parse_keeping {words : List String} {a : Arguments} (h : Arguments.parse words = .ok a) :
    Arguments.parse ("--init-config" :: words) = .ok a.keeping := by
  obtain ⟨read, hwords, hread⟩ := Except.bind_eq_ok.mp h
  have hword : wordOf "--init-config" = .ok (.option .keepSettings false none) :=
    Except.eq_ok_of_toOption (by decide +kernel)
  have hall : wordsOf ("--init-config" :: words) = .ok (.option .keepSettings false none :: read) := by
    rw [wordsOf, if_neg (by decide), hword, hwords]
    rfl
  have hfirst : Arguments.read false false Arguments.empty (.option .keepSettings false none :: read)
      = Arguments.read false false Arguments.empty.keeping read := by
    conv_lhs => unfold Arguments.read
    rfl
  rw [Arguments.parse, hall, Except.ok_bind, hfirst, read_keeping, hread]
  rfl

end CommandLine

/-! ### The settings file -/

open Disk (Avoids)

namespace Settings

variable {d : Disk} {s : Settings} {text plain : String}

/-- The place of the settings file. -/
def placeIn (root : List String) : List String :=
  root ++ [fileName]

theorem isNamed_placeIn (root : List String) : Disk.IsNamed root (placeIn root) where
  ne_root := by simp [placeIn]
  notMem := by
    intro name hname
    rw [placeIn, List.getLast?_concat] at hname
    cases hname
    decide

/-- A path to nothing in the working directory is the way to the place of the settings file. -/
theorem walk_fileName (h : d.find fileName = .ok .missing) :
    d.walk fileName = .ok (placeIn d.workingDirectory) ∧ d.entryAt (placeIn d.workingDirectory) = .missing := by
  obtain ⟨place, hwalk, hentry⟩ := Except.map_eq_ok.mp h
  have hplace : place = placeIn d.workingDirectory := by
    obtain ⟨plain, hwalked, hsteps⟩ := Disk.walk_eq_ok_iff.mp hwalk
    have hplain : plain = fileName := by
      have hname : Text.plain? fileName = some fileName := Text.IsAscii.plain?_eq (Text.isAscii_ofList rfl)
      rw [hwalked.plain_eq] at hname
      exact Option.some.inj hname
    have hpieces : Text.pieces '/' fileName.toList = [fileName.toList] := Text.pieces_of_notMem (by decide)
    have hlocal : fileName.startsWith "/" = false := by
      rw [← Bool.not_eq_true, Path.startsWith_slash_iff]
      decide
    subst hplain
    rw [hpieces, hlocal, if_neg Bool.false_ne_true] at hsteps
    obtain ⟨next, hstep, hdone⟩ := Except.bind_eq_ok.mp hsteps
    cases hdone
    rw [Disk.step_eq_ok hstep, Disk.follow, if_neg (by decide), if_neg (by decide), String.ofList_toList, placeIn]
  subst hplace
  exact ⟨hwalk, hentry⟩

/-- The settings are written as a text that is read as the same table, but for what is null. -/
def ReadsBack (s : Settings) : Prop :=
  ∃ text plain read, Toml.write s.toTable = .ok text ∧ Text.plain? text = some plain
    ∧ Disk.decode plain.toUTF8 = some read
    ∧ Toml.parse read = .ok (.map (s.toTable.filter fun (_, v) => !(v matches .null)))

/-- Equality of texts and truth values; no other values are equal. -/
def sameScalar : Value → Value → Bool
  | .text s, .text t => s == t
  | .bool b, .bool c => b == c
  | _, _ => false

/-- Equality of tables of texts and truth values. -/
def sameEntries : List (Value × Value) → List (Value × Value) → Bool
  | [], [] => true
  | (name, v) :: rest, (name', v') :: rest' => sameScalar name name' && sameScalar v v' && sameEntries rest rest'
  | _, _ => false

theorem eq_of_sameScalar {v w : Value} (h : sameScalar v w = true) : v = w := by
  unfold sameScalar at h
  split at h
  · rw [beq_iff_eq.mp h]
  · rw [beq_iff_eq.mp h]
  · cases h

theorem eq_of_sameEntries {entries others : List (Value × Value)} (h : sameEntries entries others = true) :
    entries = others := by
  fun_induction sameEntries entries others with
  | case1 => rfl
  | case2 name v rest name' v' rest' ih =>
    rw [Bool.and_eq_true, Bool.and_eq_true] at h
    rw [eq_of_sameScalar h.1.1, eq_of_sameScalar h.1.2, ih h.2]
  | case3 => cases h

/-- Is the result this table of texts and truth values? -/
def isTable (entries : List (Value × Value)) : Except Failure Value → Bool
  | .ok (.map found) => sameEntries found entries
  | _ => false

theorem eq_ok_of_isTable {result : Except Failure Value} {entries : List (Value × Value)}
    (h : isTable entries result = true) : result = .ok (.map entries) := by
  unfold isTable at h
  split at h
  · rw [eq_of_sameEntries h]
  · cases h

/-- Are the settings read as they were written?  Writing and reading them tells. -/
def isReadBack (s : Settings) : Bool :=
  match Toml.write s.toTable with
  | .error _ => false
  | .ok text =>
    match (Text.plain? text).bind fun plain => Disk.decode plain.toUTF8 with
    | none => false
    | some read => isTable (s.toTable.filter fun (_, v) => !(v matches .null)) (Toml.parse read)

theorem readsBack_of_isReadBack (h : s.isReadBack = true) : s.ReadsBack := by
  unfold isReadBack at h
  split at h
  · cases h
  · next text hwrite =>
    split at h
    · cases h
    · next read hread =>
      obtain ⟨plain, hplain, hdecode⟩ := Option.bind_eq_some_iff.mp hread
      exact ⟨text, plain, read, hwrite, hplain, hdecode, eq_ok_of_isTable h⟩

/-- The disk with the settings in their file. -/
def kept (d : Disk) (plain : String) : Disk :=
  (d.putFile (placeIn d.workingDirectory) "".toUTF8).putFile (placeIn d.workingDirectory) plain.toUTF8

/-- Settings are kept where no file is yet. -/
theorem save_missing (h : d.find fileName = .ok .missing) (hwrite : Toml.write s.toTable = .ok text)
    (hplain : Text.plain? text = some plain) : s.save d fileName = (.ok (), kept d plain) := by
  obtain ⟨hwalk, hentry⟩ := walk_fileName h
  have hmissing : d.entryAt (placeIn d.workingDirectory) ≠ .directory := by
    rw [hentry]
    exact DiskEntry.noConfusion
  have hempty : Text.plain? "" = some "" := Text.IsAscii.plain?_eq (Text.isAscii_ofList rfl)
  have hgrows := Disk.grows_putFile hmissing "".toUTF8
  unfold save
  rw [Disk.writeText_of_walk hwalk hmissing hempty, hwrite]
  apply Disk.writeText_of_walk (hgrows.walk_eq_ok hwalk) _ hplain
  rw [Disk.entryAt_putFile_self]
  exact DiskEntry.noConfusion

/-- The file is the only difference. -/
theorem agreesOff_kept (d : Disk) (plain : String) :
    Disk.AgreesOff d.workingDirectory (placeIn d.workingDirectory) d (kept d plain) := by
  have hempty := Disk.agreesOff_putFile d fileName "".toUTF8
  have hfull := Disk.agreesOff_putFile (d.putFile (placeIn d.workingDirectory) "".toUTF8) fileName plain.toUTF8
  exact hempty.trans hfull

theorem find_kept (h : d.find fileName = .ok .missing) (plain : String) :
    (kept d plain).find fileName = .ok (.file plain.toUTF8) := by
  obtain ⟨hwalk, hentry⟩ := walk_fileName h
  have hmissing : d.entryAt (placeIn d.workingDirectory) ≠ .directory := by
    rw [hentry]
    exact DiskEntry.noConfusion
  have hgrows : d.Grows (kept d plain) := by
    apply (Disk.grows_putFile hmissing "".toUTF8).trans
    apply Disk.grows_putFile
    rw [Disk.entryAt_putFile_self]
    exact DiskEntry.noConfusion
  rw [Disk.find, hgrows.walk_eq_ok hwalk, Except.map, kept, Disk.entryAt_putFile_self]

theorem load_missing (h : d.find fileName = .ok .missing) : load d fileName none = .ok none := by
  have hmissing : d.exists? fileName = false := by
    rw [Disk.exists?, h]
  show (if !d.exists? fileName then _ else _) = _
  rw [hmissing]
  rfl

theorem load_of_find {content : ByteArray} {read : String} {table : Value}
    (h : d.find fileName = .ok (.file content)) (hdecode : Disk.decode content = some read)
    (hparse : Toml.parse read = .ok table) : load d fileName none = (ofTable table).map some := by
  have hthere : d.exists? fileName = true := by
    rw [Disk.exists?, h]
  have hcontent : d.read fileName = .ok content := by
    rw [Disk.read, h]
    rfl
  have htext : d.readText fileName = .ok read := by
    rw [Disk.readText, hcontent, Except.ok_bind, hdecode]
    rfl
  show (if !d.exists? fileName then _ else _) = _
  rw [hthere]
  show (d.readText fileName >>= _) = _
  rw [htext, Except.ok_bind, hparse]
  rfl

/-- The settings when they have been kept: an empty namespace is not. -/
def reread (s : Settings) : Settings :=
  { s with space := s.space.orElse .null }

/-- Reading gives back everything that a client depends on. -/
theorem sameClient_reread (s : Settings) : CommandLine.SameClient s s.reread where
  url_eq := rfl
  directory_eq := rfl
  namedEnums_eq := rfl
  options_eq := by
    cases hspace : s.space.isFilled with
    | true => simp [reread, Value.orElse, hspace]
    | false =>
      have hnull : Value.null.isFilled = false := rfl
      simp [options, reread, Value.orElse, hspace, hnull]

end Settings

namespace CommandLine

open Settings (kept placeIn)

/-- The directory that a command line leads to is a text. -/
theorem exists_directory (a : Arguments) : ∃ directory, a.settings.directory = .text directory := by
  show ∃ directory, (textOrNull a.directory).orElse Settings.defaultDirectory = .text directory
  unfold Value.orElse
  split
  · next hfilled =>
    cases hdirectory : a.directory with
    | none =>
      rw [hdirectory] at hfilled
      cases hfilled
    | some directory => exact ⟨directory, rfl⟩
  · exact ⟨"out", rfl⟩

/-- The settings of a command line are found in their table. -/
theorem ofTable_settings (a : Arguments) :
    Settings.ofTable (.map (a.settings.toTable.filter fun (_, v) => !(v matches .null))) = .ok a.settings.reread := by
  obtain ⟨directory, hdirectory⟩ := exists_directory a
  have hsettings : a.settings = ⟨textOrNull a.url, .text directory, .bool a.namedEnums, textOrNull a.space⟩ := by
    rw [← hdirectory]
    rfl
  rw [hsettings]
  unfold Settings.toTable Settings.reread Value.orElse
  -- A document that is not given and a namespace that is empty are missing in the table.
  cases hspace : (textOrNull a.space).isFilled with
  | false =>
    simp only [Bool.false_eq_true, if_false]
    cases a.url with
    | none => rfl
    | some url => rfl
  | true =>
    simp only [if_true]
    cases hgiven : a.space with
    | none =>
      rw [hgiven] at hspace
      cases hspace
    | some space =>
      cases a.url with
      | none => rfl
      | some url => rfl

variable {a : Arguments} {c c' : Console} {s : Settings} {storage : Storage}

/-! ### A run that keeps its settings -/

/-- Nothing but the settings file is written. -/
theorem carryOut_keeping {words : List String} {text plain : String} (hparse : Arguments.parse words = .ok a)
    (hmissing : storage.disk.find Settings.fileName = .ok .missing)
    (hwrite : Toml.write a.settings.toTable = .ok text) (hplain : Text.plain? text = some plain)
    (input : List String) :
    (carryOut ("--init-config" :: words) storage input).result = .ok 0
      ∧ (carryOut ("--init-config" :: words) storage input).console.storage
        = { storage with disk := kept storage.disk plain } := by
  have hsave : a.keeping.settings.save storage.disk Settings.fileName = (.ok (), kept storage.disk plain) :=
    Settings.save_missing hmissing hwrite hplain
  have hends : Ends (program ("--init-config" :: words)) ⟨storage, input, "", []⟩
      (fun _ after => after.storage = { storage with disk := kept storage.disk plain }) fun _ => False := by
    unfold program
    rw [parse_keeping hparse]
    show Ends (keep a.keeping) _ _ _
    unfold keep
    refine (passes_look _).ends_bind rfl fun c₁ h₁ => ?_
    refine ends_change_bind_of_ok (by rw [h₁, hsave]) ?_
    refine (passes_sayLine _).ends rfl fun c₂ h₂ => ?_
    rw [h₂, Console.withDisk, h₁]
  rcases hends.carryOut with ⟨hok, hafter⟩ | ⟨-, hfalse⟩
  · exact ⟨hok, hafter⟩
  · exact hfalse.elim

/-! ### A run that uses them -/

theorem leave_stored {found : Option Settings}
    (hload : Settings.load c.storage.disk Settings.fileName none = .ok found) :
    ∃ after : Console, after.storage = c.storage ∧ leave stored c = (.ok found, after) := by
  obtain ⟨after, hleave, hafter⟩ := passes_look [Settings.fileName] c
  refine ⟨after, hafter, ?_⟩
  have hget : leave get after = (.ok after, after) := rfl
  unfold stored
  rw [leave_bind, hleave]
  simp only
  rw [leave_bind, hget]
  simp only
  rw [hafter, hload]
  rfl

/-- Without a settings file, a command line with a document leads to its own settings. -/
theorem leave_settle_own (hload : Settings.load c.storage.disk Settings.fileName none = .ok none)
    (hfilled : a.settings.url.isFilled = true) :
    ∃ after : Console, after.storage = c.storage ∧ leave (settle a) c = (.ok a.settings, after) := by
  obtain ⟨after, hafter, hleave⟩ := leave_stored hload
  refine ⟨after, hafter, ?_⟩
  show leave (stored >>= _) c = _
  rw [leave_bind, hleave]
  show leave (if a.settings.url.isFilled then _ else _) after = _
  rw [hfilled]
  rfl

/-- Without a settings file, a command line has to name a document. -/
theorem leave_settle_none (hload : Settings.load c.storage.disk Settings.fileName none = .ok none)
    (hfilled : a.settings.url.isFilled = false) :
    ∃ after : Console, after.storage = c.storage ∧ leave (settle a) c = (.error (.reported 1), after) := by
  obtain ⟨found, hfound, hleave⟩ := leave_stored hload
  obtain ⟨after, hsaid, hafter⟩ := passes_sayLine "❌ Ошибка: Укажите входной файл или создайте конфиг с --init-config" found
  refine ⟨after, hafter.trans hfound, ?_⟩
  show leave (stored >>= _) c = _
  rw [leave_bind, hleave]
  show leave (if a.settings.url.isFilled then _ else _) found = _
  rw [hfilled, if_neg Bool.false_ne_true, leave_bind, hsaid]
  rfl

/-- A run without any words uses the settings that it finds. -/
theorem leave_settle_found (hload : Settings.load c.storage.disk Settings.fileName none = .ok (some s)) :
    ∃ after : Console, after.storage = c.storage ∧ leave (settle Arguments.empty) c = (.ok s, after) := by
  obtain ⟨found, hfound, hleave⟩ := leave_stored hload
  obtain ⟨after, hsaid, hafter⟩ := passes_sayLine ("📋 Используется конфиг из " ++ Settings.fileName) found
  refine ⟨after, hafter.trans hfound, ?_⟩
  show leave (stored >>= _) c = _
  rw [leave_bind, hleave]
  show leave (sayLine _ >>= _) found = _
  rw [leave_bind, hsaid]
  rfl

/-- **The file instead of the words.**  From where the settings are settled, both runs do the same. -/
theorem inStep_execute {root place : List String} (hgenerate : a.keepSettings = false)
    (hload : Settings.load c.storage.disk Settings.fileName none = .ok none)
    (hload' : Settings.load c'.storage.disk Settings.fileName none = .ok (some a.settings.reread))
    (hc : c.storage.AgreesOff root place c'.storage)
    (hask : c.storage.source.AnswersAlike c'.storage.source (a.settings.locators c.storage))
    (havoids : ∀ directory, a.settings.directory = .text directory →
      ∀ path ∈ Path.ofClient directory, Avoids root path place)
    (hplace : Disk.IsNamed root place) : InStep root place (execute a) c (execute Arguments.empty) c' := by
  obtain ⟨after', hafter', hleave'⟩ := leave_settle_found hload'
  have hurl : a.settings.reread.url = a.settings.url := rfl
  have hdirectory : a.settings.reread.directory = a.settings.directory := rfl
  unfold execute
  rw [hgenerate, if_neg Bool.false_ne_true, if_neg (by decide)]
  unfold InStep
  cases hfilled : a.settings.url.isFilled with
  | false =>
    -- Both runs say that there is no document, each at its own place and in its own words.
    obtain ⟨after, hafter, hleave⟩ := leave_settle_none hload hfilled
    rw [leave_bind, leave_bind, hleave, hleave']
    simp only [hurl, hfilled]
    rw [← hafter, ← hafter'] at hc
    exact ⟨.error _ _, hc⟩
  | true =>
    obtain ⟨after, hafter, hleave⟩ := leave_settle_own hload hfilled
    rw [leave_bind, leave_bind, hleave, hleave']
    simp only [hurl, hdirectory, hfilled]
    show InStep root place (sayValue _ _ >>= _) after (sayValue _ _ >>= _) after'
    refine inStep_sayValue_bind hc hafter hafter' fun c₁ c₁' h₁ h₁' => ?_
    rw [← h₁, ← h₁'] at hc
    rw [← h₁, ← h₁'] at hask
    exact inStep_produce a.settings.sameClient_reread hc hask havoids hplace

/-- From where the settings are settled, generating and saving decide how the run ends. -/
theorem ends_execute_of {settled : Console} {directory : String} {done failed : Prop}
    (hgenerate : a.keepSettings = false) (hsettle : leave (settle a) c = (.ok s, settled))
    (hsettled : settled.storage = c.storage) (hurl : s.url.isFilled = true) (hdirectory : s.directory = .text directory)
    (hwork : ∀ after : Console, after.storage = c.storage →
      Ends (do save (← create s) s.directory) after (fun _ _ => done) fun _ => failed) :
    Ends (execute a) c (fun _ _ => done) fun _ => failed := by
  have hends : Ends (settle a) c (fun found after => found = s ∧ after = settled) fun _ => failed := by
    unfold Ends
    rw [hsettle]
    exact ⟨rfl, rfl⟩
  unfold execute
  rw [hgenerate, if_neg Bool.false_ne_true]
  refine hends.bind ?_
  rintro _ _ ⟨rfl, rfl⟩
  simp only [hurl, hdirectory, Bool.not_true, Bool.false_eq_true, if_false]
  show Ends (sayValue _ _ >>= _) _ _ _
  refine (passes_sayValue_text _ directory).ends_bind hsettled fun c₁ h₁ => ?_
  exact ends_produce_of (hwork c₁ h₁) fun _ _ _ => id

/-- A run that does not keep settings ends with an error that can be told from its end. -/
theorem ends_program {words : List String} (hparse : Arguments.parse words = .ok a)
    (hgenerate : a.keepSettings = false) (c : Console) :
    Ends (program words) c (fun _ _ => True) fun _ => True := by
  unfold program
  rw [hparse]
  exact (ends_execute hgenerate c).mono (fun _ _ _ => trivial) fun _ _ => trivial

/-- A whole run is over without an error exactly when its program is. -/
theorem result_eq_zero_iff {words input : List String}
    (h : Ends (program words) ⟨storage, input, "", []⟩ (fun _ _ => True) fun _ => True) :
    (carryOut words storage input).result = .ok 0
      ↔ (leave (program words) ⟨storage, input, "", []⟩).1 = .ok () := by
  unfold Ends at h
  rw [carryOut_eq]
  generalize leave (program words) ⟨storage, input, "", []⟩ = result at h ⊢
  rcases result with ⟨(code | e) | _, after⟩
  · obtain ⟨rfl | rfl, -⟩ := h
    · simp
    · simp
  · simp
  · simp

/-- A whole run is over without an error if its program is. -/
theorem result_of_ends {words : List String} (h : ∀ c : Console, c.storage = storage →
    Ends (program words) c (fun _ _ => True) fun _ => False) (input : List String) :
    (carryOut words storage input).result = .ok 0 := by
  rcases (h ⟨storage, input, "", []⟩ rfl).carryOut with ⟨hok, -⟩ | ⟨-, hfalse⟩
  · exact hok
  · exact hfalse.elim

/-- A whole run ends with an error if its program does. -/
theorem isError_of_ends {words : List String} (h : ∀ c : Console, c.storage = storage →
    Ends (program words) c (fun _ _ => False) fun _ => True) (input : List String) :
    (carryOut words storage input).IsError := by
  rcases (h ⟨storage, input, "", []⟩ rfl).carryOut with ⟨-, hfalse⟩ | ⟨herror, -⟩
  · exact hfalse.elim
  · exact herror

theorem console_carryOut (words input : List String) (storage : Storage) :
    (carryOut words storage input).console = (leave (program words) ⟨storage, input, "", []⟩).2 := by
  rw [carryOut_eq]
  rcases leave (program words) ⟨storage, input, "", []⟩ with ⟨(code | e) | _, after⟩
  · rfl
  · rfl
  · rfl

/-- The settings that a run keeps are the ones that the next run finds. -/
theorem exists_kept {words : List String} (hparse : Arguments.parse words = .ok a)
    (hmissing : storage.disk.find Settings.fileName = .ok .missing) (hreads : a.settings.ReadsBack)
    (input : List String) :
    ∃ text plain, Toml.write a.settings.toTable = .ok text ∧ Text.plain? text = some plain
      ∧ (carryOut ("--init-config" :: words) storage input).console.storage
        = { storage with disk := kept storage.disk plain }
      ∧ Settings.load (kept storage.disk plain) Settings.fileName none = .ok (some a.settings.reread) := by
  obtain ⟨text, plain, read, hwrite, hplain, hdecode, hread⟩ := hreads
  refine ⟨text, plain, hwrite, hplain, (carryOut_keeping hparse hmissing hwrite hplain input).2, ?_⟩
  rw [Settings.load_of_find (Settings.find_kept hmissing plain) hdecode hread, ofTable_settings]
  rfl

end CommandLine

open CommandLine Output Settings

/-! ### A client in a new directory -/

/-- The command line for a document with one schema, and for a directory. -/
def idArguments (directory : String) : Arguments :=
  { Arguments.empty with url := some "m.json", directory := some directory }

theorem find_blocked : blocked.disk.find fileName = .ok .missing := by
  show blocked.disk.find "openapi.toml" = _
  rw [Disk.find, blocked, (walks_blocked _).1, Except.map, (entries_blocked _).1]

/-- The client is saved in the directory or not, and this is how the run ends. -/
theorem ends_id {c : Console} {directory : String} {done failed : Prop} (hc : c.storage = blocked)
    (hparse : Arguments.parse ["m.json", "-o", directory] = .ok (idArguments directory))
    (hsettings : (idArguments directory).settings = ⟨.text "m.json", .text directory, .bool false, .null⟩)
    (hsave : ∀ after : Console, after.storage = blocked →
      Ends (save ⟨[idTypes, noMethods ⟨false, none⟩]⟩ (.text directory)) after (fun _ _ => done) fun _ => failed) :
    Ends (program ["m.json", "-o", directory]) c (fun _ _ => done) fun _ => failed := by
  have hfilled : (idArguments directory).settings.url.isFilled = true := by
    rw [hsettings]
    rfl
  have hload : load c.storage.disk fileName none = .ok none := by
    rw [hc]
    exact load_missing find_blocked
  obtain ⟨settled, hsettled, hsettle⟩ := leave_settle_own hload hfilled
  have hdirectory : (idArguments directory).settings.directory = .text directory := by rw [hsettings]
  have hgenerate : (idArguments directory).keepSettings = false := rfl
  unfold program
  rw [hparse]
  show Ends (execute (idArguments directory)) _ _ _
  apply ends_execute_of hgenerate hsettle hsettled hfilled hdirectory
  intro c₁ h₁
  have hclient := clientOf_blocked (.text directory)
  rw [← hc, ← h₁] at hclient
  rw [hsettings]
  refine (ends_create_of hclient).bind_sure ?_
  rintro _ c₂ ⟨rfl, h₂⟩
  exact hsave c₂ (h₂.trans (h₁.trans hc))

/-- Nothing is in the way of a client in a new directory of the working directory. -/
structure IsFree (d : Disk) (directory : String) : Prop where
  notMem : '/' ∉ directory.toList
  walk_eq : d.walk directory = .ok ["w", directory]
  missing : d.entryAt ["w", directory] = .missing
  walk_types : (d.putDirectory ["w", directory]).walk (Path.join directory "types.ts")
    = .ok ["w", directory, "types.ts"]
  walk_methods : (d.putDirectory ["w", directory]).walk (Path.join directory "api.ts")
    = .ok ["w", directory, "api.ts"]
  types_missing : (d.putDirectory ["w", directory]).entryAt ["w", directory, "types.ts"] = .missing
  methods_missing : (d.putDirectory ["w", directory]).entryAt ["w", directory, "api.ts"] = .missing

theorem IsFree.ends_save {c : Console} {directory : String} {types : CodeFile} {options : Options}
    (h : IsFree c.storage.disk directory) (hname : types.name = "types.ts") (htypes : Text.IsAscii types.text)
    (hspace : ∀ space, options.space = some space → Text.IsAscii space) :
    Ends (save ⟨[types, noMethods options]⟩ (.text directory)) c (fun _ _ => True) fun _ => False := by
  have htexts : Project.texts ⟨[types, noMethods options]⟩
      = [("types.ts", types.text), ("api.ts", (noMethods options).text)] := by
    rw [← hname]
    rfl
  have hmethods := (isAscii_noMethods hspace).plain?_eq
  have hmake := Disk.makeDirectories_missing h.notMem h.walk_eq h.missing
  apply ends_save_of htexts hmake h.walk_types _ htypes.plain?_eq h.walk_methods _ hmethods
  · rw [h.types_missing]
    exact DiskEntry.noConfusion
  · rw [Disk.entryAt_putFile (by simp), h.methods_missing]
    simp [Disk.holding]

theorem result_id {directory : String}
    (hparse : Arguments.parse ["m.json", "-o", directory] = .ok (idArguments directory))
    (hsettings : (idArguments directory).settings = ⟨.text "m.json", .text directory, .bool false, .null⟩)
    (h : ∀ content, IsFree (blockedDisk content) directory) :
    (carryOut ["m.json", "-o", directory] blocked []).result = .ok 0 := by
  have htypes : Text.IsAscii idTypes.text := by
    rw [text_idTypes]
    exact Text.isAscii_ofList rfl
  refine result_of_ends (fun c hc => ends_id hc hparse hsettings fun after hafter => ?_) []
  have hfree : IsFree after.storage.disk directory := by
    rw [hafter]
    exact h _
  exact hfree.ends_save rfl htypes fun _ hspace => by cases hspace

/-- The paths of a client in this directory are plain. -/
def HasPlainPaths (directory : String) : Prop :=
  Disk.isPlainPath directory = true ∧ Disk.isPlainPath (Path.join directory "types.ts") = true
    ∧ Disk.isPlainPath (Path.join directory "api.ts") = true

instance (directory : String) : Decidable (HasPlainPaths directory) :=
  inferInstanceAs (Decidable (_ ∧ _ ∧ _))

/-- What evaluation gives for a client in a directory beside the settings file. -/
theorem evaluated_gen : (Arguments.parse ["m.json", "-o", "gen"]).toOption = some (idArguments "gen")
    ∧ (idArguments "gen").settings.isReadBack = true ∧ HasPlainPaths "gen"
    ∧ ∀ path ∈ Path.ofClient "gen", Avoids ["w"] path ["w", "openapi.toml"] := by
  decide +kernel

theorem parse_gen : Arguments.parse ["m.json", "-o", "gen"] = .ok (idArguments "gen") :=
  Except.eq_ok_of_toOption evaluated_gen.1

theorem plain_gen : HasPlainPaths "gen" :=
  evaluated_gen.2.2.1

theorem isFree_gen (content : ByteArray) : IsFree (blockedDisk content) "gen" where
  notMem := by decide
  walk_eq := Disk.walk_of_isPlainPath plain_gen.1 (by cbv)
  missing := by cbv
  walk_types := Disk.walk_of_isPlainPath plain_gen.2.1 (by cbv)
  walk_methods := Disk.walk_of_isPlainPath plain_gen.2.2 (by cbv)
  types_missing := by cbv
  methods_missing := by cbv

/-- What evaluation gives for a client in a directory with the name of the settings file. -/
theorem evaluated_toml :
    (Arguments.parse ["m.json", "-o", "openapi.toml"]).toOption = some (idArguments "openapi.toml")
      ∧ (idArguments "openapi.toml").settings.isReadBack = true ∧ HasPlainPaths "openapi.toml" := by
  decide +kernel

theorem parse_toml : Arguments.parse ["m.json", "-o", "openapi.toml"] = .ok (idArguments "openapi.toml") :=
  Except.eq_ok_of_toOption evaluated_toml.1

theorem readsBack_toml : (idArguments "openapi.toml").settings.ReadsBack :=
  readsBack_of_isReadBack evaluated_toml.2.1

theorem plain_toml : HasPlainPaths "openapi.toml" :=
  evaluated_toml.2.2

theorem isFree_toml (content : ByteArray) : IsFree (blockedDisk content) "openapi.toml" where
  notMem := by decide
  walk_eq := (walks_blocked content).1
  missing := (entries_blocked content).1
  walk_types := Disk.walk_of_isPlainPath plain_toml.2.1 (by cbv)
  walk_methods := Disk.walk_of_isPlainPath plain_toml.2.2 (by cbv)
  types_missing := by cbv
  methods_missing := by cbv

/-- No client is saved where a file is. -/
theorem ends_save_file {c : Console} {project : Project} {directory : String} {content : ByteArray}
    (hname : '/' ∉ directory.toList) (hfile : c.storage.disk.find directory = .ok (.file content)) :
    Ends (save project (.text directory)) c (fun _ _ => False) fun _ => True := by
  obtain ⟨place, hwalk, hentry⟩ := Except.map_eq_ok.mp hfile
  have hmake := Disk.makeDirectories_file hname hwalk hentry
  unfold CommandLine.save
  refine (passes_sayLine _).ends_bind rfl fun c₁ h₁ => ends_check_ok_bind ?_
  refine (passes_look _).ends_bind h₁ fun c₂ h₂ => ?_
  rw [← h₂] at hmake
  exact ends_change_bind_of_error (by rw [hmake]) trivial

/-- A run that uses kept settings with the name of their file as a directory ends with an error. -/
theorem ends_toml {c : Console} {s : Settings} {content : ByteArray}
    (hload : load c.storage.disk fileName none = .ok (some s))
    (hfile : c.storage.disk.find "openapi.toml" = .ok (.file content)) (hurl : s.url.isFilled = true)
    (hdirectory : s.directory = .text "openapi.toml") :
    Ends (program []) c (fun _ _ => False) fun _ => True := by
  obtain ⟨settled, hsettled, hsettle⟩ := leave_settle_found hload
  have hgenerate : Arguments.empty.keepSettings = false := rfl
  show Ends (execute Arguments.empty) _ _ _
  apply ends_execute_of hgenerate hsettle hsettled hurl hdirectory
  intro c₁ h₁
  refine ((ends_create s c₁).mono (fun _ _ => id) fun _ _ => trivial).bind fun project c₂ h₂ => ?_
  rw [hdirectory]
  apply ends_save_file (by decide)
  rw [h₂.1, h₁]
  exact hfile

theorem isError_toml :
    (carryOut [] (carryOut ["--init-config", "m.json", "-o", "openapi.toml"] blocked []).console.storage []).IsError := by
  obtain ⟨text, plain, -, -, hkept, hload⟩ := exists_kept parse_toml find_blocked readsBack_toml []
  rw [hkept]
  refine isError_of_ends (fun c hc => ?_) []
  have hstored : load c.storage.disk fileName none = .ok (some (idArguments "openapi.toml").settings.reread) := by
    rw [hc]
    exact hload
  have hfile : c.storage.disk.find "openapi.toml" = .ok (.file plain.toUTF8) := by
    rw [hc]
    exact find_kept find_blocked plain
  exact ends_toml hstored hfile rfl rfl

/-! ### Settings that are a document -/

/-- A directory with a name that begins a text in single quotes when the settings are read as YAML. -/
def nestedDisk : Disk :=
  ⟨[(["w", "a: 'b", "x"], ByteArray.empty)], [], ["w"]⟩

def nested : Storage :=
  ⟨nestedDisk, []⟩

def nestedWords : List String :=
  ["a: 'b/../openapi.toml", "-o", "gen", "--namespace", "N' #"]

def nestedArguments : Arguments :=
  { Arguments.empty with url := some "a: 'b/../openapi.toml", directory := some "gen", space := some "N' #" }

def nestedSettings : Settings :=
  ⟨.text "a: 'b/../openapi.toml", .text "gen", .bool false, .text "N' #"⟩

theorem settings_nested : nestedArguments.settings = nestedSettings ∧ nestedArguments.settings.reread = nestedSettings :=
  ⟨rfl, rfl⟩

def nestedText : String :=
  "url = \"a: 'b/../openapi.toml\"\ndirname = \"gen\"\nnamed_enums = false\nnamespace = \"N' #\"\n"

/-- The storage after the settings have been kept. -/
def nestedAfter : Storage :=
  ⟨kept nestedDisk nestedText, []⟩

/-- The settings as a document: everything after the first quote up to the next one is one text. -/
def nestedEntries : List (Value × Value) :=
  [(.text "url = \"a", .text "b/../openapi.toml\" dirname = \"gen\" named_enums = false namespace = \"N")]

def nestedDocument : Value := .map nestedEntries

/-- What evaluation gives for the two runs: the command line, the settings, and the documents before and after they have
    been kept. -/
theorem evaluated_nested : (Arguments.parse nestedWords).toOption = some nestedArguments
    ∧ (Toml.write nestedSettings.toTable).toOption = some nestedText ∧ nestedSettings.isReadBack = true
    ∧ (nested.readDocument "a: 'b/../openapi.toml").toOption.isSome = false
    ∧ isTable nestedEntries (nestedAfter.readDocument "a: 'b/../openapi.toml") = true
    ∧ (Locator.base nestedAfter.disk.workingPath "a: 'b/../openapi.toml").toOption = some "/w"
    ∧ (Locator.entry "a: 'b/../openapi.toml").toOption = some "openapi.toml" := by
  decide +kernel

theorem parse_nested : Arguments.parse nestedWords = .ok nestedArguments :=
  Except.eq_ok_of_toOption evaluated_nested.1

theorem write_nested : Toml.write nestedSettings.toTable = .ok nestedText :=
  Except.eq_ok_of_toOption evaluated_nested.2.1

theorem plain?_nested : Text.plain? nestedText = some nestedText :=
  Text.IsAscii.plain?_eq (Text.isAscii_ofList rfl)

theorem readsBack_nested : nestedArguments.settings.ReadsBack :=
  readsBack_of_isReadBack evaluated_nested.2.2.1

theorem walk_nested : nestedDisk.walk "openapi.toml" = .ok ["w", "openapi.toml"] :=
  Disk.walk_of_isPlainPath plain_toml.1 (by cbv)

theorem find_nested : nested.disk.find fileName = .ok .missing := by
  have hentry : nestedDisk.entryAt ["w", "openapi.toml"] = .missing := by cbv
  show nestedDisk.find "openapi.toml" = _
  rw [Disk.find, walk_nested, Except.map, hentry]

/-- Before they have been kept there is no document. -/
theorem clientOf_nested_error (project : Project) : clientOf nestedSettings nested ≠ .ok project := by
  have hnothing := evaluated_nested.2.2.2.1
  intro h
  obtain ⟨locator, hlocator, hlocated⟩ := Except.bind_eq_ok.mp h
  obtain ⟨job, hjob, -⟩ := Except.bind_eq_ok.mp hlocated
  obtain ⟨document, hdocument, -⟩ := Except.bind_eq_ok.mp hjob
  cases hlocator
  rw [hdocument] at hnothing
  cases hnothing

theorem start_nestedAfter : Job.start nestedAfter "a: 'b/../openapi.toml"
    = .ok ⟨nestedAfter.source, nestedDocument, Resolver.fresh "/w" "openapi.toml"⟩ := by
  have hdocument : nestedAfter.readDocument "a: 'b/../openapi.toml" = .ok nestedDocument :=
    eq_ok_of_isTable evaluated_nested.2.2.2.2.1
  have hbase : Locator.base nestedAfter.disk.workingPath "a: 'b/../openapi.toml" = .ok "/w" :=
    Except.eq_ok_of_toOption evaluated_nested.2.2.2.2.2.1
  have hentry : Locator.entry "a: 'b/../openapi.toml" = .ok "openapi.toml" :=
    Except.eq_ok_of_toOption evaluated_nested.2.2.2.2.2.2
  have hstart : Resolver.start "/w" "openapi.toml" = .ok (Resolver.fresh "/w" "openapi.toml") := by cbv
  rw [Job.start, hdocument, Except.ok_bind, hbase, Except.ok_bind, hentry, Except.ok_bind, hstart]
  rfl

def nestedRead : Resolver where
  entry := "openapi.toml"
  base := "/w"
  registry := []
  pending := []
  queue := []
  loaded := [""]
  asked := []

theorem describe_nested :
    Job.describe ⟨nestedAfter.source, nestedDocument, Resolver.fresh "/w" "openapi.toml"⟩ false
      = (.ok ⟨[], [], []⟩, nestedRead) := by
  show Bundle.describe ⟨nestedAfter.source, "/w", "openapi.toml", nestedDocument⟩ false = _
  exact Bundle.describe_eq_ok.mpr ⟨[], nestedRead, nestedRead, ⟨_, rfl, rfl⟩,
    Bundle.resolve_eq_ok.mpr ⟨Resolver.loadAll_nil rfl, rfl⟩, rfl, rfl, rfl⟩

def nestedTypes : CodeFile := (CodeFile.empty "types.ts").addCode []

theorem clientOf_nested : clientOf nestedSettings nestedAfter
    = .ok ⟨[nestedTypes, noMethods ⟨false, some "N' #"⟩]⟩ := by
  have htypes : typesFile ⟨false, some "N' #"⟩ ⟨[], [], []⟩ = .ok nestedTypes := by
    have hsorted : sortedDeclarations [] = [] := List.mergeSort_nil
    simp only [typesFile, hsorted]
    rfl
  have hlocator : pathOf nestedSettings.url .notApplicable = .ok "a: 'b/../openapi.toml" := rfl
  have hoptions : nestedSettings.options = .ok ⟨false, some "N' #"⟩ := by cbv
  have hnamed : Options.namedEnums ⟨false, some "N' #"⟩ = false := rfl
  rw [clientOf, hlocator, Except.ok_bind, start_nestedAfter, Except.ok_bind, hoptions, Except.ok_bind, Job.generate,
    hnamed, describe_nested, Except.ok_bind]
  exact generate_of_files htypes (methodsFile_nil _ _)

theorem isFree_nested (first second : ByteArray) :
    IsFree ((nestedDisk.putFile ["w", "openapi.toml"] first).putFile ["w", "openapi.toml"] second) "gen" where
  notMem := by decide
  walk_eq := Disk.walk_of_isPlainPath plain_gen.1 (by cbv)
  missing := by cbv
  walk_types := Disk.walk_of_isPlainPath plain_gen.2.1 (by cbv)
  walk_methods := Disk.walk_of_isPlainPath plain_gen.2.2 (by cbv)
  types_missing := by cbv
  methods_missing := by cbv

/-- The settings file is a document that leads to a client without any types. -/
theorem ends_nestedAfter {c : Console} (hc : c.storage = nestedAfter)
    (hload : load nestedAfter.disk fileName none = .ok (some nestedSettings)) :
    Ends (program []) c (fun _ _ => True) fun _ => False := by
  have hstored : load c.storage.disk fileName none = .ok (some nestedSettings) := by rw [hc, hload]
  obtain ⟨settled, hsettled, hsettle⟩ := leave_settle_found hstored
  have hgenerate : Arguments.empty.keepSettings = false := rfl
  have hurl : nestedSettings.url.isFilled = true := rfl
  have hdirectory : nestedSettings.directory = .text "gen" := rfl
  have htypes : Text.IsAscii nestedTypes.text := isAscii_addCode (fun _ h => absurd h List.not_mem_nil) _
  have hspace : ∀ space, (Options.mk false (some "N' #")).space = some space → Text.IsAscii space := by
    rintro _ ⟨⟩
    exact Text.isAscii_ofList rfl
  show Ends (execute Arguments.empty) _ _ _
  apply ends_execute_of hgenerate hsettle hsettled hurl hdirectory
  intro c₁ h₁
  have hclient := clientOf_nested
  rw [← hc, ← h₁] at hclient
  refine (ends_create_of hclient).bind_sure ?_
  rintro _ c₂ ⟨rfl, h₂⟩
  have hfree : IsFree c₂.storage.disk "gen" := by
    rw [h₂, h₁, hc]
    exact isFree_nested _ _
  rw [hdirectory]
  exact hfree.ends_save rfl htypes hspace

/-- Without the settings file there is no document. -/
theorem ends_nested {c : Console} (hc : c.storage = nested) :
    Ends (program nestedWords) c (fun _ _ => False) fun _ => True := by
  have hload : load c.storage.disk fileName none = .ok none := by
    rw [hc]
    exact load_missing find_nested
  have hgenerate : nestedArguments.keepSettings = false := rfl
  have hurl : nestedArguments.settings.url.isFilled = true := rfl
  have hdirectory : nestedArguments.settings.directory = .text "gen" := rfl
  obtain ⟨settled, hsettled, hsettle⟩ := leave_settle_own hload hurl
  unfold program
  rw [parse_nested]
  show Ends (execute nestedArguments) _ _ _
  apply ends_execute_of hgenerate hsettle hsettled hurl hdirectory
  intro c₁ h₁
  refine ((ends_create _ c₁).mono (fun _ _ => id) fun _ _ => trivial).bind fun project c₂ h₂ => ?_
  rw [h₁, hc, settings_nested.1] at h₂
  exact absurd h₂.2 (clientOf_nested_error project)

theorem result_nested :
    (carryOut [] (carryOut ("--init-config" :: nestedWords) nested []).console.storage []).result = .ok 0 := by
  obtain ⟨text, plain, hwrite, hplain, hkept, hload⟩ := exists_kept parse_nested find_nested readsBack_nested []
  rw [settings_nested.1, write_nested] at hwrite
  cases hwrite
  cases plain?_nested.symm.trans hplain
  rw [hkept]
  rw [settings_nested.2] at hload
  exact result_of_ends (fun c hc => ends_nestedAfter hc hload) []

end TypedClient
