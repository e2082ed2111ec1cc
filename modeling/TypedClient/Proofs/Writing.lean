import Mathlib
import TypedClient.Disk
import TypedClient.Proofs.Paths
import TypedClient.Proofs.Results
import TypedClient.Proofs.Tables

namespace TypedClient

/-!
# Disks that are written to

A file is opened before its text is known to be writable: opening it leaves it empty, and a text that cannot be
written leaves it so.  This file says what is on a disk when files have been written to it and directories have
been made.

* `Disk.walk_eq_ok_iff` — a path leads where its segments lead.
* `Disk.Grows` — no directory has been lost, so a path leads where it led before.
* `Disk.writeText_cases` — what writing a text to a file can do.
* `Disk.makeDirectories_eq_ok` — making directories changes no file.
* `Disk.getLast?_walk_join` — a path to a file in a directory leads to a place with the name of the file.
* `Disk.Wrote`, `Disk.BrokeOff` — files that were written one after the other, to the end or up to an error.
-/

namespace Disk

variable {before made after d : Disk} {place : List String} {content : ByteArray} {path : String}

/-! ### What stands at a place -/

theorem entryAt_eq_file_iff : d.entryAt place = .file content ↔ d.files.get? place = some content := by
  unfold entryAt
  split
  · next found h => rw [h, DiskEntry.file.injEq, Option.some_inj]
  · next h =>
    rw [h]
    split <;> simp

theorem entryAt_eq_directory_iff :
    d.entryAt place = .directory ↔ d.files.get? place = none ∧ d.isDirectoryAt place = true := by
  unfold entryAt
  split
  · next h => simp [h]
  · next h =>
    rw [h]
    split <;> simp_all

theorem isDirectoryAt_iff : d.isDirectoryAt place = true ↔ place <+: d.workingDirectory
    ∨ (∃ other ∈ d.directories, place <+: other) ∨ ∃ file ∈ d.files.keys, place <+: file ∧ place ≠ file := by
  simp [isDirectoryAt, Table.keys, or_assoc]

/-! ### Where paths lead -/

/-- A path is given by its characters, if these are whole and neither too few nor too many. -/
structure IsWalked (path plain : String) : Prop where
  plain_eq : Text.plain? path = some plain
  nul_notMem : '\x00' ∉ plain.toList
  length_le : extent plain.toList ≤ maxPath
  ne_empty : plain ≠ ""

/-- A path leads somewhere if and only if its segments do, one after the other. -/
theorem walk_eq_ok_iff : d.walk path = .ok place ↔ ∃ plain, IsWalked path plain
    ∧ (Text.pieces '/' plain.toList).foldlM d.step (if plain.startsWith "/" then [] else d.workingDirectory)
      = .ok place := by
  unfold walk
  -- What leads somewhere has passed every check on the way.
  constructor
  · intro hwalk
    split at hwalk
    · cases hwalk
    · next plain hplain =>
      split at hwalk
      · cases hwalk
      · split at hwalk
        · cases hwalk
        · split at hwalk
          · cases hwalk
          · next hnul hlength hempty =>
            rw [List.contains_iff_mem] at hnul
            exact ⟨plain, ⟨hplain, hnul, Nat.le_of_not_lt hlength, hempty⟩, hwalk⟩
  · rintro ⟨plain, hwalked, hsteps⟩
    have hnul : ¬ plain.toList.contains '\x00' = true := by
      rw [List.contains_iff_mem]
      exact hwalked.nul_notMem
    rw [hwalked.plain_eq]
    simp only [if_neg hnul, if_neg (Nat.not_lt.mpr hwalked.length_le), if_neg hwalked.ne_empty]
    exact hsteps

/-- A path from the working directory that is not too long and in which all characters stand for themselves. -/
def isPlainPath (path : String) : Bool :=
  Text.plain? path == some path && !path.toList.contains '\x00' && decide (extent path.toList ≤ maxPath)
    && path != "" && !path.startsWith "/"

/-- Such a path leads where its segments lead. -/
theorem walk_of_isPlainPath (h : isPlainPath path = true)
    (hsteps : (Text.pieces '/' path.toList).foldlM d.step d.workingDirectory = .ok place) :
    d.walk path = .ok place := by
  simp only [isPlainPath, Bool.and_eq_true, beq_iff_eq, Bool.not_eq_true', decide_eq_true_eq, bne_iff_ne] at h
  obtain ⟨⟨⟨⟨hplain, hnul⟩, hlength⟩, hne⟩, hlocal⟩ := h
  rw [← Bool.not_eq_true, List.contains_iff_mem] at hnul
  refine walk_eq_ok_iff.mpr ⟨path, ⟨hplain, hnul, hlength, hne⟩, ?_⟩
  rw [hlocal, if_neg Bool.false_ne_true]
  exact hsteps

/-! ### Directories that stay -/

/-- No directory has been lost. -/
structure Grows (before after : Disk) : Prop where
  workingDirectory_eq : after.workingDirectory = before.workingDirectory
  directories : ∀ place, before.entryAt place = .directory → after.entryAt place = .directory

theorem Grows.refl (d : Disk) : d.Grows d :=
  ⟨rfl, fun _ => id⟩

theorem Grows.trans (h : before.Grows made) (hafter : made.Grows after) : before.Grows after :=
  ⟨hafter.workingDirectory_eq.trans h.workingDirectory_eq, fun place hplace =>
    hafter.directories place (h.directories place hplace)⟩

/-- A step from a directory leads where it led before. -/
theorem Grows.step_eq_ok (h : before.Grows after) {segment : List Char} {next : List String}
    (hstep : before.step place segment = .ok next) : after.step place segment = .ok next := by
  unfold step at hstep ⊢
  split at hstep
  · cases hstep
  · cases hstep
  · next hdirectory =>
    rw [h.directories place hdirectory]
    exact hstep

theorem Grows.foldlM_step_eq_ok (h : before.Grows after) {segments : List (List Char)} {next : List String}
    (hsteps : segments.foldlM before.step place = .ok next) : segments.foldlM after.step place = .ok next := by
  induction segments generalizing place with
  | nil => exact hsteps
  | cons segment rest ih =>
    rw [List.foldlM_cons] at hsteps ⊢
    obtain ⟨middle, hstep, hrest⟩ := Except.bind_eq_ok.mp hsteps
    rw [h.step_eq_ok hstep, Except.ok_bind]
    exact ih hrest

/-- **Paths lead where they led before.** -/
theorem Grows.walk_eq_ok (h : before.Grows after) (hwalk : before.walk path = .ok place) :
    after.walk path = .ok place := by
  obtain ⟨plain, hwalked, hsteps⟩ := walk_eq_ok_iff.mp hwalk
  refine walk_eq_ok_iff.mpr ⟨plain, hwalked, ?_⟩
  rw [h.workingDirectory_eq]
  exact h.foldlM_step_eq_ok hsteps

/-! ### Files that are put -/

/-- The disk with a file at a place. -/
def putFile (d : Disk) (place : List String) (content : ByteArray) : Disk :=
  { d with files := d.files.put place content }

theorem get?_putFile (d : Disk) (place other : List String) (content : ByteArray) :
    (d.putFile place content).files.get? other
      = if other = place then some content else d.files.get? other := by
  show (d.files.put place content).get? other = _
  rw [Table.get?_put]
  by_cases h : other = place
  · rw [if_pos h, if_pos (beq_iff_eq.mpr h)]
  · rw [if_neg h, if_neg (by simpa using h)]

/-- A file that is put where no directory is takes no directory away. -/
theorem grows_putFile (h : d.entryAt place ≠ .directory) (content : ByteArray) :
    d.Grows (d.putFile place content) where
  workingDirectory_eq := rfl
  directories other hother := by
    obtain ⟨hnone, hdirectory⟩ := entryAt_eq_directory_iff.mp hother
    have hne : other ≠ place := by
      rintro rfl
      exact h hother
    refine entryAt_eq_directory_iff.mpr ⟨by rw [get?_putFile, if_neg hne, hnone], ?_⟩
    -- A directory that is there because of a file inside still has this file.
    refine isDirectoryAt_iff.mpr ((isDirectoryAt_iff.mp hdirectory).imp_right (Or.imp_right ?_))
    rintro ⟨file, hfile, hinside⟩
    exact ⟨file, Table.mem_keys_put.mpr (.inr hfile), hinside⟩

theorem write_eq_ok : d.write path content = .ok after
    ↔ ∃ place, d.walk path = .ok place ∧ d.entryAt place ≠ .directory ∧ after = d.putFile place content := by
  unfold write
  cases hwalk : d.walk path with
  | error e =>
    simp only [reduceCtorEq, false_and, exists_false, iff_false]
    split_ifs <;> exact not_false
  | ok place =>
    simp only [Except.ok.injEq, exists_eq_left']
    cases hentry : d.entryAt place with
    | directory => simp
    | _ => simp [putFile, eq_comm]

/-- **What writing a text can do.**  Nothing, if the path leads to no file.  Else the file has the text, or it is
    empty if the text has half a character. -/
theorem writeText_cases (d : Disk) (path text : String) :
    (∃ e, d.writeText path text = (.error e, d))
      ∨ ∃ place, d.walk path = .ok place ∧ d.entryAt place ≠ .directory
        ∧ ((Text.plain? text = none ∧ ∃ e, d.writeText path text = (.error e, d.putFile place ByteArray.empty))
          ∨ ∃ plain, Text.plain? text = some plain
            ∧ d.writeText path text = (.ok (), d.putFile place plain.toUTF8)) := by
  unfold writeText
  cases hwrite : d.write path ByteArray.empty with
  | error e => exact .inl ⟨e, rfl⟩
  | ok emptied =>
    obtain ⟨place, hwalk, hentry, rfl⟩ := write_eq_ok.mp hwrite
    refine .inr ⟨place, hwalk, hentry, ?_⟩
    cases hplain : Text.plain? text with
    | none => exact .inl ⟨rfl, _, rfl⟩
    | some plain =>
      have hcontent : d.write path plain.toUTF8 = .ok (d.putFile place plain.toUTF8) :=
        write_eq_ok.mpr ⟨place, hwalk, hentry, rfl⟩
      exact .inr ⟨plain, rfl, by simp only [hcontent]⟩

/-- A text that has been written is in the file that the path leads to. -/
theorem writeText_eq_ok {text : String} (h : d.writeText path text = (.ok (), after)) :
    ∃ place plain, d.walk path = .ok place ∧ d.entryAt place ≠ .directory ∧ Text.plain? text = some plain
      ∧ after = d.putFile place plain.toUTF8 := by
  rcases d.writeText_cases path text with
    ⟨e, hcase⟩ | ⟨place, hwalk, hentry, ⟨-, e, hcase⟩ | ⟨plain, hplain, hcase⟩⟩
  · cases h.symm.trans hcase
  · cases h.symm.trans hcase
  · cases h.symm.trans hcase
    exact ⟨place, plain, hwalk, hentry, hplain, rfl⟩

/-- A file that could not be written is as it was, or it is empty because the text has half a character. -/
theorem writeText_eq_error {text : String} {e : Failure} (h : d.writeText path text = (.error e, after)) :
    after = d ∨ Text.plain? text = none
      ∧ ∃ place, d.walk path = .ok place ∧ after = d.putFile place ByteArray.empty := by
  rcases d.writeText_cases path text with
    ⟨e', hcase⟩ | ⟨place, hwalk, -, ⟨hplain, e', hcase⟩ | ⟨plain, -, hcase⟩⟩
  · cases h.symm.trans hcase
    exact .inl rfl
  · cases h.symm.trans hcase
    exact .inr ⟨hplain, place, hwalk, rfl⟩
  · cases h.symm.trans hcase

/-- A text is written where there is no directory, if no half is in it. -/
theorem writeText_of_walk {text plain : String} (hwalk : d.walk path = .ok place) (hentry : d.entryAt place ≠ .directory)
    (hplain : Text.plain? text = some plain) : d.writeText path text = (.ok (), d.putFile place plain.toUTF8) := by
  have hwrite : ∀ content, d.write path content = .ok (d.putFile place content) := by
    intro content
    exact write_eq_ok.mpr ⟨place, hwalk, hentry, rfl⟩
  rw [writeText, hwrite]
  simp only [hplain]
  rw [hwrite]

/-! ### Directories that are made -/

theorem makeDirectory_eq_ok (h : d.makeDirectory path = .ok after) :
    after.files = d.files ∧ d.Grows after := by
  unfold makeDirectory at h
  obtain ⟨place, -, hplace⟩ := Except.bind_eq_ok.mp h
  split at hplace
  · cases hplace
    refine ⟨rfl, rfl, fun other hother => ?_⟩
    obtain ⟨hnone, hdirectory⟩ := entryAt_eq_directory_iff.mp hother
    refine entryAt_eq_directory_iff.mpr ⟨hnone, ?_⟩
    refine isDirectoryAt_iff.mpr ((isDirectoryAt_iff.mp hdirectory).imp_right (Or.imp_left ?_))
    rintro ⟨outer, houter, hinside⟩
    exact ⟨outer, List.mem_append_left _ houter, hinside⟩
  · cases hplace

theorem ensureDirectory_eq_ok (h : d.ensureDirectory path = .ok after) :
    after.files = d.files ∧ d.Grows after := by
  unfold ensureDirectory at h
  split at h
  · next hmade =>
    cases h
    exact makeDirectory_eq_ok hmade
  · split at h
    · cases h
      exact ⟨rfl, .refl _⟩
    · cases h

theorem makeAround_eq_ok {fuel : Nat} (h : makeAround fuel d path = .ok after) :
    after.files = d.files ∧ d.Grows after := by
  induction fuel generalizing path after with
  | zero => exact ensureDirectory_eq_ok h
  | succ fuel ih =>
    rw [makeAround] at h
    dsimp only at h
    split at h
    · split at h
      · next made hmade =>
        obtain ⟨hfiles, hgrows⟩ := ih hmade
        split at h
        · cases h
          exact ⟨hfiles, hgrows⟩
        · obtain ⟨hlast, hlastGrows⟩ := ensureDirectory_eq_ok h
          exact ⟨hlast.trans hfiles, hgrows.trans hlastGrows⟩
      · split at h
        · cases h
          exact ⟨rfl, .refl _⟩
        · exact ensureDirectory_eq_ok h
      · cases h
    · exact ensureDirectory_eq_ok h

/-- **Making directories changes no file.** -/
theorem makeDirectories_eq_ok (h : d.makeDirectories path = .ok after) :
    after.files = d.files ∧ d.Grows after :=
  makeAround_eq_ok h

/-! #### A directory in the working directory -/

/-- The disk with one more directory. -/
def putDirectory (d : Disk) (place : List String) : Disk :=
  { d with directories := d.directories ++ [place] }

theorem dropSlashes_of_notMem (h : '/' ∉ path.toList) : dropSlashes path = path := by
  have hkept : (path.toList.reverse.dropWhile (· == '/')).reverse = path.toList := by
    cases hcs : path.toList.reverse with
    | nil => simpa using hcs.symm
    | cons c rest =>
      have hmem : c ∈ path.toList := by
        rw [← List.mem_reverse, hcs]
        exact List.mem_cons_self
      have hc : c ≠ '/' := by
        rintro rfl
        exact h hmem
      rw [List.dropWhile_cons_of_neg (by simpa using hc), ← hcs, List.reverse_reverse]
  unfold dropSlashes
  dsimp only
  rw [hkept]
  split
  · rfl
  · exact String.ofList_toList

/-- There is nothing to be made around a directory whose path is a single name. -/
theorem makeDirectories_of_notMem (h : '/' ∉ path.toList) : d.makeDirectories path = d.ensureDirectory path := by
  have hdirectory : Path.directory path = "" := by
    unfold Path.directory
    rw [Text.cutLast_of_notMem h]
    rfl
  have houter : (splitPath path).1 = "" := by
    unfold splitPath
    dsimp only
    rw [hdirectory]
    split
    · rfl
    · rfl
  unfold makeDirectories
  cases path.length with
  | zero => rfl
  | succ fuel =>
    rw [makeAround]
    dsimp only
    rw [houter, if_neg (by simp)]

/-- A directory is made where nothing is. -/
theorem makeDirectories_missing (h : '/' ∉ path.toList) (hwalk : d.walk path = .ok place)
    (hentry : d.entryAt place = .missing) : d.makeDirectories path = .ok (d.putDirectory place) := by
  have hmade : d.makeDirectory path = .ok (d.putDirectory place) := by
    rw [makeDirectory, dropSlashes_of_notMem h, hwalk, Except.ok_bind, hentry]
    rfl
  rw [makeDirectories_of_notMem h, ensureDirectory, hmade]

/-- No directory is made where a file is. -/
theorem makeDirectories_file (h : '/' ∉ path.toList) (hwalk : d.walk path = .ok place)
    (hentry : d.entryAt place = .file content) : d.makeDirectories path = .error (.access .alreadyExists) := by
  have hmade : d.makeDirectory path = .error (.access .alreadyExists) := by
    rw [makeDirectory, dropSlashes_of_notMem h, hwalk, Except.ok_bind, hentry]
    rfl
  have hfile : d.isDirectory path = false := by
    rw [isDirectory, find, hwalk, Except.map, hentry]
  rw [makeDirectories_of_notMem h, ensureDirectory, hmade]
  simp [hfile]

/-! ### Files in a directory -/

/-- A name of a file that stands for itself in a path. -/
structure IsFileName (name : String) : Prop extends Path.IsName name.toList where
  plain : (Text.numbers name.toList).map Char.ofNat = name.toList

/-- A slash and what follows it are not changed by what stands before; what stands before can lose a mark at its end
    that no character follows. -/
theorem exists_numbers_append_slash (cs : List Char) :
    ∃ front, (∀ rest, Text.numbers (cs ++ '/' :: rest) = front ++ '/'.toNat :: Text.numbers rest)
      ∧ (Text.numbers cs = front ∨ Text.numbers cs = front ++ [Text.mark.toNat]) := by
  have hnumber : Text.numberOf '/' = '/'.toNat := by decide +kernel
  have hslash : ∀ rest, Text.numbers ('/' :: rest) = '/'.toNat :: Text.numbers rest := by
    intro rest
    rw [Text.numbers_cons_of_ne_mark (by decide +kernel), hnumber]
  fun_induction Text.numbers cs with
  | case1 => exact ⟨[], hslash, .inl rfl⟩
  -- A mark at the end stands for itself until the slash follows it.
  | case2 c =>
    by_cases hmark : c = Text.mark
    · refine ⟨[], fun rest => ?_, .inr ?_⟩
      · rw [List.singleton_append, Text.numbers, if_pos hmark, List.nil_append]
      · rw [hmark]
        decide +kernel
    · refine ⟨[Text.numberOf c], fun rest => ?_, .inl rfl⟩
      rw [List.singleton_append, Text.numbers_cons_of_ne_mark hmark, hslash, List.singleton_append]
  | case3 d tail ih =>
    obtain ⟨front, hfront, hend⟩ := ih
    refine ⟨d.toNat :: front, fun rest => ?_, ?_⟩
    · rw [List.cons_append, List.cons_append, Text.numbers, if_pos rfl, hfront, List.cons_append]
    · rw [List.cons_append]
      exact hend.imp (congrArg _) (congrArg _)
  | case4 c d tail hmark ih =>
    obtain ⟨front, hfront, hend⟩ := ih
    refine ⟨Text.numberOf c :: front, fun rest => ?_, ?_⟩
    · rw [List.cons_append, Text.numbers_cons_of_ne_mark hmark, hfront, List.cons_append]
    · rw [List.cons_append]
      exact hend.imp (congrArg _) (congrArg _)

/-- A path to a file in a directory ends with a slash and the name, or is the name. -/
theorem toList_join {name : String} (h : IsFileName name) (directory : String) :
    (Path.join directory name).toList = name.toList
      ∨ ∃ front, (Path.join directory name).toList = front ++ '/' :: name.toList := by
  have hlocal : ¬ name.startsWith "/" := by
    rw [String.startsWith_string_iff]
    rintro ⟨rest, hrest⟩
    exact h.notMem (by rw [← hrest]; exact List.mem_cons_self)
  rw [Path.join, if_neg hlocal]
  split
  · next hdirectory =>
    rcases hdirectory with rfl | hslash
    · exact .inl (by rw [String.empty_append])
    · obtain ⟨front, hfront⟩ := Path.endsWith_slash_iff.mp hslash
      refine .inr ⟨front, ?_⟩
      rw [String.toList_append, hfront, List.append_assoc, List.singleton_append]
  · refine .inr ⟨directory.toList, ?_⟩
    simp

/-- The segments of a path to a file in a directory end with the name of the file, whatever the directory is. -/
theorem exists_pieces_join {name : String} (h : IsFileName name) (directory : String) :
    ∃ front, Text.pieces '/' ((Text.numbers (Path.join directory name).toList).map Char.ofNat)
      = front ++ [name.toList] := by
  rcases toList_join h directory with hname | ⟨outer, houter⟩
  · exact ⟨[], by rw [hname, h.plain, Text.pieces_of_notMem h.notMem, List.nil_append]⟩
  · obtain ⟨front, hfront, -⟩ := exists_numbers_append_slash outer
    refine ⟨Text.pieces '/' (front.map Char.ofNat), ?_⟩
    have hslash : Char.ofNat '/'.toNat = '/' := by decide
    rw [houter, hfront, List.map_append, List.map_cons, h.plain, hslash, Text.pieces_append_mark,
      Text.pieces_of_notMem h.notMem]

/-- Steps that end with a name of a file lead to a place with this name. -/
theorem getLast?_foldlM_step {name : String} (h : IsFileName name) {segments : List (List Char)}
    {start : List String} (hsteps : (segments ++ [name.toList]).foldlM d.step start = .ok place) :
    place.getLast? = some name := by
  rw [List.foldlM_append] at hsteps
  obtain ⟨outer, -, hstep⟩ := Except.bind_eq_ok.mp hsteps
  obtain ⟨last, hlast, hdone⟩ := Except.bind_eq_ok.mp hstep
  cases hdone
  unfold step at hlast
  split at hlast
  · cases hlast
  · cases hlast
  · -- The name is none of the segments that stay in a directory or leave it.
    rw [if_neg (not_or.mpr ⟨h.ne_nil, h.ne_dot⟩), if_neg h.ne_dots] at hlast
    split at hlast
    · cases hlast
    · cases hlast
      rw [List.getLast?_concat, String.ofList_toList]

/-- **Names of files.**  A path to a file in a directory leads to a place with the name of the file. -/
theorem getLast?_walk_join {name directory : String} (h : IsFileName name)
    (hwalk : d.walk (Path.join directory name) = .ok place) : place.getLast? = some name := by
  obtain ⟨plain, hwalked, hsteps⟩ := walk_eq_ok_iff.mp hwalk
  obtain ⟨front, hfront⟩ := exists_pieces_join h directory
  have hplain : plain.toList = (Text.numbers (Path.join directory name).toList).map Char.ofNat := by
    have heq := hwalked.plain_eq
    unfold Text.plain? at heq
    dsimp only at heq
    split at heq
    · cases heq
    · rw [← Option.some.inj heq, String.toList_ofList]
  rw [hplain, hfront] at hsteps
  exact getLast?_foldlM_step h hsteps

/-! ### Files that are written one after the other -/

/-- A path leads to a file with a text. -/
def HoldsText (d : Disk) (path text : String) : Prop :=
  ∃ plain, Text.plain? text = some plain ∧ d.find path = .ok (.file plain.toUTF8)

/-- Files of a directory have been written to their ends, and no other file is changed or new. -/
structure Wrote (before after : Disk) (directory : String) (files : List (String × String)) : Prop where
  grows : before.Grows after
  complete : ∀ f ∈ files, after.HoldsText (Path.join directory f.1) f.2
  others : ∀ place, (∀ f ∈ files, after.walk (Path.join directory f.1) ≠ .ok place) →
    after.files.get? place = before.files.get? place

/-- The writing of files was broken off at one of them.  The files before it are complete; the file itself is as it
    was, or it is left empty, because its text has half a character. -/
def BrokeOff (before after : Disk) (directory : String) (files : List (String × String)) : Prop :=
  ∃ written next rest made, files = written ++ next :: rest ∧ before.Wrote made directory written
    ∧ (after = made ∨ Text.plain? next.2 = none ∧ ∃ place, made.walk (Path.join directory next.1) = .ok place
      ∧ after = made.putFile place ByteArray.empty)

variable {directory name text plain : String} {files : List (String × String)}

theorem wrote_nil (d : Disk) (directory : String) : d.Wrote d directory [] where
  grows := .refl d
  complete := by simp
  others _ _ := rfl

/-- A file that has been written stays as it is while files with other names are written. -/
theorem Wrote.cons (hname : IsFileName name) (hfiles : ∀ f ∈ files, IsFileName f.1)
    (hne : ∀ f ∈ files, f.1 ≠ name) (hwalk : before.walk (Path.join directory name) = .ok place)
    (hentry : before.entryAt place ≠ .directory) (hplain : Text.plain? text = some plain)
    (h : (before.putFile place plain.toUTF8).Wrote after directory files) :
    before.Wrote after directory ((name, text) :: files) := by
  have hgrows : before.Grows after := (grows_putFile hentry _).trans h.grows
  have hafter := hgrows.walk_eq_ok hwalk
  -- No later file is written to this place: the last name on the way to it would be this one.
  have hkept : after.entryAt place = .file plain.toUTF8 := by
    rw [entryAt_eq_file_iff, h.others place, get?_putFile, if_pos rfl]
    intro f hf hsame
    have hlast := getLast?_walk_join (hfiles f hf) hsame
    rw [getLast?_walk_join hname hwalk, Option.some_inj] at hlast
    exact hne f hf hlast.symm
  refine ⟨hgrows, List.forall_mem_cons.mpr ⟨⟨plain, hplain, ?_⟩, h.complete⟩, fun other hother => ?_⟩
  · rw [find, hafter, Except.map, hkept]
  · rw [List.forall_mem_cons] at hother
    rw [h.others other hother.2, get?_putFile, if_neg]
    rintro rfl
    exact hother.1 hafter

theorem BrokeOff.cons (hname : IsFileName name) (hfiles : ∀ f ∈ files, IsFileName f.1)
    (hne : ∀ f ∈ files, f.1 ≠ name) (hwalk : before.walk (Path.join directory name) = .ok place)
    (hentry : before.entryAt place ≠ .directory) (hplain : Text.plain? text = some plain)
    (h : (before.putFile place plain.toUTF8).BrokeOff after directory files) :
    before.BrokeOff after directory ((name, text) :: files) := by
  obtain ⟨written, next, rest, made, rfl, hwrote, hafter⟩ := h
  refine ⟨(name, text) :: written, next, rest, made, rfl, ?_, hafter⟩
  exact hwrote.cons hname (fun f hf => hfiles f (List.mem_append_left _ hf))
    (fun f hf => hne f (List.mem_append_left _ hf)) hwalk hentry hplain

/-- The directory may have been made before. -/
theorem Wrote.of_made (hmade : made.files = before.files) (hgrows : before.Grows made)
    (h : made.Wrote after directory files) : before.Wrote after directory files where
  grows := hgrows.trans h.grows
  complete := h.complete
  others place hplace := by rw [h.others place hplace, hmade]

theorem BrokeOff.of_made (hmade : made.files = before.files) (hgrows : before.Grows made)
    (h : made.BrokeOff after directory files) : before.BrokeOff after directory files := by
  obtain ⟨written, next, rest, last, hfiles, hwrote, hafter⟩ := h
  exact ⟨written, next, rest, last, hfiles, hwrote.of_made hmade hgrows, hafter⟩

end Disk

end TypedClient
