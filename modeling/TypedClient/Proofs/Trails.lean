import TypedClient.Proofs.Writing
import Mathlib.Data.List.TakeWhile

namespace TypedClient

/-!
# Disks that differ in one place

Two disks on which the same stands at every place but one cannot be told apart by a path that keeps away from this
place: it leads to the same place, what is read there is the same, and after the same is written there the disks are
as alike as they were.

* `Disk.trail` — the places that a path leads through, by its names alone.
* `Disk.Avoids` — a path that leads neither to a place nor through it.
* `Disk.AgreesOff` — two disks on which the same stands at every place but one.
* `Disk.AgreesOff.walk_eq` — paths that keep away lead to the same places.
* `Disk.AgreesOff.readText_akin` — a file on one of the disks is all that can be read on one of them only.
* `Disk.AgreesOff.writeText`, `Disk.AgreesOff.makeDirectories` — they are written to alike.
* `Disk.Avoids.outer` — the directories around a path keep away from what the path keeps away from.
-/

namespace Disk

variable {d d' : Disk} {root place other start next : List String} {path name : String} {cs rest : List Char}

/-! ### Trails -/

/-- The place that a segment leads to, by its name alone. -/
def follow (place : List String) (segment : List Char) : List String :=
  if segment = [] ∨ segment = ['.'] then place
  else if segment = ['.', '.'] then place.dropLast
  else place ++ [String.ofList segment]

/-- The characters that a path is given by. -/
def pathChars (cs : List Char) : List Char :=
  (Text.numbers cs).map Char.ofNat

/-- The place that a path with these characters sets out from; `root` is the working directory. -/
def origin (root : List String) (cs : List Char) : List String :=
  if cs.head? = some '/' then [] else root

/-- The places that a path with these characters leads through. -/
def trailOf (root : List String) (cs : List Char) : List (List String) :=
  (Text.pieces '/' cs).scanl follow (origin root cs)

/-- The places that a path leads through by its names alone, whatever stands at them. -/
def trail (root : List String) (path : String) : List (List String) :=
  trailOf root (pathChars path.toList)

/-- The path leads neither to the place nor through it. -/
def Avoids (root : List String) (path : String) (place : List String) : Prop :=
  place ∉ trail root path

instance (root : List String) (path : String) (place : List String) : Decidable (Avoids root path place) :=
  inferInstanceAs (Decidable (place ∉ trail root path))

theorem toList_of_plain? {plain : String} (h : Text.plain? path = some plain) : plain.toList = pathChars path.toList := by
  unfold Text.plain? at h
  dsimp only at h
  split at h
  · cases h
  · rw [← Option.some.inj h, String.toList_ofList, pathChars]

theorem trail_of_plain? {plain : String} (h : Text.plain? path = some plain) : trail root path
    = (Text.pieces '/' plain.toList).scanl follow (if plain.startsWith "/" then [] else root) := by
  simp only [trail, trailOf, origin, Path.startsWith_slash_iff, toList_of_plain? h]

/-- Steps lead along the trail. -/
theorem step_eq_ok {segment : List Char} (h : d.step place segment = .ok next) : next = follow place segment := by
  unfold step at h
  split at h
  · cases h
  · cases h
  · unfold follow
    split at h
    · next hstay =>
      cases h
      rw [if_pos hstay]
    · next hgo =>
      rw [if_neg hgo]
      split at h
      · next hback =>
        cases h
        rw [if_pos hback]
      · next hname =>
        rw [if_neg hname]
        split at h
        · cases h
        · cases h
          rfl

theorem mem_scanl_of_steps {segments : List (List Char)} (h : segments.foldlM d.step start = .ok place) :
    place ∈ segments.scanl follow start := by
  induction segments generalizing start with
  | nil =>
    cases h
    simp
  | cons segment rest ih =>
    rw [List.foldlM_cons] at h
    obtain ⟨next, hstep, hrest⟩ := Except.bind_eq_ok.mp h
    rw [List.scanl_cons, ← step_eq_ok hstep]
    exact List.mem_cons_of_mem start (ih hrest)

/-- The place that a path leads to is on its trail. -/
theorem mem_trail_of_walk (h : d.walk path = .ok place) : place ∈ trail d.workingDirectory path := by
  obtain ⟨plain, hwalked, hsteps⟩ := walk_eq_ok_iff.mp h
  rw [trail_of_plain? hwalked.plain_eq]
  exact mem_scanl_of_steps hsteps

/-! ### Disks that agree -/

/-- Disks with the same working directory on which the same stands at every place but one. -/
structure AgreesOff (root place : List String) (d d' : Disk) : Prop where
  root_eq : d.workingDirectory = root
  root_eq' : d'.workingDirectory = root
  entryAt_eq : ∀ other, other ≠ place → d'.entryAt other = d.entryAt other

namespace AgreesOff

theorem trans {d'' : Disk} (h : AgreesOff root place d d') (h' : AgreesOff root place d' d'') :
    AgreesOff root place d d'' where
  root_eq := h.root_eq
  root_eq' := h'.root_eq'
  entryAt_eq other hne := (h'.entryAt_eq other hne).trans (h.entryAt_eq other hne)

/-- The same files are at all other places. -/
theorem get?_eq (h : AgreesOff root place d d') (hne : other ≠ place) :
    d'.files.get? other = d.files.get? other := by
  have hfile : ∀ content, d'.files.get? other = some content ↔ d.files.get? other = some content := by
    intro content
    rw [← entryAt_eq_file_iff, ← entryAt_eq_file_iff, h.entryAt_eq other hne]
  ext content
  exact hfile content

/-! ### Reading -/

theorem step_eq (h : AgreesOff root place d d') (hne : start ≠ place) (segment : List Char) :
    d'.step start segment = d.step start segment := by
  unfold step
  rw [h.entryAt_eq start hne]

theorem steps_eq (h : AgreesOff root place d d') {segments : List (List Char)}
    (havoids : place ∉ segments.scanl follow start) : segments.foldlM d'.step start = segments.foldlM d.step start := by
  induction segments generalizing start with
  | nil => rfl
  | cons segment rest ih =>
    rw [List.scanl_cons, List.mem_cons, not_or] at havoids
    rw [List.foldlM_cons, List.foldlM_cons, h.step_eq (Ne.symm havoids.1)]
    cases hstep : d.step start segment with
    | error e => rfl
    | ok next =>
      rw [Except.ok_bind, Except.ok_bind]
      apply ih
      rw [step_eq_ok hstep]
      exact havoids.2

/-- A path that keeps away from the place leads to the same place on both disks. -/
theorem walk_eq (h : AgreesOff root place d d') (havoids : Avoids root path place) : d'.walk path = d.walk path := by
  unfold walk
  split
  · rfl
  · next plain hplain =>
    rw [Avoids, trail_of_plain? hplain] at havoids
    dsimp only
    rw [h.root_eq, h.root_eq', h.steps_eq havoids]

theorem ne_of_walk (h : AgreesOff root place d d') (havoids : Avoids root path place)
    (hwalk : d.walk path = .ok other) : other ≠ place := by
  rintro rfl
  apply havoids
  rw [← h.root_eq]
  exact mem_trail_of_walk hwalk

theorem find_eq (h : AgreesOff root place d d') (havoids : Avoids root path place) : d'.find path = d.find path := by
  unfold find
  rw [h.walk_eq havoids]
  cases hwalk : d.walk path with
  | error e => rfl
  | ok found => rw [Except.map, Except.map, h.entryAt_eq found (h.ne_of_walk havoids hwalk)]

theorem exists?_eq (h : AgreesOff root place d d') (havoids : Avoids root path place) :
    d'.exists? path = d.exists? path := by
  rw [exists?, exists?, h.find_eq havoids]

theorem isDirectory_eq (h : AgreesOff root place d d') (havoids : Avoids root path place) :
    d'.isDirectory path = d.isDirectory path := by
  rw [isDirectory, isDirectory, h.find_eq havoids]

/-! #### A file on one of the disks -/

section OneFile

variable {content : ByteArray}

/-- Neither nothing nor a file leads any further. -/
theorem step_akin (h : AgreesOff root place d d') (hmissing : d.entryAt place = .missing)
    (hfile : d'.entryAt place = .file content) (start : List String) (segment : List Char) :
    Akin (d.step start segment) (d'.step start segment) := by
  by_cases hstart : start = place
  · unfold step
    rw [hstart, hmissing, hfile]
    exact .error _ _
  · exact .of_eq (h.step_eq hstart segment)

/-- Every path leads to the same place on both disks, or to none on either of them. -/
theorem walk_akin (h : AgreesOff root place d d') (hmissing : d.entryAt place = .missing)
    (hfile : d'.entryAt place = .file content) (path : String) : Akin (d.walk path) (d'.walk path) := by
  have hsteps : ∀ (segments : List (List Char)) (start : List String),
      Akin (segments.foldlM d.step start) (segments.foldlM d'.step start) := by
    intro segments
    induction segments with
    | nil => exact fun start => .refl _
    | cons segment rest ih =>
      intro start
      rw [List.foldlM_cons, List.foldlM_cons]
      exact (h.step_akin hmissing hfile start segment).bind fun next _ => ih next
  unfold walk
  split
  · exact .refl _
  · dsimp only
    rw [h.root_eq, h.root_eq']
    split_ifs
    · exact .refl _
    · exact .refl _
    · exact .refl _
    · exact hsteps _ _
    · exact hsteps _ _

/-- **The same text is read**, unless the path leads to the file that only one of the disks has. -/
theorem readText_akin (h : AgreesOff root place d d') (hmissing : d.entryAt place = .missing)
    (hfile : d'.entryAt place = .file content) (hother : d.walk path ≠ .ok place) :
    Akin (d.readText path) (d'.readText path) := by
  have hwalk := h.walk_akin hmissing hfile path
  unfold readText read find
  generalize d.walk path = found at hwalk hother ⊢
  generalize d'.walk path = found' at hwalk ⊢
  cases hwalk with
  | error e e' => exact .error e e'
  | ok other =>
    have hne : other ≠ place := fun hsame => hother (by rw [hsame])
    apply Akin.of_eq
    rw [Except.map, Except.map, h.entryAt_eq other hne]

end OneFile

end AgreesOff

/-! ### What changes on a disk -/

/-- What stands at a place after something is made below it, or not below it. -/
def holding (below : Bool) : DiskEntry → DiskEntry
  | .missing => if below then .directory else .missing
  | entry => entry

/-- The places around a file become directories. -/
theorem isDirectoryAt_putFile (hne : other ≠ place) (content : ByteArray) :
    (d.putFile place content).isDirectoryAt other = (d.isDirectoryAt other || other.isPrefixOf place) := by
  have hkeys : ∀ file, file ∈ (d.putFile place content).files.keys ↔ file = place ∨ file ∈ d.files.keys :=
    fun file => Table.mem_keys_put
  rw [Bool.eq_iff_iff, Bool.or_eq_true, List.isPrefixOf_iff_prefix, isDirectoryAt_iff, isDirectoryAt_iff]
  simp only [hkeys]
  show (other <+: d.workingDirectory ∨ (∃ made ∈ d.directories, other <+: made) ∨ _) ↔ _
  constructor
  · rintro (hroot | hmade | ⟨file, rfl | hfile, hbelow, hother⟩)
    · exact .inl (.inl hroot)
    · exact .inl (.inr (.inl hmade))
    · exact .inr hbelow
    · exact .inl (.inr (.inr ⟨file, hfile, hbelow, hother⟩))
  · rintro ((hroot | hmade | ⟨file, hfile, hbelow, hother⟩) | hbelow)
    · exact .inl hroot
    · exact .inr (.inl hmade)
    · exact .inr (.inr ⟨file, .inr hfile, hbelow, hother⟩)
    · exact .inr (.inr ⟨place, .inl rfl, hbelow, hne⟩)

theorem entryAt_putFile_self (d : Disk) (place : List String) (content : ByteArray) :
    (d.putFile place content).entryAt place = .file content := by
  rw [entryAt_eq_file_iff, get?_putFile, if_pos rfl]

theorem entryAt_putFile (hne : other ≠ place) (content : ByteArray) :
    (d.putFile place content).entryAt other = holding (other.isPrefixOf place) (d.entryAt other) := by
  unfold entryAt
  rw [get?_putFile, if_neg hne, isDirectoryAt_putFile hne]
  cases d.files.get? other with
  | some found => rfl
  | none =>
    cases d.isDirectoryAt other with
    | true => simp [holding]
    | false => simp [holding]

theorem entryAt_putDirectory (d : Disk) (place other : List String) :
    (d.putDirectory place).entryAt other = holding (other.isPrefixOf place) (d.entryAt other) := by
  have hdirectory : (d.putDirectory place).isDirectoryAt other
      = (d.isDirectoryAt other || other.isPrefixOf place) := by
    simp only [putDirectory, isDirectoryAt, List.any_append, List.any_cons, List.any_nil, Bool.or_false]
    ac_rfl
  have hfiles : (d.putDirectory place).files = d.files := rfl
  rw [entryAt, entryAt, hfiles]
  cases d.files.get? other with
  | some found => rfl
  | none =>
    simp only [hdirectory]
    cases d.isDirectoryAt other with
    | true => simp [holding]
    | false => simp [holding]

/-- A file in the working directory changes nothing at the other places. -/
theorem agreesOff_putFile (d : Disk) (name : String) (content : ByteArray) :
    AgreesOff d.workingDirectory (d.workingDirectory ++ [name]) d
      (d.putFile (d.workingDirectory ++ [name]) content) where
  root_eq := rfl
  root_eq' := rfl
  entryAt_eq other hne := by
    rw [entryAt_putFile hne]
    cases hentry : d.entryAt other with
    | file found => rfl
    | directory => rfl
    | missing =>
      -- A place around the file is on the way to the working directory, so something stands there.
      have hbelow : other.isPrefixOf (d.workingDirectory ++ [name]) = false := by
        rw [← Bool.not_eq_true, List.isPrefixOf_iff_prefix, List.prefix_concat_iff]
        rintro (rfl | hroot)
        · exact hne rfl
        · unfold entryAt at hentry
          split at hentry
          · cases hentry
          · rw [if_pos (isDirectoryAt_iff.mpr (.inl hroot))] at hentry
            cases hentry
      rw [hbelow]
      rfl

/-! ### Writing -/

/-- Two results that are the same failure, or disks that agree. -/
inductive Alike (root place : List String) : Except Failure Disk → Except Failure Disk → Prop
  | ok {d d' : Disk} : AgreesOff root place d d' → Alike root place (.ok d) (.ok d')
  | error (e : Failure) : Alike root place (.error e) (.error e)

namespace AgreesOff

theorem putFile (h : AgreesOff root place d d') (content : ByteArray) :
    AgreesOff root place (d.putFile next content) (d'.putFile next content) where
  root_eq := h.root_eq
  root_eq' := h.root_eq'
  entryAt_eq other hne := by
    by_cases hother : other = next
    · rw [hother, entryAt_putFile_self, entryAt_putFile_self]
    · rw [entryAt_putFile hother, entryAt_putFile hother, h.entryAt_eq other hne]

theorem putDirectory (h : AgreesOff root place d d') :
    AgreesOff root place (d.putDirectory next) (d'.putDirectory next) where
  root_eq := h.root_eq
  root_eq' := h.root_eq'
  entryAt_eq other hne := by rw [entryAt_putDirectory, entryAt_putDirectory, h.entryAt_eq other hne]

theorem write (h : AgreesOff root place d d') (havoids : Avoids root path place) (content : ByteArray) :
    Alike root place (d.write path content) (d'.write path content) := by
  unfold Disk.write
  rw [h.walk_eq havoids]
  cases hwalk : d.walk path with
  | error e =>
    dsimp only
    split_ifs
    · exact .error _
    · exact .error _
  | ok found =>
    dsimp only
    rw [h.entryAt_eq found (h.ne_of_walk havoids hwalk)]
    split
    · exact .error _
    · exact .ok (h.putFile content)

/-- **A text is written alike.** -/
theorem writeText (h : AgreesOff root place d d') (havoids : Avoids root path place) (text : String) :
    (d'.writeText path text).1 = (d.writeText path text).1
      ∧ AgreesOff root place (d.writeText path text).2 (d'.writeText path text).2 := by
  unfold Disk.writeText
  have hempty := h.write havoids ByteArray.empty
  generalize d.write path ByteArray.empty = emptied at hempty ⊢
  generalize d'.write path ByteArray.empty = emptied' at hempty ⊢
  cases hempty with
  | error e => exact ⟨rfl, h⟩
  | @ok made made' hmade =>
    dsimp only
    split
    · exact ⟨rfl, hmade⟩
    · next plain _ =>
      have hfull := h.write havoids plain.toUTF8
      generalize d.write path plain.toUTF8 = full at hfull ⊢
      generalize d'.write path plain.toUTF8 = full' at hfull ⊢
      cases hfull with
      | error e => exact ⟨rfl, hmade⟩
      | ok hwritten => exact ⟨rfl, hwritten⟩

end AgreesOff

/-! ### Directories around a path -/

/-- A place that a path can only lead to if its last name is spelled out: it is not where paths set out from, and its
    name has no mark. -/
structure IsNamed (root place : List String) : Prop where
  ne_root : place ≠ root
  notMem : ∀ name, place.getLast? = some name → Text.mark ∉ name.toList

/-- What stands before a slash gives the characters before it, but for a mark at its end. -/
theorem exists_pathChars (cs : List Char) :
    ∃ front, (∀ rest, pathChars (cs ++ '/' :: rest) = front ++ '/' :: pathChars rest)
      ∧ (pathChars cs = front ∨ pathChars cs = front ++ [Text.mark]) := by
  have hmark : Char.ofNat Text.mark.toNat = Text.mark := by decide +kernel
  obtain ⟨front, hfront, hend⟩ := exists_numbers_append_slash cs
  refine ⟨front.map Char.ofNat, fun rest => ?_, hend.imp (fun h => ?_) fun h => ?_⟩
  · simp [pathChars, hfront]
  · rw [pathChars, h]
  · simp [pathChars, h, hmark]

theorem origin_append_slash (root : List String) (front rest : List Char) :
    origin root (front ++ '/' :: rest) = if front = [] then [] else origin root front := by
  cases front with
  | nil => simp [origin]
  | cons c cs => simp [origin]

/-- The trail of what stands before a slash is a part of the trail. -/
theorem mem_trailOf_append (h : place ∈ (Text.pieces '/' cs).scanl follow (origin root (cs ++ '/' :: rest))) :
    place ∈ trailOf root (cs ++ '/' :: rest) := by
  rw [trailOf, Text.pieces_append_mark, List.scanl_append]
  exact List.mem_append_left _ h

/-- A slash at the end leads nowhere else. -/
theorem mem_trailOf_slash (h : place ∈ trailOf root (cs ++ ['/'])) (rest : List Char) :
    place ∈ trailOf root (cs ++ '/' :: rest) := by
  apply mem_trailOf_append
  rw [origin_append_slash]
  rw [trailOf, origin_append_slash, Text.pieces_append_mark, List.scanl_append, List.mem_append] at h
  rcases h with h | h
  · exact h
  · -- The empty segment stays where the segments before it have led.
    have hlast : place = (Text.pieces '/' cs).foldl follow (if cs = [] then [] else origin root cs) := by
      simpa [Text.pieces, follow] using h
    rw [hlast]
    exact List.mem_of_getLast? List.getLast?_scanl

/-- A character at the end belongs to the last piece. -/
theorem exists_pieces_concat {c : Char} (hc : c ≠ '/') (cs : List Char) : ∃ front last,
    Text.pieces '/' cs = front ++ [last] ∧ Text.pieces '/' (cs ++ [c]) = front ++ [last ++ [c]] := by
  obtain ⟨hlast, hcs | ⟨outer, hcs⟩⟩ := Text.exists_cutLast '/' cs
  · have hboth : '/' ∉ cs ++ [c] := by
      rw [hcs]
      simp [hlast, Ne.symm hc]
    refine ⟨[], cs, ?_, ?_⟩
    · rw [Text.pieces_of_notMem (hcs ▸ hlast), List.nil_append]
    · rw [Text.pieces_of_notMem hboth, List.nil_append]
  · generalize (Text.cutLast '/' cs).2 = last at hlast hcs
    have hboth : '/' ∉ last ++ [c] := by simp [hlast, Ne.symm hc]
    subst hcs
    refine ⟨Text.pieces '/' outer, last, ?_, ?_⟩
    · rw [Text.pieces_append_mark, Text.pieces_of_notMem hlast]
    · rw [List.append_assoc, List.cons_append, Text.pieces_append_mark, Text.pieces_of_notMem hboth]

/-- A mark at the end leads to no place that has a name without one. -/
theorem mem_scanl_of_mark (hplace : IsNamed root place) (h : place ∈ trailOf root (cs ++ [Text.mark])) :
    place ∈ (Text.pieces '/' cs).scanl follow (origin root (cs ++ [Text.mark])) := by
  obtain ⟨front, last, hpieces, hconcat⟩ := exists_pieces_concat (c := Text.mark) (by decide +kernel) cs
  rw [trailOf, hconcat, List.scanl_append, List.mem_append] at h
  rw [hpieces, List.scanl_append]
  rcases h with h | h
  · exact List.mem_append_left _ h
  · have hne : last ++ [Text.mark] ≠ [] := by simp
    have hmarked : ∀ segment : List Char, segment.getLast? ≠ some Text.mark → last ++ [Text.mark] ≠ segment := by
      rintro segment hend rfl
      exact hend List.getLast?_concat
    have hdot : last ++ [Text.mark] ≠ ['.'] := hmarked _ (by decide +kernel)
    have hdots : last ++ [Text.mark] ≠ ['.', '.'] := hmarked _ (by decide +kernel)
    have hnamed : ∃ outer, place = outer ++ [String.ofList (last ++ [Text.mark])] := by
      rw [List.scanl_cons, List.scanl_nil, List.tail_cons, List.mem_singleton, follow,
        if_neg (not_or.mpr ⟨hne, hdot⟩), if_neg hdots] at h
      exact ⟨_, h⟩
    obtain ⟨outer, rfl⟩ := hnamed
    exact absurd (by simp) (hplace.notMem _ List.getLast?_concat)

namespace Avoids

/-- What stands before a slash, and the slash. -/
theorem upTo (h : Avoids root path place) (hpath : path.toList = cs ++ '/' :: rest) :
    Avoids root (String.ofList (cs ++ ['/'])) place := by
  obtain ⟨front, hfront, -⟩ := exists_pathChars cs
  intro hmem
  apply h
  rw [trail, String.toList_ofList, hfront] at hmem
  rw [trail, hpath, hfront]
  exact mem_trailOf_slash hmem _

/-- What stands before a slash. -/
theorem before (h : Avoids root path place) (hplace : IsNamed root place) (hpath : path.toList = cs ++ '/' :: rest) :
    Avoids root (String.ofList cs) place := by
  obtain ⟨front, hfront, hend⟩ := exists_pathChars cs
  intro hmem
  rw [trail, String.toList_ofList] at hmem
  have hscan : place ∈ (Text.pieces '/' front).scanl follow (origin root (pathChars cs)) := by
    rcases hend with hend | hend
    · rw [hend] at hmem ⊢
      exact hmem
    · rw [hend] at hmem ⊢
      exact mem_scanl_of_mark hplace hmem
  by_cases hnil : front = []
  · -- Then the path leads nowhere but where it sets out from.
    subst hnil
    have horigin : origin root (pathChars cs) = root := by
      rcases hend with hend | hend
      · rw [hend]
        rfl
      · rw [hend, origin, if_neg (by decide +kernel)]
    rw [horigin] at hscan
    apply hplace.ne_root
    simpa [Text.pieces, follow] using hscan
  · apply h
    rw [trail, hpath, hfront]
    apply mem_trailOf_append
    have horigin : origin root (front ++ '/' :: pathChars rest) = origin root (pathChars cs) := by
      rw [origin_append_slash, if_neg hnil]
      obtain ⟨c, tail, rfl⟩ := List.exists_cons_of_ne_nil hnil
      rcases hend with hend | hend
      · rw [hend]
      · rw [hend]
        rfl
    rw [horigin]
    exact hscan

end Avoids

/-- A text is what is left without the slashes at its end, and these slashes. -/
theorem exists_slashes (cs : List Char) : ∃ slashes, cs = (cs.reverse.dropWhile (· == '/')).reverse ++ slashes
    ∧ ∀ c ∈ slashes, c = '/' := by
  refine ⟨(cs.reverse.takeWhile (· == '/')).reverse, ?_, fun c hc => ?_⟩
  · rw [← List.reverse_append, List.takeWhile_append_dropWhile, List.reverse_reverse]
  · have hslash := List.mem_takeWhile_imp (List.mem_reverse.mp hc)
    simpa using hslash

theorem Avoids.dropSlashes (h : Avoids root path place) (hplace : IsNamed root place) :
    Avoids root (dropSlashes path) place := by
  obtain ⟨slashes, hpath, hslashes⟩ := exists_slashes path.toList
  unfold Disk.dropSlashes
  dsimp only
  split
  · exact h
  · cases slashes with
    | nil =>
      rw [List.append_nil] at hpath
      rw [← hpath, String.ofList_toList]
      exact h
    | cons c rest =>
      rw [hslashes c List.mem_cons_self] at hpath
      exact h.before hplace hpath

theorem Avoids.directory (h : Avoids root path place) (hplace : IsNamed root place) :
    Avoids root (Path.directory path) place := by
  unfold Path.directory
  dsimp only
  obtain ⟨hlast, hpath | ⟨outer, hpath⟩⟩ := Text.exists_cutLast '/' path.toList
  · -- Around a name without a slash is the directory that paths set out from.
    rw [Text.cutLast_of_notMem (hpath ▸ hlast)]
    intro hmem
    apply hplace.ne_root
    simpa [trail, trailOf, pathChars, Text.numbers, Text.pieces, follow, origin] using hmem
  · generalize (Text.cutLast '/' path.toList).2 = last at hlast hpath
    rw [hpath, Text.cutLast_append_mark hlast]
    dsimp only
    obtain ⟨slashes, hhead, hslashes⟩ := exists_slashes (outer ++ ['/'])
    split
    · exact h.upTo hpath
    · -- The slash behind the directory is one of those that are taken off.
      generalize hkept : ((outer ++ ['/']).reverse.dropWhile (· == '/')).reverse = kept at hhead
      have hwhole : path.toList = kept ++ (slashes ++ last) := by
        rw [hpath, ← List.append_assoc, ← hhead]
        simp
      cases slashes with
      | nil =>
        have hlength := congrArg List.length hhead
        rw [← hkept, List.reverse_concat, List.dropWhile_cons_of_pos (by decide)] at hlength
        have hle := (List.dropWhile_sublist (fun c => c == '/') (l := outer.reverse)).length_le
        simp only [List.append_nil, List.length_append, List.length_reverse, List.length_singleton] at hlength hle
        omega
      | cons c rest =>
        rw [hslashes c List.mem_cons_self, List.cons_append] at hwhole
        exact h.before hplace hwhole

/-- The directory around a path keeps away from what the path keeps away from. -/
theorem Avoids.outer (h : Avoids root path place) (hplace : IsNamed root place) :
    Avoids root (splitPath path).1 place := by
  unfold splitPath
  dsimp only
  split
  · exact (h.directory hplace).directory hplace
  · exact h.directory hplace

/-! ### Directories that are made -/

namespace AgreesOff

theorem makeDirectory (h : AgreesOff root place d d') (havoids : Avoids root path place)
    (hplace : IsNamed root place) : Alike root place (d.makeDirectory path) (d'.makeDirectory path) := by
  have hkept := havoids.dropSlashes hplace
  unfold Disk.makeDirectory
  rw [h.walk_eq hkept]
  cases hwalk : d.walk (Disk.dropSlashes path) with
  | error e => exact .error e
  | ok found =>
    rw [Except.ok_bind, Except.ok_bind, h.entryAt_eq found (h.ne_of_walk hkept hwalk)]
    split
    · exact .ok h.putDirectory
    · exact .error _

theorem ensureDirectory (h : AgreesOff root place d d') (havoids : Avoids root path place)
    (hplace : IsNamed root place) : Alike root place (d.ensureDirectory path) (d'.ensureDirectory path) := by
  unfold Disk.ensureDirectory
  have hmade := h.makeDirectory havoids hplace
  generalize d.makeDirectory path = made at hmade ⊢
  generalize d'.makeDirectory path = made' at hmade ⊢
  cases hmade with
  | ok hmade => exact .ok hmade
  | error e =>
    dsimp only
    rw [h.isDirectory_eq havoids]
    split
    · exact .ok h
    · exact .error e

theorem makeAround (h : AgreesOff root place d d') (havoids : Avoids root path place) (hplace : IsNamed root place)
    (fuel : Nat) : Alike root place (Disk.makeAround fuel d path) (Disk.makeAround fuel d' path) := by
  induction fuel generalizing path with
  | zero => exact h.ensureDirectory havoids hplace
  | succ fuel ih =>
    have houter := havoids.outer hplace
    rw [Disk.makeAround, Disk.makeAround]
    dsimp only
    rw [h.exists?_eq houter]
    split
    · have hmade := ih houter
      generalize Disk.makeAround fuel d (splitPath path).1 = made at hmade ⊢
      generalize Disk.makeAround fuel d' (splitPath path).1 = made' at hmade ⊢
      cases hmade with
      | ok hmade =>
        dsimp only
        split
        · exact .ok hmade
        · exact hmade.ensureDirectory havoids hplace
      | error e =>
        -- Only a directory that has come to be there in the meantime is no error.
        by_cases hthere : e = .access .alreadyExists
        · subst hthere
          dsimp only
          split
          · exact .ok h
          · exact h.ensureDirectory havoids hplace
        · simp only
          exact .error e
    · exact h.ensureDirectory havoids hplace

/-- **Directories are made alike.** -/
theorem makeDirectories (h : AgreesOff root place d d') (havoids : Avoids root path place)
    (hplace : IsNamed root place) : Alike root place (d.makeDirectories path) (d'.makeDirectories path) :=
  h.makeAround havoids hplace path.length

end AgreesOff

end Disk

end TypedClient
