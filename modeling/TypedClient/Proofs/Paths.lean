import TypedClient.Locator
import TypedClient.Proofs.Pieces

namespace TypedClient

/-!
# Paths by their segments

A path is a number of slashes and the segments after them.  Normalizing leaves the segments that are left
when all steps back are taken, and a path relative to a directory goes on where the directory ends.

* `Path.IsName` — a segment that names a file or a directory.
* `Path.Pushed` — what a segment does to the segments before it.
* `Path.exists_resolve_eq` — what is left when all steps back are taken.
* `Path.rooted` — a normalized path from the root; `Path.rooted_inj` — its names say which one.
* `Path.exists_absolute` — a file has such a path, and its directory has the same but for the last name.
* `Path.absolute_join` — where a path relative to a directory leads.
* `Path.exists_normalizeChars_eq_inner` — a normalized path that does not lead out of a directory.
* `Url.notMem_split`, `Url.notMem_unsplit` — addresses without number signs, taken apart and put together.
* `Locator.canonicalFile_of_local`, `Locator.isUrl_canonicalFile`, `Locator.notMem_canonicalFile` — canonical names
  of files and of addresses.
-/

namespace Path

variable {s : List Char} {cs : List Char} {stack segments names : List (List Char)} {k : Nat}

/-! ### Steps back -/

/-- The segment names a file or a directory: it is neither empty nor a step. -/
structure IsName (s : List Char) : Prop where
  ne_nil : s ≠ []
  ne_dot : s ≠ ['.']
  ne_dots : s ≠ ['.', '.']
  notMem : '/' ∉ s

@[simp] theorem push_nil (fromRoot : Bool) : push fromRoot stack [] = stack := by
  unfold push
  rw [if_pos (.inl rfl)]

@[simp] theorem push_dot (fromRoot : Bool) : push fromRoot stack ['.'] = stack := by
  unfold push
  rw [if_pos (.inr rfl)]

/-- A name is put on the stack. -/
theorem IsName.push_eq (h : IsName s) (fromRoot : Bool) : push fromRoot stack s = s :: stack := by
  have hstep : ¬ (s = [] ∨ s = ['.']) := by
    rintro (hs | hs)
    · exact h.ne_nil hs
    · exact h.ne_dot hs
  unfold push
  rw [if_neg hstep, if_pos h.ne_dots]

/-- A step back takes a name from the stack. -/
theorem IsName.push_dots (h : IsName s) (fromRoot : Bool) : push fromRoot (s :: stack) ['.', '.'] = stack := by
  unfold push
  rw [if_neg (by simp), if_neg (by simp)]
  exact if_neg h.ne_dots

theorem foldl_push_names (fromRoot : Bool) (h : ∀ n ∈ names, IsName n) :
    names.foldl (push fromRoot) stack = names.reverse ++ stack := by
  induction names generalizing stack with
  | nil => rfl
  | cons n names ih =>
    have hn := h n List.mem_cons_self
    have hnames : names.foldl (push fromRoot) (n :: stack) = names.reverse ++ n :: stack :=
      ih fun m hm => h m (List.mem_cons_of_mem n hm)
    rw [List.foldl_cons, hn.push_eq, hnames]
    simp

/-- Names that follow other segments are left as they are. -/
theorem resolve_append_names (fromRoot : Bool) (h : ∀ n ∈ names, IsName n) :
    resolve fromRoot (segments ++ names) = resolve fromRoot segments ++ names := by
  rw [resolve, List.foldl_append, foldl_push_names fromRoot h]
  simp [resolve]

theorem resolve_names (fromRoot : Bool) (h : ∀ n ∈ names, IsName n) : resolve fromRoot names = names := by
  have happend : resolve fromRoot ([] ++ names) = resolve fromRoot [] ++ names := resolve_append_names fromRoot h
  rwa [List.nil_append] at happend

/-- Empty segments in front say nothing. -/
theorem resolve_replicate_nil (fromRoot : Bool) :
    resolve fromRoot (List.replicate k [] ++ segments) = resolve fromRoot segments := by
  induction k with
  | zero => rfl
  | succ k ih =>
    rw [List.replicate_succ, List.cons_append, ← ih]
    simp [resolve]

/-- The segments on the stack: names, and below them the steps back that are left, of which there are none at
    the root. -/
def IsStack (fromRoot : Bool) (stack : List (List Char)) : Prop :=
  ∃ names k, stack = names ++ List.replicate k ['.', '.'] ∧ (∀ n ∈ names, IsName n)
    ∧ (fromRoot = true → k = 0)

/-- What a segment does to the stack: it says nothing, it is put on the stack, it takes a name back, it is kept
    because there is nothing to take back, or it stays at the root. -/
inductive Pushed (fromRoot : Bool) : List (List Char) → List Char → List (List Char) → Prop
  | skipped (stack : List (List Char)) {s : List Char} (hs : s = [] ∨ s = ['.']) : Pushed fromRoot stack s stack
  | named (stack : List (List Char)) {s : List Char} (hs : IsName s) : Pushed fromRoot stack s (s :: stack)
  | takenBack (stack : List (List Char)) {n : List Char} (hn : IsName n) :
    Pushed fromRoot (n :: stack) ['.', '.'] stack
  | kept (k : Nat) (hfree : fromRoot = false) :
    Pushed fromRoot (List.replicate k ['.', '.']) ['.', '.'] (['.', '.'] :: List.replicate k ['.', '.'])
  | atRoot (hroot : fromRoot = true) : Pushed fromRoot [] ['.', '.'] []

theorem IsStack.pushed {fromRoot : Bool} (h : IsStack fromRoot stack) (hs : '/' ∉ s) :
    Pushed fromRoot stack s (push fromRoot stack s) := by
  by_cases hempty : s = []
  · rw [hempty, push_nil]
    exact .skipped stack (.inl rfl)
  by_cases hdot : s = ['.']
  · rw [hdot, push_dot]
    exact .skipped stack (.inr rfl)
  by_cases hdots : s = ['.', '.']
  · subst hdots
    obtain ⟨names, k, rfl, hnames, hk⟩ := h
    -- Two dots take back a name.  Without a name they stay, unless the path cannot go further up.
    cases names with
    | cons n names =>
      have hn := hnames n List.mem_cons_self
      rw [List.cons_append, hn.push_dots]
      exact .takenBack _ hn
    | nil =>
      cases fromRoot with
      | true =>
        obtain rfl := hk rfl
        exact .atRoot rfl
      | false =>
        have hpush : Path.push false (List.replicate k ['.', '.']) ['.', '.']
            = ['.', '.'] :: List.replicate k ['.', '.'] := by
          cases k <;> rfl
        rw [List.nil_append, hpush]
        exact .kept k rfl
  · have hname : IsName s := ⟨hempty, hdot, hdots, hs⟩
    rw [hname.push_eq]
    exact .named stack hname

theorem IsStack.push {fromRoot : Bool} (h : IsStack fromRoot stack) (hs : '/' ∉ s) :
    IsStack fromRoot (push fromRoot stack s) := by
  have hpushed := h.pushed hs
  generalize Path.push fromRoot stack s = next at hpushed ⊢
  cases hpushed with
  | skipped => exact h
  | named _ hname =>
    obtain ⟨names, k, rfl, hnames, hk⟩ := h
    exact ⟨s :: names, k, rfl, List.forall_mem_cons.mpr ⟨hname, hnames⟩, hk⟩
  | takenBack _ hn =>
    obtain ⟨names, k, heq, hnames, hk⟩ := h
    cases names with
    | nil =>
      rw [List.nil_append] at heq
      exact absurd (List.eq_of_mem_replicate (heq ▸ List.mem_cons_self)) hn.ne_dots
    | cons m names =>
      obtain ⟨-, heq⟩ := List.cons.inj heq
      exact ⟨names, k, heq, (List.forall_mem_cons.mp hnames).2, hk⟩
  | kept k hfree => exact ⟨[], k + 1, rfl, by simp, by simp [hfree]⟩
  | atRoot => exact ⟨[], 0, rfl, by simp, fun _ => rfl⟩

theorem IsStack.foldl_push {fromRoot : Bool} (h : IsStack fromRoot stack) (hs : ∀ s ∈ segments, '/' ∉ s) :
    IsStack fromRoot (segments.foldl (Path.push fromRoot) stack) := by
  induction segments generalizing stack with
  | nil => exact h
  | cons s segments ih =>
    exact ih (h.push (hs s List.mem_cons_self)) fun t ht => hs t (List.mem_cons_of_mem s ht)

/-- **What is left when all steps back are taken.**  Names are left, with the steps back in front of them that
    had nothing to take back. -/
theorem exists_resolve_eq (fromRoot : Bool) (hs : ∀ s ∈ segments, '/' ∉ s) :
    ∃ k names, resolve fromRoot segments = List.replicate k ['.', '.'] ++ names
      ∧ (∀ n ∈ names, IsName n) ∧ (fromRoot = true → k = 0) := by
  have hempty : IsStack fromRoot [] := ⟨[], 0, rfl, by simp, fun _ => rfl⟩
  obtain ⟨names, k, hstack, hnames, hk⟩ := hempty.foldl_push hs
  refine ⟨k, names.reverse, ?_, fun n hn => hnames n (List.mem_reverse.mp hn), hk⟩
  rw [resolve, hstack]
  simp

/-- From the root only names are left. -/
theorem isName_of_mem_resolve (hs : ∀ s ∈ segments, '/' ∉ s) (h : s ∈ resolve true segments) :
    IsName s := by
  obtain ⟨k, names, hresolve, hnames, hk⟩ := exists_resolve_eq true hs
  rw [hresolve, hk rfl] at h
  exact hnames s h

theorem push_subset (fromRoot : Bool) : push fromRoot stack s ⊆ s :: stack := by
  unfold push
  split
  · exact List.subset_cons_self s stack
  split
  · exact List.Subset.refl _
  split
  · split
    · exact List.nil_subset _
    · exact List.Subset.refl _
  · next top rest =>
    split
    · exact List.Subset.refl _
    · intro t ht
      exact List.mem_cons_of_mem s (List.mem_cons_of_mem top ht)

theorem foldl_push_subset (fromRoot : Bool) : segments.foldl (push fromRoot) stack ⊆ stack ++ segments := by
  induction segments generalizing stack with
  | nil => simp
  | cons s segments ih =>
    intro t ht
    rcases List.mem_append.mp (ih ht) with ht | ht
    · rcases List.mem_cons.mp (push_subset fromRoot ht) with rfl | ht
      · simp
      · simp [ht]
    · simp [ht]

/-- No segments are made up. -/
theorem mem_of_mem_resolve {fromRoot : Bool} (h : s ∈ resolve fromRoot segments) : s ∈ segments := by
  rw [resolve, List.mem_reverse] at h
  exact foldl_push_subset fromRoot h

/-! ### Paths from the root -/

/-- The path from the root with these names; `k` is the number of slashes that make up the root. -/
def rooted (k : Nat) (names : List (List Char)) : List Char :=
  List.replicate k '/' ++ Text.joinPieces '/' names

/-- A root is one slash or two. -/
def IsRoot (k : Nat) : Prop := k = 1 ∨ k = 2

/-- Segments that are neither empty nor hold a slash do not begin with one when they are put together. -/
theorem head?_joinPieces (h : ∀ n ∈ names, n ≠ [] ∧ '/' ∉ n) : (Text.joinPieces '/' names).head? ≠ some '/' := by
  cases names with
  | nil => simp [Text.joinPieces]
  | cons n names =>
    obtain ⟨hne, hslash⟩ := h n List.mem_cons_self
    obtain ⟨c, rest, rfl⟩ := List.exists_cons_of_ne_nil hne
    have hc : c ≠ '/' := by
      rintro rfl
      exact hslash List.mem_cons_self
    cases names with
    | nil => simpa [Text.joinPieces] using hc
    | cons m names => simpa [Text.joinPieces] using hc

theorem pieces_replicate_append (k : Nat) (cs : List Char) :
    Text.pieces '/' (List.replicate k '/' ++ cs) = List.replicate k [] ++ Text.pieces '/' cs := by
  induction k with
  | zero => rfl
  | succ k ih =>
    rw [List.replicate_succ, List.cons_append, Text.pieces_cons_mark, ih]
    rfl

theorem length_takeWhile_slash (k : Nat) (h : cs.head? ≠ some '/') :
    ((List.replicate k '/' ++ cs).takeWhile (· == '/')).length = k := by
  induction k with
  | zero =>
    cases cs with
    | nil => rfl
    | cons c cs =>
      have hc : c ≠ '/' := by simpa using h
      simp [hc]
  | succ k ih =>
    rw [List.replicate_succ, List.cons_append, List.takeWhile_cons_of_pos (by simp), List.length_cons, ih]

/-- The slashes that a root can have in front of something else are all that count. -/
theorem rootLength_replicate_append {root : Nat} (hroot : root ≤ 2) (h : cs.head? ≠ some '/') :
    rootLength (List.replicate root '/' ++ cs) = root := by
  rw [rootLength, length_takeWhile_slash root h]
  split
  · rfl
  · rfl
  · next hzero htwo =>
    have hzero : root ≠ 0 := hzero
    have htwo : root ≠ 2 := htwo
    omega

theorem rootLength_of_head?_ne (h : cs.head? ≠ some '/') : rootLength cs = 0 :=
  rootLength_replicate_append (Nat.zero_le 2) h

theorem normalizeChars_of_isRoot (h : IsRoot (rootLength cs)) :
    normalizeChars cs = rooted (rootLength cs) (resolve true (Text.pieces '/' cs)) := by
  unfold normalizeChars
  rcases h with h | h
  · rw [h]
    rfl
  · rw [h]
    rfl

/-- A path from the root keeps its root, and its segments are resolved. -/
theorem normalizeChars_append {root : Nat} (hroot : IsRoot root) (h : cs.head? ≠ some '/') :
    normalizeChars (List.replicate root '/' ++ cs)
      = rooted root (resolve true (Text.pieces '/' cs)) := by
  have hlength : rootLength (List.replicate root '/' ++ cs) = root := by
    refine rootLength_replicate_append ?_ h
    rcases hroot with rfl | rfl <;> decide
  rw [normalizeChars_of_isRoot (by rwa [hlength]), hlength, pieces_replicate_append,
    resolve_replicate_nil]

/-- Every path that begins with a slash has a root. -/
theorem isRoot_rootLength (h : cs.head? = some '/') : IsRoot (rootLength cs) := by
  obtain ⟨rest, rfl⟩ : ∃ rest, cs = '/' :: rest := by
    cases cs with
    | nil => cases h
    | cons c rest =>
      rw [List.head?_cons, Option.some.injEq] at h
      exact ⟨rest, by rw [h]⟩
  unfold rootLength IsRoot
  rw [List.takeWhile_cons_of_pos (by simp), List.length_cons]
  generalize (rest.takeWhile (· == '/')).length = n
  split
  · omega
  · omega
  · omega

/-- The names are what is not empty between the slashes of a path. -/
theorem filter_pieces_joinPieces (h : ∀ n ∈ names, IsName n) :
    (Text.pieces '/' (Text.joinPieces '/' names)).filter (!·.isEmpty) = names := by
  by_cases hnames : names = []
  · subst hnames
    rfl
  · rw [Text.pieces_joinPieces hnames fun n hn => (h n hn).notMem, List.filter_eq_self]
    intro n hn
    simp [(h n hn).ne_nil]

/-- Paths with one root are equal only if their names are. -/
theorem rooted_inj {root : Nat} {others : List (List Char)} (h : ∀ n ∈ names, IsName n)
    (h' : ∀ n ∈ others, IsName n) : rooted root names = rooted root others ↔ names = others := by
  constructor
  · intro heq
    have hjoined : Text.joinPieces '/' names = Text.joinPieces '/' others := List.append_cancel_left heq
    rw [← filter_pieces_joinPieces h, hjoined, filter_pieces_joinPieces h']
  · rintro rfl
    rfl

/-! ### Directories -/

theorem startsWith_slash_iff {path : String} :
    path.startsWith "/" = true ↔ path.toList.head? = some '/' := by
  rw [String.startsWith_string_iff]
  show ['/'] <+: path.toList ↔ _
  cases path.toList with
  | nil => simp
  | cons c rest => simp [eq_comm]

theorem endsWith_slash_iff {path : String} :
    path.endsWith "/" = true ↔ ∃ cs, path.toList = cs ++ ['/'] := by
  rw [← String.endsWith_toSlice, String.Slice.endsWith_string_iff, String.copy_toSlice]
  show ['/'] <:+ path.toList ↔ _
  constructor
  · rintro ⟨cs, hcs⟩
    exact ⟨cs, hcs.symm⟩
  · rintro ⟨cs, hcs⟩
    exact ⟨cs, hcs.symm⟩

/-- A path with names does not end in a slash. -/
theorem exists_joinPieces_eq_concat (h : ∀ n ∈ names, IsName n) (hne : names ≠ []) :
    ∃ cs c, Text.joinPieces '/' names = cs ++ [c] ∧ c ≠ '/' := by
  induction names with
  | nil => exact absurd rfl hne
  | cons n names ih =>
    by_cases hnames : names = []
    · subst hnames
      have hn := h n List.mem_cons_self
      obtain ⟨cs, c, rfl⟩ := (List.eq_nil_or_concat' n).resolve_left hn.ne_nil
      refine ⟨cs, c, rfl, ?_⟩
      rintro rfl
      exact hn.notMem (by simp)
    · obtain ⟨cs, c, hcs, hc⟩ := ih (fun m hm => h m (List.mem_cons_of_mem n hm)) hnames
      refine ⟨n ++ '/' :: cs, c, ?_, hc⟩
      rw [Text.joinPieces_cons '/' n hnames, hcs, List.append_assoc]
      rfl

/-- The directory of a path from the root has the same names but for the last. -/
theorem directory_rooted {root : Nat} (hroot : IsRoot root) (h : ∀ n ∈ names, IsName n) (hs : IsName s) :
    directory (String.ofList (rooted root (names ++ [s]))) = String.ofList (rooted root names) := by
  unfold directory
  rw [String.toList_ofList]
  by_cases hnames : names = []
  · -- Only the root is left, which is all slashes.
    subst hnames
    have hcut : Text.cutLast '/' (rooted root ([] ++ [s])) = (List.replicate root '/', s) := by
      rcases hroot with rfl | rfl
      · show Text.cutLast '/' ([] ++ '/' :: s) = ([] ++ ['/'], s)
        exact Text.cutLast_append_mark hs.notMem
      · show Text.cutLast '/' (['/'] ++ '/' :: s) = (['/'] ++ ['/'], s)
        exact Text.cutLast_append_mark hs.notMem
    rw [hcut]
    rcases hroot with rfl | rfl
    · rfl
    · rfl
  · obtain ⟨cs, c, hjoin, hc⟩ := exists_joinPieces_eq_concat h hnames
    have hcut : Text.cutLast '/' (rooted root (names ++ [s])) = (rooted root names ++ ['/'], s) := by
      rw [rooted, Text.joinPieces_append hnames (by simp), ← List.append_assoc]
      exact Text.cutLast_append_mark hs.notMem
    have hstrip : ((rooted root names ++ ['/']).reverse.dropWhile (· == '/')).reverse
        = rooted root names := by
      rw [rooted, hjoin]
      simp [hc]
    have hfilled : (rooted root names).isEmpty = false := by
      rw [rooted, hjoin]
      simp
    simp only [hcut, hstrip, hfilled]
    rfl

/-- A path relative to a directory goes on where the directory ends. -/
theorem exists_join_eq {root : Nat} {path : String} (hroot : IsRoot root) (h : ∀ n ∈ names, IsName n)
    (hpath : path.startsWith "/" = false) :
    ∃ cs, (join (String.ofList (rooted root names)) path).toList = List.replicate root '/' ++ cs
      ∧ cs.head? ≠ some '/' ∧ Text.pieces '/' cs = names ++ Text.pieces '/' path.toList := by
  have hhead : path.toList.head? ≠ some '/' := by
    rw [ne_eq, ← startsWith_slash_iff, hpath]
    exact Bool.false_ne_true
  have hdirectory : String.ofList (rooted root names) ≠ "" := by
    rcases hroot with rfl | rfl
    · simp [rooted, List.replicate_succ, ← String.toList_inj]
    · simp [rooted, List.replicate_succ, ← String.toList_inj]
  unfold join
  rw [if_neg (by rw [hpath]; exact Bool.false_ne_true)]
  -- A directory of slashes alone ends in one, and any other needs one more.
  by_cases hnames : names = []
  · subst hnames
    have hends : (String.ofList (rooted root [])).endsWith "/" = true := by
      rw [endsWith_slash_iff, String.toList_ofList]
      rcases hroot with rfl | rfl
      · exact ⟨[], rfl⟩
      · exact ⟨['/'], rfl⟩
    refine ⟨path.toList, ?_, hhead, rfl⟩
    rw [if_pos (.inr hends)]
    simp [rooted, Text.joinPieces]
  · obtain ⟨cs, c, hjoin, hc⟩ := exists_joinPieces_eq_concat h hnames
    have hends : ¬ (String.ofList (rooted root names)).endsWith "/" = true := by
      rw [endsWith_slash_iff, String.toList_ofList, rooted, hjoin]
      rintro ⟨ds, hds⟩
      rw [← List.append_assoc] at hds
      have hlast := List.append_inj_right' hds rfl
      rw [List.cons.injEq] at hlast
      exact hc hlast.1
    refine ⟨Text.joinPieces '/' names ++ '/' :: path.toList, ?_, ?_, ?_⟩
    · rw [if_neg (by rw [not_or]; exact ⟨hdirectory, hends⟩)]
      simp [rooted]
    · have hfirst := head?_joinPieces fun n hn => ⟨(h n hn).ne_nil, (h n hn).notMem⟩
      rw [hjoin] at hfirst ⊢
      cases cs with
      | nil => simpa using hfirst
      | cons d ds => simpa using hfirst
    · rw [Text.pieces_append_mark, Text.pieces_joinPieces hnames fun n hn => (h n hn).notMem]

/-- **Where a relative path leads.**  Its segments follow the names of the directory, and then the steps back are
    taken. -/
theorem absolute_join {root : Nat} {path : String} (hroot : IsRoot root) (h : ∀ n ∈ names, IsName n)
    (hpath : path.startsWith "/" = false) (workingDirectory : String) :
    absolute workingDirectory (join (String.ofList (rooted root names)) path)
      = String.ofList (rooted root (resolve true (names ++ Text.pieces '/' path.toList))) := by
  obtain ⟨cs, hjoin, hhead, hpieces⟩ := exists_join_eq hroot h hpath
  have habsolute : (join (String.ofList (rooted root names)) path).startsWith "/" = true := by
    rw [startsWith_slash_iff, hjoin]
    rcases hroot with rfl | rfl
    · rfl
    · rfl
  rw [absolute, join, if_pos habsolute, normalize, hjoin, normalizeChars_append hroot hhead, hpieces]

/-- A path seen from a working directory begins with a slash, and there is one in front of what stands last in
    the path. -/
theorem exists_join_eq_concat {workingDirectory path : String}
    (hworking : workingDirectory.startsWith "/" = true) :
    (join workingDirectory path).toList.head? = some '/'
      ∧ ∃ cs, (join workingDirectory path).toList = cs ++ '/' :: (fileName path).toList := by
  obtain ⟨hlast, hsplit⟩ := Text.exists_cutLast '/' path.toList
  have hfileName : (fileName path).toList = (Text.cutLast '/' path.toList).2 := String.toList_ofList
  rw [← hfileName] at hlast hsplit
  rw [startsWith_slash_iff] at hworking
  unfold join
  -- A path from the root stands for itself; any other follows a slash.
  by_cases hpath : path.startsWith "/" = true
  · rw [if_pos hpath]
    rw [startsWith_slash_iff] at hpath
    refine ⟨hpath, ?_⟩
    rcases hsplit with heq | h
    · rw [heq] at hpath
      exact absurd (List.mem_of_mem_head? hpath) hlast
    · exact h
  · rw [if_neg hpath]
    obtain ⟨front, hjoin, hhead⟩ : ∃ front, (if workingDirectory = "" ∨ workingDirectory.endsWith "/" = true
        then workingDirectory ++ path else workingDirectory ++ "/" ++ path).toList
          = front ++ '/' :: path.toList ∧ (front ++ ['/']).head? = some '/' := by
      have hne : workingDirectory ≠ "" := by
        rintro rfl
        cases hworking
      by_cases hends : workingDirectory.endsWith "/" = true
      · obtain ⟨cs, hcs⟩ := endsWith_slash_iff.mp hends
        rw [if_pos (.inr hends), String.toList_append, hcs]
        rw [hcs] at hworking
        exact ⟨cs, by simp, hworking⟩
      · rw [if_neg (by rw [not_or]; exact ⟨hne, hends⟩)]
        refine ⟨workingDirectory.toList, by simp, ?_⟩
        rw [List.head?_append, hworking]
        rfl
    rw [hjoin]
    have hfirst : (front ++ '/' :: path.toList).head? = some '/' := by
      rw [show front ++ '/' :: path.toList = (front ++ ['/']) ++ path.toList by simp, List.head?_append, hhead]
      rfl
    refine ⟨hfirst, ?_⟩
    rcases hsplit with heq | ⟨xs, heq⟩
    · exact ⟨front, by rw [← heq]⟩
    · exact ⟨front ++ '/' :: xs, by rw [heq]; simp⟩

/-- The names that a path leads to from a working directory: the last of them is the one that the path ends with. -/
theorem exists_resolve_join {workingDirectory path : String} (hworking : workingDirectory.startsWith "/" = true)
    (hname : IsName (fileName path).toList) : IsRoot (rootLength (join workingDirectory path).toList)
      ∧ ∃ names, (∀ n ∈ names, IsName n) ∧ resolve true (Text.pieces '/' (join workingDirectory path).toList)
        = names ++ [(fileName path).toList] := by
  obtain ⟨hhead, cs, hjoin⟩ : (join workingDirectory path).toList.head? = some '/'
      ∧ ∃ cs, (join workingDirectory path).toList = cs ++ '/' :: (fileName path).toList :=
    exists_join_eq_concat hworking
  have hone : ∀ n ∈ [(fileName path).toList], IsName n := by
    intro n hn
    rw [List.mem_singleton.mp hn]
    exact hname
  refine ⟨isRoot_rootLength hhead, resolve true (Text.pieces '/' cs),
    fun n hn => isName_of_mem_resolve (fun s hs => Text.notMem_of_mem_pieces hs) hn, ?_⟩
  rw [hjoin, Text.pieces_append_mark, Text.pieces_of_notMem hname.notMem, resolve_append_names true hone]

/-- **Where a file is.**  A path that ends with a name leads to a file under this name in the directory of the
    path. -/
theorem exists_absolute {workingDirectory path : String} (hworking : workingDirectory.startsWith "/" = true)
    (hname : IsName (fileName path).toList) : ∃ root names, IsRoot root ∧ (∀ n ∈ names, IsName n)
      ∧ absolute workingDirectory path = String.ofList (rooted root (names ++ [(fileName path).toList]))
      ∧ directory (absolute workingDirectory path) = String.ofList (rooted root names) := by
  obtain ⟨hroot, names, hnames, hresolve⟩ := exists_resolve_join hworking hname
  have habsolute : absolute workingDirectory path = String.ofList (rooted
      (rootLength (join workingDirectory path).toList) (names ++ [(fileName path).toList])) := by
    rw [absolute, normalize, normalizeChars_of_isRoot hroot, hresolve]
  refine ⟨_, _, hroot, hnames, habsolute, ?_⟩
  rw [habsolute, directory_rooted hroot hnames hname]

/-- Normalizing makes up no characters but slashes and dots. -/
theorem mem_of_mem_normalizeChars {c : Char} (h : c ∈ normalizeChars cs) :
    c = '/' ∨ c = '.' ∨ c ∈ cs := by
  by_cases hc : c = '/'
  · exact .inl hc
  right
  unfold normalizeChars at h
  simp only at h
  split at h
  · exact .inl (List.mem_singleton.mp h)
  · right
    rcases List.mem_append.mp h with h | h
    · exact absurd (List.eq_of_mem_replicate h) hc
    · obtain ⟨p, hp, hcp⟩ := (Text.mem_joinPieces hc).mp h
      exact Text.mem_of_mem_pieces hc (mem_of_mem_resolve hp) hcp

/-! ### Names of files inside of a directory -/

/-- The path of the file with these names inside of a directory; without names it is the directory itself. -/
def inner (names : List (List Char)) : List Char :=
  if names = [] then ['.'] else Text.joinPieces '/' names

theorem resolve_append_inner {outer : List (List Char)} (h' : ∀ n ∈ outer, IsName n)
    (h : ∀ n ∈ names, IsName n) :
    resolve true (outer ++ Text.pieces '/' (inner names)) = outer ++ names := by
  unfold inner
  by_cases hnames : names = []
  · subst hnames
    rw [if_pos rfl, Text.pieces_of_notMem (by simp), resolve, List.foldl_append, List.foldl_cons, push_dot,
      List.foldl_nil, List.append_nil]
    exact resolve_names true h'
  · have hall : ∀ n ∈ outer ++ names, IsName n := by
      intro n hn
      rcases List.mem_append.mp hn with hn | hn
      · exact h' n hn
      · exact h n hn
    rw [if_neg hnames, Text.pieces_joinPieces hnames fun n hn => (h n hn).notMem, resolve_names true hall]

theorem head?_inner (h : ∀ n ∈ names, IsName n) : (inner names).head? ≠ some '/' := by
  unfold inner
  split
  · simp
  · exact head?_joinPieces fun n hn => ⟨(h n hn).ne_nil, (h n hn).notMem⟩

/-- Does a path begin at the root or with a step back? -/
def leadsOut (path : String) : Bool :=
  path.startsWith "/" || (Text.pieces '/' path.toList).head? == some ['.', '.']

/-- A normalized path that does not lead out is the path of a file inside of a directory. -/
theorem exists_normalizeChars_eq_inner (h : leadsOut (String.ofList (normalizeChars cs)) = false) :
    ∃ names, (∀ n ∈ names, IsName n) ∧ (∀ n ∈ names, n ∈ Text.pieces '/' cs)
      ∧ normalizeChars cs = inner names := by
  rw [leadsOut, Bool.or_eq_false_iff, Bool.eq_false_iff, Bool.eq_false_iff, ne_eq, ne_eq,
    startsWith_slash_iff, beq_iff_eq, String.toList_ofList] at h
  obtain ⟨hslash, hstep⟩ := h
  by_cases hhead : cs.head? = some '/'
  · have hroot := isRoot_rootLength hhead
    rw [normalizeChars_of_isRoot hroot] at hslash
    rcases hroot with hroot | hroot
    · rw [hroot] at hslash
      exact absurd rfl hslash
    · rw [hroot] at hslash
      exact absurd rfl hslash
  · have hroot := rootLength_of_head?_ne hhead
    have hslash : ∀ s ∈ Text.pieces '/' cs, '/' ∉ s := fun s hs => Text.notMem_of_mem_pieces hs
    obtain ⟨k, names, hresolve, hnames, -⟩ := exists_resolve_eq false hslash
    have hmem : ∀ n ∈ names, n ∈ Text.pieces '/' cs := fun n hn =>
      mem_of_mem_resolve (hresolve ▸ List.mem_append_right _ hn)
    have hnormalize : normalizeChars cs = if (Text.joinPieces '/' (List.replicate k ['.', '.'] ++ names)).isEmpty
        then ['.'] else Text.joinPieces '/' (List.replicate k ['.', '.'] ++ names) := by
      rw [← hresolve]
      unfold normalizeChars
      rw [hroot]
      rfl
    refine ⟨names, hnames, hmem, ?_⟩
    cases k with
    | zero =>
      rw [hnormalize, List.replicate_zero, List.nil_append, inner]
      by_cases hempty : names = []
      · subst hempty
        rfl
      · obtain ⟨ds, d, hjoin, -⟩ := exists_joinPieces_eq_concat hnames hempty
        rw [if_neg hempty, if_neg (by simp [hjoin])]
    | succ k =>
      -- A step back that is left stands in front.
      have hall : ∀ p ∈ List.replicate (k + 1) ['.', '.'] ++ names, '/' ∉ p := by
        intro p hp
        rcases List.mem_append.mp hp with hp | hp
        · rw [List.eq_of_mem_replicate hp]
          simp
        · exact (hnames p hp).notMem
      have hne : List.replicate (k + 1) ['.', '.'] ++ names ≠ [] := by simp
      have hpieces := Text.pieces_joinPieces hne hall
      have hfilled : (Text.joinPieces '/' (List.replicate (k + 1) ['.', '.'] ++ names)).isEmpty = false := by
        cases hjoin : Text.joinPieces '/' (List.replicate (k + 1) ['.', '.'] ++ names) with
        | nil =>
          rw [hjoin] at hpieces
          have hdots := congrArg List.head? hpieces
          simp [Text.pieces, List.replicate_succ] at hdots
        | cons => rfl
      rw [hnormalize, hfilled, if_neg Bool.false_ne_true, hpieces] at hstep
      exact absurd rfl hstep

end Path

/-! ### Addresses -/

namespace Text

/-- What stands after a mark is part of the text. -/
theorem after?_subset {mark : Char} {cs rest : List Char} (h : after? mark cs = some rest) : rest ⊆ cs := by
  induction cs with
  | nil => cases h
  | cons c cs ih =>
    rw [after?] at h
    split at h
    · cases h
      exact List.subset_cons_self ..
    · exact List.Subset.trans (ih h) (List.subset_cons_self ..)

/-- Nothing stands after a mark that does not occur. -/
theorem after?_of_notMem {mark : Char} {cs : List Char} (h : mark ∉ cs) : after? mark cs = none := by
  induction cs with
  | nil => rfl
  | cons c cs ih =>
    rw [List.mem_cons, not_or] at h
    rw [after?, if_neg (Ne.symm h.1), ih h.2]

end Text

namespace Url

variable {address default : String} {mark : Char} {cs : List Char}

theorem notMem_cut {c : Char} (h : c ∉ cs) : c ∉ (cut mark cs).1 ∧ c ∉ (cut mark cs).2 := by
  refine ⟨fun hmem => h ((List.takeWhile_prefix _).subset hmem), ?_⟩
  rw [cut]
  cases hafter : Text.after? mark cs with
  | none => exact List.not_mem_nil
  | some rest => exact fun hmem => h (Text.after?_subset hafter hmem)

theorem cut_of_notMem (h : mark ∉ cs) : (cut mark cs).2 = [] := by
  rw [cut, Text.after?_of_notMem h]
  rfl

theorem notMem_splitScheme {c : Char} (h : c ∉ cs) : c ∉ (splitScheme default cs).2 := by
  unfold splitScheme
  split
  · next hafter =>
    dsimp only
    split
    · exact fun hmem => h (Text.after?_subset hafter hmem)
    · exact h
  · exact h

/-- An address without number signs has none in its parts, and its fragment is empty. -/
theorem notMem_split {u : Url} (h : split default address = .ok u) (hmark : '#' ∉ address.toList) :
    '#' ∉ u.authority ∧ '#' ∉ u.path ∧ '#' ∉ u.query ∧ u.fragment = [] := by
  have hcs : '#' ∉ ((address.toList.dropWhile fun c => c.toNat ≤ 0x20).filter fun c =>
      c != '\t' && c != '\r' && c != '\n') :=
    fun hmem => hmark ((List.dropWhile_suffix _).subset (List.mem_of_mem_filter hmem))
  have hscheme : '#' ∉ (splitScheme default _).2 := notMem_splitScheme hcs
  simp only [split] at h
  generalize splitScheme default _ = split at h hscheme
  obtain ⟨scheme, behind⟩ := split
  dsimp only at h hscheme
  -- The authority is cut off first, then the fragment, and the query.
  obtain ⟨authority, rest, hauthority, hrest, hu⟩ : ∃ authority rest, '#' ∉ authority ∧ '#' ∉ rest
      ∧ (if isAuthority authority = true then Except.ok (⟨scheme, authority, (cut '?' (cut '#' rest).1).1,
        (cut '?' (cut '#' rest).1).2, (cut '#' rest).2⟩ : Url) else .error (Failure.access .invalidAddress))
          = .ok u := by
    split at h
    · next tail =>
      have htail : '#' ∉ tail := fun hmem => hscheme (List.mem_cons_of_mem _ (List.mem_cons_of_mem _ hmem))
      exact ⟨_, _, fun hmem => htail ((List.takeWhile_prefix _).subset hmem),
        fun hmem => htail ((List.dropWhile_suffix _).subset hmem), h⟩
    · exact ⟨_, _, List.not_mem_nil, hscheme, h⟩
  split at hu
  · cases hu
    have hfront : '#' ∉ (cut '#' _).1 := (notMem_cut hrest).1
    exact ⟨hauthority, (notMem_cut hfront).1, (notMem_cut hfront).2, cut_of_notMem hrest⟩
  · cases hu

/-- An address that is put together from parts without number signs has none. -/
theorem notMem_unsplit {u : Url} (hscheme : '#' ∉ u.scheme.toList) (hauthority : '#' ∉ u.authority)
    (hpath : '#' ∉ u.path) (hquery : '#' ∉ u.query) (hfragment : u.fragment = []) : '#' ∉ u.unsplit.toList := by
  have hhier : ∀ b : Bool, '#' ∉ (if b = true then
      '/' :: '/' :: (u.authority ++ if (u.path.isEmpty || u.path.head? = some '/') = true then u.path
        else '/' :: u.path) else u.path) := by
    intro b
    split
    · split <;> simp [hauthority, hpath]
    · exact hpath
  unfold unsplit
  simp only [String.toList_append, List.mem_append, not_or, String.toList_ofList, hfragment]
  refine ⟨?_, ⟨hhier _, ?_⟩, by simp⟩
  · split
    · simp
    · simp [String.toList_append, hscheme]
  · split
    · simp
    · simp [hquery]

end Url

namespace Locator

open TypedClient.Path (IsName)

variable {file canonical : String}

/-! ### Local documents -/

theorem join_of_local {directory : String} (h : isUrl directory = false) (name : String) :
    join directory name = .ok (Path.join directory name) := by
  rw [join, if_neg (by rw [h]; exact Bool.false_ne_true)]

theorem base_of_local (h : isUrl file = false) (workingDirectory : String) :
    base workingDirectory file = .ok (Path.directory (Path.absolute workingDirectory file)) := by
  rw [base, if_neg (by rw [h]; exact Bool.false_ne_true)]

theorem entry_of_local (h : isUrl file = false) : entry file = .ok (Path.fileName file) := by
  rw [entry, if_neg (by rw [h]; exact Bool.false_ne_true)]
  rfl

/-- A name without slashes is no address. -/
theorem isUrl_of_notMem (h : '/' ∉ file.toList) : isUrl file = false := by
  rw [Bool.eq_false_iff]
  intro hurl
  unfold isUrl at hurl
  rw [Bool.or_eq_true, String.startsWith_string_iff, String.startsWith_string_iff] at hurl
  refine h ?_
  rcases hurl with ⟨rest, hrest⟩ | ⟨rest, hrest⟩
  · rw [← hrest]
    simp
  · rw [← hrest]
    simp

/-- A path from the root is no address. -/
theorem isUrl_rooted {root : Nat} {names : List (List Char)} (hroot : Path.IsRoot root) :
    isUrl (String.ofList (Path.rooted root names)) = false := by
  unfold isUrl
  rw [Bool.or_eq_false_iff, String.startsWith_string_eq_false_iff, String.startsWith_string_eq_false_iff,
    String.toList_ofList]
  rcases hroot with rfl | rfl
  · simp [Path.rooted]
  · simp [Path.rooted]

/-! ### Canonical names -/

/-- The characters of a path; backslashes separate like slashes. -/
def slashed (file : String) : List Char :=
  file.toList.map fun c => if c = '\\' then '/' else c

theorem backslash_notMem_slashed (file : String) : '\\' ∉ slashed file := by
  intro hmem
  obtain ⟨c, -, hc⟩ := List.mem_map.mp hmem
  split at hc
  · cases hc
  · next hne => exact hne hc

theorem slashed_of_notMem (h : '\\' ∉ file.toList) : slashed file = file.toList := by
  have hkept : ∀ c ∈ file.toList, (if c = '\\' then '/' else c) = id c := by
    intro c hc
    refine if_neg ?_
    rintro rfl
    exact h hc
  rw [slashed, List.map_congr_left hkept, List.map_id]

theorem canonicalFile_eq (h : isUrl file = false) :
    canonicalFile file = .ok (String.ofList (Path.normalizeChars (slashed file))) := by
  rw [canonicalFile, if_neg (by rw [h]; exact Bool.false_ne_true)]
  rfl

/-- The canonical name of a local file is a normalized path, without backslashes. -/
theorem canonicalFile_of_local (h : isUrl file = false) : ∃ cs, '\\' ∉ cs
    ∧ (∀ c ∈ cs, c = '/' ∨ c ∈ file.toList)
    ∧ canonicalFile file = .ok (String.ofList (Path.normalizeChars cs)) := by
  refine ⟨slashed file, backslash_notMem_slashed file, ?_, canonicalFile_eq h⟩
  intro d hmem
  obtain ⟨c, hc, rfl⟩ := List.mem_map.mp hmem
  split
  · exact .inl rfl
  · exact .inr hc

/-- A name without backslashes is its own canonical name. -/
theorem canonicalFile_of_isName (h : IsName file.toList) (hback : '\\' ∉ file.toList) :
    canonicalFile file = .ok file := by
  have hlocal := isUrl_of_notMem h.notMem
  have hhead : file.toList.head? ≠ some '/' := fun hslash => h.notMem (List.mem_of_mem_head? hslash)
  have hroot := Path.rootLength_of_head?_ne hhead
  have hnormalize : Path.normalizeChars file.toList = file.toList := by
    have hresolve : Path.resolve false [file.toList] = [file.toList] := by
      refine Path.resolve_names false fun n hn => ?_
      rw [List.mem_singleton.mp hn]
      exact h
    unfold Path.normalizeChars
    rw [hroot, Text.pieces_of_notMem h.notMem]
    show (if (Text.joinPieces '/' (Path.resolve false [file.toList])).isEmpty then ['.']
      else Text.joinPieces '/' (Path.resolve false [file.toList])) = file.toList
    rw [hresolve]
    show (if file.toList.isEmpty then ['.'] else file.toList) = file.toList
    rw [if_neg (by simpa using h.ne_nil)]
  rw [canonicalFile_eq hlocal, slashed_of_notMem hback, hnormalize, String.ofList_toList]

/-- The scheme of a web address is read from the characters in front of the colon. -/
theorem scheme_of_isUrl (h : isUrl file = true) :
    ∀ u, Url.split "" file = .ok u → u.scheme = "http" ∨ u.scheme = "https" := by
  intro u hu
  unfold isUrl at h
  rw [Bool.or_eq_true, String.startsWith_string_iff, String.startsWith_string_iff] at h
  have hscheme : u.scheme = (Url.splitScheme "" ((file.toList.dropWhile fun c => c.toNat ≤ 0x20).filter
      fun c => c != '\t' && c != '\r' && c != '\n')).1 := by
    simp only [Url.split] at hu
    split at hu
    all_goals
      split at hu
      · cases hu
        rfl
      · cases hu
  rw [hscheme]
  rcases h with ⟨rest, h⟩ | ⟨rest, h⟩
  · left
    rw [← h]
    rfl
  · right
    rw [← h]
    rfl

theorem isUrl_unsplit {u : Url} (h : u.scheme = "http" ∨ u.scheme = "https") : isUrl u.unsplit = true := by
  -- Two slashes follow the scheme: those in front of the authority, or those that the path begins with.
  obtain ⟨rest, hrest⟩ : ∃ rest, u.unsplit = u.scheme ++ ":" ++ String.ofList ('/' :: '/' :: rest) := by
    have hne : u.scheme ≠ "" := by
      rcases h with h | h
      · rw [h]
        decide
      · rw [h]
        decide
    have hknown : Url.withAuthority.contains u.scheme = true := by
      rcases h with h | h
      · rw [h]
        decide
      · rw [h]
        decide
    rw [Url.unsplit]
    simp only [if_neg hne, hknown]
    split
    · exact ⟨_, rfl⟩
    · next hplain =>
      have hdoubled : u.path.take 2 = ['/', '/'] := by
        simp only [Bool.or_eq_true, Bool.and_eq_true, not_or, not_and] at hplain
        simpa [hne] using hplain.2
      obtain ⟨rest, hpath⟩ : ∃ rest, u.path = '/' :: '/' :: rest := by
        have hsplit := List.take_append_drop 2 u.path
        rw [hdoubled] at hsplit
        exact ⟨_, hsplit.symm⟩
      rw [hpath]
      exact ⟨_, rfl⟩
  unfold isUrl
  rw [Bool.or_eq_true, String.startsWith_string_iff, String.startsWith_string_iff, hrest]
  rcases h with h | h
  · rw [h]
    exact .inl ⟨rest, by simp⟩
  · rw [h]
    exact .inr ⟨rest, by simp⟩

/-- The canonical name of a web address is a web address. -/
theorem isUrl_canonicalFile (h : isUrl file = true) (hfile : canonicalFile file = .ok canonical) :
    isUrl canonical = true := by
  rw [canonicalFile, if_pos h] at hfile
  cases hu : Url.split "" file with
  | error e =>
    rw [hu] at hfile
    cases hfile
  | ok u =>
    rw [hu] at hfile
    cases hfile
    -- The scheme is the one that the address was split into.
    exact isUrl_unsplit (scheme_of_isUrl h u hu)

/-- The canonical name of a file without number signs has none. -/
theorem notMem_canonicalFile (hmark : '#' ∉ file.toList) (h : canonicalFile file = .ok canonical) :
    '#' ∉ canonical.toList := by
  -- A normal form has no characters but those of the path, slashes and dots.
  have hnormal : ∀ cs : List Char, '#' ∉ cs → '#' ∉ Path.normalizeChars cs := by
    intro cs hcs hmem
    rcases Path.mem_of_mem_normalizeChars hmem with h | h | h
    · cases h
    · cases h
    · exact hcs h
  cases hurl : isUrl file with
  | false =>
    obtain ⟨cs, -, hcs, hlocal⟩ := canonicalFile_of_local hurl
    rw [hlocal] at h
    cases h
    rw [String.toList_ofList]
    refine hnormal cs fun hmem => ?_
    rcases hcs _ hmem with h | h
    · cases h
    · exact hmark h
  | true =>
    rw [canonicalFile, if_pos hurl] at h
    cases hu : Url.split "" file with
    | error e =>
      rw [hu] at h
      cases h
    | ok u =>
      rw [hu] at h
      cases h
      obtain ⟨hauthority, hpath, hquery, hfragment⟩ := Url.notMem_split hu hmark
      refine Url.notMem_unsplit ?_ hauthority ?_ hquery hfragment
      · rcases scheme_of_isUrl hurl u hu with h | h
        · simp [h]
        · simp [h]
      · dsimp only
        split
        · exact List.not_mem_nil
        · exact hnormal _ hpath

end Locator

end TypedClient
