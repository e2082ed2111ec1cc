import Mathlib.Logic.Relation
import TypedClient.Proofs.Paths

namespace TypedClient

/-!
# Lexical normal forms of paths

A file has many spellings.  What two of them have in common is said here without the stack that computes it: the
slashes at the front of a path make up its root, and of the segments some can be left out, one after the other and in
any order, until nothing more can be left out.  What is then left does not depend on the order, and it is what the
stack comes to.

* `Path.HasRoot` — the root of a path.
* `Path.Shortens`, `Path.Leaves` — one thing that is left out of the segments, and what is left in the end.
* `Path.Shortens.resolve_eq`, `Path.leaves_iff` — leaving something out changes nothing, so there is one end.
* `Path.spelled`, `Path.IsNormal` — the path that is spelled with a root and segments, and paths in normal form.
* `Path.spelled_inj` — root and segments are read back from the path.
* `Locator.isNormal_iff` — the paths in normal form are those that are their own canonical names.
* `Locator.canonicalFile_normalForm` — the canonical name of a file is the normal form of its path.
-/

namespace Path

open Relation (ReflTransGen)

variable {fromRoot : Bool} {cs s : List Char} {root k : Nat}
  {stack segments next left names : List (List Char)}

/-! ### Roots -/

/-- The slashes that make up the root of a path: none for a relative path, two if it begins with exactly two, else
    one. -/
inductive HasRoot : List Char → Nat → Prop
  | relative {cs : List Char} (h : cs.head? ≠ some '/') : HasRoot cs 0
  | one {cs : List Char} (h : cs.head? ≠ some '/') : HasRoot ('/' :: cs) 1
  | two {cs : List Char} (h : cs.head? ≠ some '/') : HasRoot ('/' :: '/' :: cs) 2
  | more (cs : List Char) : HasRoot ('/' :: '/' :: '/' :: cs) 1

theorem HasRoot.eq_rootLength (h : HasRoot cs k) : k = rootLength cs := by
  cases h with
  | relative h => exact (rootLength_of_head?_ne h).symm
  | one h => exact (rootLength_replicate_append (by omega : 1 ≤ 2) h).symm
  | two h => exact (rootLength_replicate_append (by omega : 2 ≤ 2) h).symm
  | more cs =>
    -- Three slashes or more count as one.
    simp [rootLength]

theorem hasRoot_rootLength (cs : List Char) : HasRoot cs (rootLength cs) := by
  obtain ⟨k, hk⟩ : ∃ k, HasRoot cs k := by
    by_cases hfirst : cs.head? = some '/'
    · obtain ⟨cs, rfl⟩ : ∃ rest, cs = '/' :: rest := List.head?_eq_some_iff.mp hfirst
      by_cases hsecond : cs.head? = some '/'
      · obtain ⟨cs, rfl⟩ : ∃ rest, cs = '/' :: rest := List.head?_eq_some_iff.mp hsecond
        by_cases hthird : cs.head? = some '/'
        · obtain ⟨cs, rfl⟩ : ∃ rest, cs = '/' :: rest := List.head?_eq_some_iff.mp hthird
          exact ⟨1, .more cs⟩
        · exact ⟨2, .two hthird⟩
      · exact ⟨1, .one hsecond⟩
    · exact ⟨0, .relative hfirst⟩
  rwa [hk.eq_rootLength] at hk

theorem hasRoot_iff : HasRoot cs k ↔ k = rootLength cs := by
  refine ⟨HasRoot.eq_rootLength, ?_⟩
  rintro rfl
  exact hasRoot_rootLength cs

theorem HasRoot.le (h : HasRoot cs k) : k ≤ 2 := by
  cases h <;> omega

/-! ### Segments that can be left out -/

/-- What can be left out of the segments of a path: an empty segment, a dot, a name with the step back behind it, and
    a step back at the root. -/
inductive Shortens (fromRoot : Bool) : List (List Char) → List (List Char) → Prop
  | empty (front back : List (List Char)) : Shortens fromRoot (front ++ [] :: back) (front ++ back)
  | dot (front back : List (List Char)) : Shortens fromRoot (front ++ ['.'] :: back) (front ++ back)
  | around (front back : List (List Char)) {n : List Char} (hn : IsName n) :
    Shortens fromRoot (front ++ n :: ['.', '.'] :: back) (front ++ back)
  | atRoot (back : List (List Char)) (hroot : fromRoot = true) : Shortens fromRoot (['.', '.'] :: back) back

/-- What is left of segments when nothing more can be left out. -/
def Leaves (fromRoot : Bool) (segments left : List (List Char)) : Prop :=
  ReflTransGen (Shortens fromRoot) segments left ∧ ∀ next, ¬ Shortens fromRoot left next

/-- **One thing left out.**  The stack comes to the same without it. -/
theorem Shortens.resolve_eq (h : Shortens fromRoot segments next) :
    resolve fromRoot next = resolve fromRoot segments := by
  cases h with
  | empty front back => simp only [resolve, List.foldl_append, List.foldl_cons, push_nil]
  | dot front back => simp only [resolve, List.foldl_append, List.foldl_cons, push_dot]
  | around front back hn =>
    simp only [resolve, List.foldl_append, List.foldl_cons, hn.push_eq, hn.push_dots]
  | atRoot back hroot =>
    subst hroot
    rfl

theorem Shortens.subset (h : Shortens fromRoot segments next) : next ⊆ segments := by
  cases h with
  | empty front back => exact ((List.sublist_cons_self _ back).append_left front).subset
  | dot front back => exact ((List.sublist_cons_self _ back).append_left front).subset
  | around front back hn =>
    exact (((List.sublist_cons_self _ back).trans (List.sublist_cons_self _ _)).append_left front).subset
  | atRoot => exact List.subset_cons_self _ next

theorem resolve_eq_of_shortens (h : ReflTransGen (Shortens fromRoot) segments left) :
    resolve fromRoot left = resolve fromRoot segments := by
  induction h with
  | refl => rfl
  | tail _ hstep ih => rw [hstep.resolve_eq, ih]

/-- Segments that differ in what can be left out come to the same. -/
theorem resolve_eq_of_eqvGen (h : Relation.EqvGen (Shortens fromRoot) segments next) :
    resolve fromRoot segments = resolve fromRoot next := by
  induction h with
  | rel _ _ hstep => exact hstep.resolve_eq.symm
  | refl _ => rfl
  | symm _ _ _ ih => exact ih.symm
  | trans _ _ _ _ _ ih ih' => exact ih.trans ih'

theorem subset_of_shortens (h : ReflTransGen (Shortens fromRoot) segments left) : left ⊆ segments := by
  induction h with
  | refl => exact List.Subset.refl _
  | tail _ hstep ih => exact List.Subset.trans hstep.subset ih

/-! ### What the stack comes to -/

/-- What the stack holds in the end is left of the segments. -/
theorem shortens_foldl (h : IsStack fromRoot stack) (hs : ∀ s ∈ segments, '/' ∉ s) :
    ReflTransGen (Shortens fromRoot) (stack.reverse ++ segments) (segments.foldl (push fromRoot) stack).reverse := by
  -- The induction is on the segments that are still to come; behind the stack, they make up the path so far.
  induction segments generalizing stack with
  | nil => simpa using ReflTransGen.refl
  | cons s rest ih =>
    rw [List.forall_mem_cons] at hs
    have hrest := ih (h.push hs.1) hs.2
    rw [List.foldl_cons]
    have hpushed := h.pushed hs.1
    generalize push fromRoot stack s = pushed at hpushed hrest ⊢
    cases hpushed with
    | skipped _ hs =>
      rcases hs with rfl | rfl
      · exact .head (.empty _ _) hrest
      · exact .head (.dot _ _) hrest
    | named => rwa [List.reverse_cons, List.append_assoc, List.singleton_append] at hrest
    | takenBack _ hn =>
      rw [List.reverse_cons, List.append_assoc, List.singleton_append]
      exact .head (.around _ _ hn) hrest
    | kept => rwa [List.reverse_cons, List.append_assoc, List.singleton_append] at hrest
    | atRoot hroot => exact .head (.atRoot _ hroot) hrest

/-- Steps back, and then names.  At the root there are no steps back. -/
def IsLeft (fromRoot : Bool) (left : List (List Char)) : Prop :=
  ∃ k names, left = List.replicate k ['.', '.'] ++ names ∧ (∀ n ∈ names, IsName n) ∧ (fromRoot = true → k = 0)

theorem isLeft_resolve (fromRoot : Bool) (hs : ∀ s ∈ segments, '/' ∉ s) :
    IsLeft fromRoot (resolve fromRoot segments) :=
  exists_resolve_eq fromRoot hs

/-- A segment that is left is a step back or a name. -/
theorem IsLeft.eq_or_isName (h : IsLeft fromRoot left) (hs : s ∈ left) : s = ['.', '.'] ∨ IsName s := by
  obtain ⟨k, names, rfl, hnames, -⟩ := h
  exact (List.mem_append.mp hs).imp List.eq_of_mem_replicate (hnames s)

theorem IsLeft.ne_nil (h : IsLeft fromRoot left) (hs : s ∈ left) : s ≠ [] := by
  rcases h.eq_or_isName hs with rfl | hname
  · simp
  · exact hname.ne_nil

theorem IsLeft.notMem (h : IsLeft fromRoot left) (hs : s ∈ left) : '/' ∉ s := by
  rcases h.eq_or_isName hs with rfl | hname
  · simp
  · exact hname.notMem

/-- Before a step back there are steps back only. -/
theorem IsLeft.pairwise (h : IsLeft fromRoot left) : left.Pairwise fun a b => b = ['.', '.'] → a = ['.', '.'] := by
  obtain ⟨k, names, rfl, hnames, -⟩ := h
  refine List.pairwise_append.mpr ⟨?_, ?_, ?_⟩
  · exact List.pairwise_replicate.mpr (.inr fun _ => rfl)
  · exact List.pairwise_of_forall_mem_list fun a _ b hb heq => absurd heq (hnames b hb).ne_dots
  · exact fun a ha b _ _ => List.eq_of_mem_replicate ha

/-- Nothing can be left out of what is left. -/
theorem IsLeft.not_shortens (h : IsLeft fromRoot left) (next : List (List Char)) : ¬ Shortens fromRoot left next := by
  intro hstep
  cases hstep with
  | empty front back => exact h.ne_nil (s := []) (by simp) rfl
  | dot front back =>
    rcases h.eq_or_isName (s := ['.']) (by simp) with hdots | hname
    · simp at hdots
    · exact hname.ne_dot rfl
  | around front back hn =>
    -- A name stands before this step back, where only steps back can stand.
    have hpair := (List.pairwise_append.mp h.pairwise).2.1
    exact hn.ne_dots ((List.pairwise_cons.mp hpair).1 _ List.mem_cons_self rfl)
  | atRoot back hroot =>
    obtain ⟨k, names, heq, hnames, hk⟩ := h
    rw [hk hroot, List.replicate_zero, List.nil_append] at heq
    exact (hnames ['.', '.'] (heq ▸ List.mem_cons_self)).ne_dots rfl

/-- **There is one end.**  Whatever is left out first, what is left is what the stack comes to. -/
theorem leaves_iff (hs : ∀ s ∈ segments, '/' ∉ s) :
    Leaves fromRoot segments left ↔ left = resolve fromRoot segments := by
  have hreduces : ∀ {segments : List (List Char)}, (∀ s ∈ segments, '/' ∉ s) →
      ReflTransGen (Shortens fromRoot) segments (resolve fromRoot segments) := fun {segments} hs => by
    have hempty : IsStack fromRoot [] := ⟨[], 0, rfl, by simp, fun _ => rfl⟩
    exact shortens_foldl hempty hs
  constructor
  · rintro ⟨hleft, hend⟩
    -- What is left goes on to what the stack makes of it, and that can only be no step at all.
    rw [← resolve_eq_of_shortens hleft]
    rcases ReflTransGen.cases_head (hreduces fun s h => hs s (subset_of_shortens hleft h)) with heq | ⟨next, hstep, -⟩
    · exact heq
    · exact absurd hstep (hend next)
  · rintro rfl
    exact ⟨hreduces hs, (isLeft_resolve fromRoot hs).not_shortens⟩

theorem IsLeft.resolve_eq (h : IsLeft fromRoot left) : resolve fromRoot left = left := by
  have hend : Leaves fromRoot left left := ⟨.refl, h.not_shortens⟩
  exact ((leaves_iff fun s hs => h.notMem hs).mp hend).symm

/-! ### Paths in normal form -/

/-- The path with these slashes in front and these segments; a path to the directory itself is a dot. -/
def spelled (root : Nat) (left : List (List Char)) : List Char :=
  if (rooted root left).isEmpty then ['.'] else rooted root left

theorem normalizeChars_eq_spelled (cs : List Char) :
    normalizeChars cs = spelled (rootLength cs) (resolve (rootLength cs != 0) (Text.pieces '/' cs)) := rfl

/-- A path in normal form is a dot, or it has slashes in front and behind them segments that are steps back and then
    names, without any backslash.  No step back follows a root. -/
def IsNormal (cs : List Char) : Prop :=
  '\\' ∉ cs ∧ (cs = ['.'] ∨ cs ≠ [] ∧ ∃ root k names, root ≤ 2
    ∧ cs = rooted root (List.replicate k ['.', '.'] ++ names) ∧ (∀ n ∈ names, IsName n) ∧ (root ≠ 0 → k = 0))

theorem IsLeft.joinPieces_eq_nil (h : IsLeft fromRoot left) (hempty : Text.joinPieces '/' left = []) : left = [] := by
  by_contra hne
  have hpieces := Text.pieces_joinPieces hne fun s hs => h.notMem hs
  rw [hempty] at hpieces
  exact h.ne_nil (s := []) (by simp [← hpieces, Text.pieces]) rfl

/-- The root of a path that is spelled, and what the stack makes of its segments. -/
theorem IsLeft.spelled_eq (hroot : root ≤ 2) (h : IsLeft (root != 0) left) :
    rootLength (spelled root left) = root ∧ resolve (root != 0) (Text.pieces '/' (spelled root left)) = left := by
  unfold spelled
  split
  · next hempty =>
    -- Only a relative path without segments is spelled as a dot.
    obtain ⟨hslashes, hjoin⟩ := List.append_eq_nil_iff.mp (List.isEmpty_iff.mp hempty)
    obtain rfl : root = 0 := by simpa using hslashes
    rw [h.joinPieces_eq_nil hjoin]
    exact ⟨rfl, rfl⟩
  · constructor
    · exact rootLength_replicate_append hroot (head?_joinPieces fun s hs => ⟨h.ne_nil hs, h.notMem hs⟩)
    · rw [rooted, pieces_replicate_append, resolve_replicate_nil]
      by_cases hne : left = []
      · subst hne
        rfl
      · rw [Text.pieces_joinPieces hne fun s hs => h.notMem hs, h.resolve_eq]

/-- Different roots or different segments are spelled differently. -/
theorem spelled_inj {root' : Nat} {left' : List (List Char)} (hroot : root ≤ 2) (h : IsLeft (root != 0) left)
    (hroot' : root' ≤ 2) (h' : IsLeft (root' != 0) left') :
    spelled root left = spelled root' left' ↔ root = root' ∧ left = left' := by
  constructor
  · intro heq
    obtain ⟨hlength, hresolve⟩ := h.spelled_eq hroot
    obtain ⟨hlength', hresolve'⟩ := h'.spelled_eq hroot'
    rw [heq, hlength'] at hlength
    subst hlength
    rw [heq, hresolve'] at hresolve
    exact ⟨rfl, hresolve.symm⟩
  · rintro ⟨rfl, rfl⟩
    rfl

/-- Spelling what was read from a path gives the same path again. -/
theorem normalizeChars_spelled (hroot : root ≤ 2) (h : IsLeft (root != 0) left) :
    normalizeChars (spelled root left) = spelled root left := by
  obtain ⟨hlength, hresolve⟩ := h.spelled_eq hroot
  rw [normalizeChars_eq_spelled, hlength, hresolve]

theorem isNormal_spelled (hroot : root ≤ 2) (h : IsLeft (root != 0) left) (hback : '\\' ∉ spelled root left) :
    IsNormal (spelled root left) := by
  refine ⟨hback, ?_⟩
  unfold spelled
  split
  · exact .inl rfl
  · next hne =>
    obtain ⟨k, names, rfl, hnames, hk⟩ := h
    exact .inr ⟨fun hempty => hne (List.isEmpty_iff.mpr hempty), root, k, names, hroot, rfl, hnames, fun hroot => hk (by simpa using hroot)⟩

theorem IsNormal.exists_eq_spelled (h : IsNormal cs) :
    ∃ root left, root ≤ 2 ∧ IsLeft (root != 0) left ∧ cs = spelled root left := by
  obtain ⟨-, rfl | ⟨hne, root, k, names, hroot, heq, hnames, hk⟩⟩ := h
  · exact ⟨0, [], by omega, ⟨0, [], rfl, by simp, fun _ => rfl⟩, rfl⟩
  · refine ⟨root, _, hroot, ⟨k, names, rfl, hnames, fun hroot => hk (by simpa using hroot)⟩, ?_⟩
    rw [spelled, ← heq, if_neg fun hempty => hne (List.isEmpty_iff.mp hempty)]

end Path

namespace Locator

open TypedClient.Path (IsNormal IsLeft HasRoot Shortens Leaves spelled)

variable {file other : String}

/-- What stands between the slashes and backslashes of a path. -/
def segments (file : String) : List (List Char) :=
  Text.pieces '/' (slashed file)

theorem notMem_of_mem_segments {s : List Char} (hs : s ∈ segments file) : '/' ∉ s :=
  Text.notMem_of_mem_pieces hs

theorem backslash_notMem_normalizeChars (file : String) : '\\' ∉ Path.normalizeChars (slashed file) := by
  intro hmem
  rcases Path.mem_of_mem_normalizeChars hmem with h | h | h
  · cases h
  · cases h
  · exact backslash_notMem_slashed file h

/-- A path in normal form is no web address: behind the colon of an address there is an empty segment. -/
theorem isUrl_of_isNormal (h : IsNormal file.toList) : isUrl file = false := by
  rw [Bool.eq_false_iff]
  intro hurl
  obtain ⟨scheme, rest, hscheme, hfile⟩ : ∃ scheme rest, ('/' ∉ scheme ∧ scheme ≠ [])
      ∧ file.toList = scheme ++ '/' :: '/' :: rest := by
    unfold isUrl at hurl
    rw [Bool.or_eq_true, String.startsWith_string_iff, String.startsWith_string_iff] at hurl
    rcases hurl with ⟨rest, hrest⟩ | ⟨rest, hrest⟩
    · exact ⟨"http:".toList, rest, by simp, by rw [← hrest]; rfl⟩
    · exact ⟨"https:".toList, rest, by simp, by rw [← hrest]; rfl⟩
  obtain ⟨root, left, hroot, hleft, heq⟩ := h.exists_eq_spelled
  have hhead : file.toList.head? ≠ some '/' := by
    rw [hfile, List.head?_append_of_ne_nil _ hscheme.2]
    exact fun hslash => hscheme.1 (List.mem_of_mem_head? hslash)
  have hrelative : root = 0 := by
    rw [← (hleft.spelled_eq hroot).1, ← heq]
    exact Path.rootLength_of_head?_ne hhead
  subst hrelative
  rw [spelled, Path.rooted, List.replicate_zero, List.nil_append] at heq
  split at heq
  · have hmem : '/' ∈ file.toList := by simp [hfile]
    rw [heq] at hmem
    simp at hmem
  · next hne =>
    have hpieces : Text.pieces '/' file.toList = left := by
      rw [heq]
      refine Text.pieces_joinPieces ?_ fun s hs => hleft.notMem hs
      rintro rfl
      exact hne rfl
    -- Between the two slashes of the address there is a segment without characters.
    refine hleft.ne_nil (s := []) ?_ rfl
    rw [← hpieces, hfile, Text.pieces_append_mark, Text.pieces_cons_mark]
    simp

/-- **Normal forms.**  The paths in normal form are those that are their own canonical names. -/
theorem isNormal_iff (h : isUrl file = false) : IsNormal file.toList ↔ canonicalFile file = .ok file := by
  rw [canonicalFile_eq h, Except.ok.injEq]
  constructor
  · intro hnormal
    obtain ⟨root, left, hroot, hleft, heq⟩ := hnormal.exists_eq_spelled
    rw [slashed_of_notMem hnormal.1, heq, Path.normalizeChars_spelled hroot hleft, ← heq, String.ofList_toList]
  · intro heq
    rw [← heq, String.toList_ofList, Path.normalizeChars_eq_spelled]
    refine Path.isNormal_spelled (Path.hasRoot_rootLength _).le
      (Path.isLeft_resolve _ fun s hs => notMem_of_mem_segments hs) ?_
    rw [← Path.normalizeChars_eq_spelled]
    exact backslash_notMem_normalizeChars file

/-- The canonical name of a file is spelled with the root of the path and with what is left of its segments. -/
theorem exists_spelled_eq (h : isUrl file = false) :
    ∃ root left, HasRoot (slashed file) root ∧ Leaves (root != 0) (segments file) left
      ∧ canonicalFile file = .ok (String.ofList (spelled root left)) := by
  refine ⟨Path.rootLength (slashed file), Path.resolve _ (segments file), Path.hasRoot_rootLength _, ?_,
    canonicalFile_eq h⟩
  exact (Path.leaves_iff fun s hs => notMem_of_mem_segments hs).mpr rfl

/-- Files have one canonical name if they have one root and the same is left of their segments. -/
theorem canonicalFile_eq_iff {root : Nat} {left : List (List Char)} (h : isUrl other = false)
    (hroot : root ≤ 2) (hleft : IsLeft (root != 0) left) :
    canonicalFile other = .ok (String.ofList (spelled root left))
      ↔ HasRoot (slashed other) root ∧ Leaves (root != 0) (segments other) left := by
  have hsegments : ∀ s ∈ segments other, '/' ∉ s := fun s hs => notMem_of_mem_segments hs
  have hspelled : canonicalFile other = .ok (String.ofList (spelled root left))
      ↔ Path.rootLength (slashed other) = root
        ∧ Path.resolve (Path.rootLength (slashed other) != 0) (segments other) = left := by
    rw [canonicalFile_eq h, Except.ok.injEq, String.ofList_inj, Path.normalizeChars_eq_spelled]
    exact Path.spelled_inj (Path.hasRoot_rootLength _).le (Path.isLeft_resolve _ hsegments) hroot hleft
  rw [hspelled, Path.hasRoot_iff, Path.leaves_iff hsegments]
  constructor
  · rintro ⟨rfl, rfl⟩
    exact ⟨rfl, rfl⟩
  · rintro ⟨rfl, rfl⟩
    exact ⟨rfl, rfl⟩

/-- **Canonical names are normal forms.**  The canonical name of a file is spelled with the root of its path and with
    what is left of its segments when everything is left out that says nothing.  It is a path in normal form and its
    own canonical name.  Other files have the same name exactly if they have the same root and the same is left of
    their segments; so it does not matter what is put in or left out on the way, nor which way the slashes lean. -/
theorem canonicalFile_normalForm (h : isUrl file = false) :
    ∃ canonical root left, canonicalFile file = .ok canonical
      ∧ HasRoot (slashed file) root ∧ Leaves (root != 0) (segments file) left
      ∧ canonical.toList = spelled root left ∧ IsNormal canonical.toList
      ∧ isUrl canonical = false ∧ canonicalFile canonical = .ok canonical
      ∧ (∀ other, isUrl other = false → (canonicalFile other = canonicalFile file
          ↔ HasRoot (slashed other) root ∧ Leaves (root != 0) (segments other) left))
      ∧ ∀ other, isUrl other = false → HasRoot (slashed other) root →
          Relation.EqvGen (Shortens (root != 0)) (segments file) (segments other) →
          canonicalFile other = .ok canonical := by
  obtain ⟨root, left, hroot, hleft, hcanonical⟩ := exists_spelled_eq h
  have hleftIs : IsLeft (root != 0) left := by
    rw [(Path.leaves_iff fun s hs => notMem_of_mem_segments hs).mp hleft]
    exact Path.isLeft_resolve _ fun s hs => notMem_of_mem_segments hs
  have hnormal : IsNormal (String.ofList (spelled root left)).toList := by
    rw [String.toList_ofList]
    refine Path.isNormal_spelled hroot.le hleftIs ?_
    rw [canonicalFile_eq h, Except.ok.injEq, String.ofList_inj] at hcanonical
    rw [← hcanonical]
    exact backslash_notMem_normalizeChars file
  have hlocal := isUrl_of_isNormal hnormal
  -- A path in normal form is a file again, so the name can be asked for its own name.
  refine ⟨_, root, left, hcanonical, hroot, hleft, String.toList_ofList, hnormal, hlocal,
    (isNormal_iff hlocal).mp hnormal, ?_, ?_⟩
  · intro other hother
    rw [hcanonical]
    exact canonicalFile_eq_iff hother hroot.le hleftIs
  · intro other hother hsame hsegments
    refine (canonicalFile_eq_iff hother hroot.le hleftIs).mpr ⟨hsame, ?_⟩
    rw [Path.leaves_iff fun s hs => notMem_of_mem_segments hs] at hleft ⊢
    rw [hleft]
    exact Path.resolve_eq_of_eqvGen hsegments

/-- A dot, a step around, doubled slashes and a backslash do not make another file. -/
theorem spellings_normalForm :
    isUrl "./x/..\\a//b.yaml" = false ∧ ∃ canonical root left, canonicalFile "./x/..\\a//b.yaml" = .ok canonical
      ∧ HasRoot (slashed "./x/..\\a//b.yaml") root ∧ Leaves (root != 0) (segments "./x/..\\a//b.yaml") left
      ∧ canonical.toList = spelled root left ∧ IsNormal canonical.toList
      ∧ canonicalFile "a/b.yaml" = .ok canonical ∧ canonicalFile "../a/b.yaml" ≠ .ok canonical := by
  have hlocal : isUrl "./x/..\\a//b.yaml" = false := by decide +kernel
  obtain ⟨canonical, root, left, hcanonical, hroot, hleft, hspelled, hnormal, -, -, -, -⟩ :=
    canonicalFile_normalForm hlocal
  have hname : canonicalFile "./x/..\\a//b.yaml" = .ok "a/b.yaml" := by
    rw [canonicalFile_eq hlocal]
    rfl
  rw [hname, Except.ok.injEq] at hcanonical
  subst hcanonical
  refine ⟨hlocal, _, root, left, hname, hroot, hleft, hspelled, hnormal, ?_, ?_⟩
  · rw [canonicalFile_eq (by decide +kernel)]
    rfl
  · rw [canonicalFile_eq (by decide +kernel), ne_eq, Except.ok.injEq]
    decide +kernel

end Locator

end TypedClient
