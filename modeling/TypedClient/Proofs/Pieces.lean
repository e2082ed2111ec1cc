import TypedClient.Text.Cut
import Mathlib.Data.List.Basic
import Mathlib.Data.List.TakeWhile

namespace TypedClient.Text

/-!
# Pieces of a text

A text is cut at its marks and put together again.

* `pieces_append_mark` — a mark ends the pieces before it.
* `joinPieces_pieces`, `pieces_joinPieces` — a text and its pieces determine each other.
* `exists_cutLast` — a text ends with what follows its last mark.
-/

variable {mark : Char} {cs : List Char} {ps : List (List Char)}

/-! ### Pieces -/

/-- Cutting into pieces is splitting at the mark. -/
theorem pieces_eq_splitOn (mark : Char) (cs : List Char) : pieces mark cs = cs.splitOn mark := by
  induction cs with
  | nil => rfl
  | cons c cs ih =>
    rw [List.splitOn_cons_eq_if_modifyHead, pieces, ih]
    by_cases hc : c = mark
    · rw [if_pos hc, if_pos (by simpa using hc)]
    · rw [if_neg hc, if_neg (by simpa using hc)]
      obtain ⟨p, ps, hps⟩ := List.exists_cons_of_ne_nil (List.splitOn_ne_nil mark cs)
      rw [hps]
      rfl

theorem pieces_cons_mark (mark : Char) (cs : List Char) :
    pieces mark (mark :: cs) = [] :: pieces mark cs := by
  rw [pieces, if_pos rfl]

/-- A character that is no mark belongs to the first piece. -/
theorem pieces_cons_of_ne {c : Char} (h : c ≠ mark) (cs : List Char) :
    ∃ p ps, pieces mark cs = p :: ps ∧ pieces mark (c :: cs) = (c :: p) :: ps := by
  obtain ⟨p, ps, hps⟩ := List.exists_cons_of_ne_nil (List.splitOn_ne_nil mark cs)
  rw [← pieces_eq_splitOn] at hps
  refine ⟨p, ps, hps, ?_⟩
  rw [pieces, if_neg h, hps]

theorem pieces_of_notMem (h : mark ∉ cs) : pieces mark cs = [cs] := by
  rw [pieces_eq_splitOn, List.splitOn_eq_singleton h]

/-- A mark ends the pieces before it. -/
theorem pieces_append_mark (mark : Char) (xs ys : List Char) :
    pieces mark (xs ++ mark :: ys) = pieces mark xs ++ pieces mark ys := by
  simp only [pieces_eq_splitOn, List.splitOn_append_cons_self]

theorem notMem_of_mem_pieces {p : List Char} (h : p ∈ pieces mark cs) : mark ∉ p := by
  induction cs generalizing p with
  | nil =>
    rw [pieces, List.mem_singleton] at h
    simp [h]
  | cons c cs ih =>
    by_cases hc : c = mark
    · subst hc
      rw [pieces_cons_mark] at h
      rcases List.mem_cons.mp h with rfl | h
      · simp
      · exact ih h
    · obtain ⟨q, qs, hcs, hcons⟩ := pieces_cons_of_ne hc cs
      rw [hcs] at ih
      rw [hcons] at h
      rcases List.mem_cons.mp h with rfl | h
      · rw [List.mem_cons, not_or]
        exact ⟨Ne.symm hc, ih List.mem_cons_self⟩
      · exact ih (List.mem_cons_of_mem _ h)

/-! ### Pieces put together -/

theorem joinPieces_cons (mark : Char) (p : List Char) (h : ps ≠ []) :
    joinPieces mark (p :: ps) = p ++ mark :: joinPieces mark ps := by
  cases ps with
  | nil => exact absurd rfl h
  | cons q qs => rfl

theorem joinPieces_eq_intercalate (mark : Char) (ps : List (List Char)) :
    joinPieces mark ps = [mark].intercalate ps := by
  induction ps with
  | nil => rfl
  | cons p ps ih =>
    by_cases h : ps = []
    · subst h
      exact List.intercalate_singleton.symm
    · rw [joinPieces_cons mark p h, List.intercalate_cons_of_ne_nil h, ih]
      simp

theorem joinPieces_append {qs : List (List Char)} (hps : ps ≠ []) (hqs : qs ≠ []) :
    joinPieces mark (ps ++ qs) = joinPieces mark ps ++ mark :: joinPieces mark qs := by
  induction ps with
  | nil => exact absurd rfl hps
  | cons p ps ih =>
    by_cases h : ps = []
    · subst h
      exact joinPieces_cons mark p hqs
    · have happend : ps ++ qs ≠ [] := by simp [h]
      rw [List.cons_append, joinPieces_cons mark p happend, ih h, joinPieces_cons mark p h,
        List.append_assoc]
      rfl

/-- A text is its pieces put together. -/
theorem joinPieces_pieces (mark : Char) (cs : List Char) : joinPieces mark (pieces mark cs) = cs := by
  rw [joinPieces_eq_intercalate, pieces_eq_splitOn, List.intercalate_splitOn]

/-- Pieces without marks are the pieces of the text that they make. -/
theorem pieces_joinPieces (hne : ps ≠ []) (h : ∀ p ∈ ps, mark ∉ p) :
    pieces mark (joinPieces mark ps) = ps := by
  rw [joinPieces_eq_intercalate, pieces_eq_splitOn, List.splitOn_intercalate mark h hne]

theorem mem_joinPieces {c : Char} (hc : c ≠ mark) : c ∈ joinPieces mark ps ↔ ∃ p ∈ ps, c ∈ p := by
  induction ps with
  | nil => simp [joinPieces]
  | cons p ps ih =>
    by_cases hps : ps = []
    · subst hps
      simp [joinPieces]
    · rw [joinPieces_cons mark p hps, List.mem_append, List.mem_cons, ih, List.exists_mem_cons_iff]
      simp [hc]

theorem mem_of_mem_pieces {c : Char} (hc : c ≠ mark) {p : List Char} (h : p ∈ pieces mark cs) (hp : c ∈ p) :
    c ∈ cs := by
  rw [← joinPieces_pieces mark cs, mem_joinPieces hc]
  exact ⟨p, h, hp⟩

/-- The mark does not stand before its first occurrence. -/
theorem notMem_before (mark : Char) (cs : List Char) : mark ∉ before mark cs := by
  intro hmem
  have hne := List.mem_takeWhile_imp hmem
  rw [bne_self_eq_false] at hne
  cases hne

/-! ### The last piece -/

theorem takeWhile_ne_of_notMem (h : mark ∉ cs) (rest : List Char) :
    (cs ++ rest).takeWhile (· != mark) = cs ++ rest.takeWhile (· != mark) := by
  refine List.takeWhile_append_of_pos fun c hc => ?_
  rw [bne_iff_ne]
  rintro rfl
  exact h hc

/-- A text is cut behind its last mark. -/
theorem cutLast_append_mark {xs ys : List Char} (h : mark ∉ ys) :
    cutLast mark (xs ++ mark :: ys) = (xs ++ [mark], ys) := by
  have htail : ((xs ++ mark :: ys).reverse.takeWhile (· != mark)).reverse = ys := by
    have hreverse : (xs ++ mark :: ys).reverse = ys.reverse ++ mark :: xs.reverse := by simp
    rw [hreverse, takeWhile_ne_of_notMem (by simpa using h)]
    simp
  have hsplit : xs ++ mark :: ys = (xs ++ [mark]) ++ ys := by simp
  have hlength : (xs ++ mark :: ys).length - ys.length = (xs ++ [mark]).length := by
    simp only [List.length_append, List.length_cons, List.length_nil]
    omega
  rw [cutLast]
  simp only [htail, hlength]
  rw [hsplit, List.take_left']
  rfl

theorem cutLast_of_notMem (h : mark ∉ cs) : cutLast mark cs = ([], cs) := by
  have htail : (cs.reverse.takeWhile (· != mark)).reverse = cs := by
    have hreverse : mark ∉ cs.reverse := by simpa using h
    have htake := takeWhile_ne_of_notMem hreverse []
    rw [List.append_nil, List.takeWhile_nil, List.append_nil] at htake
    rw [htake, List.reverse_reverse]
  rw [cutLast]
  simp [htail]

/-- Every text ends with what follows its last mark. -/
theorem exists_cutLast (mark : Char) (cs : List Char) : mark ∉ (cutLast mark cs).2
    ∧ (cs = (cutLast mark cs).2 ∨ ∃ xs, cs = xs ++ mark :: (cutLast mark cs).2) := by
  by_cases h : mark ∈ cs
  · obtain ⟨ys, xs, hsplit, hys⟩ := List.eq_append_cons_of_mem (List.mem_reverse.mpr h)
    have hcs : cs = xs.reverse ++ mark :: ys.reverse := by
      rw [← List.reverse_reverse cs, hsplit]
      simp
    have hlast : mark ∉ ys.reverse := by simpa using hys
    rw [hcs, cutLast_append_mark hlast]
    exact ⟨hlast, .inr ⟨_, rfl⟩⟩
  · rw [cutLast_of_notMem h]
    exact ⟨h, .inl rfl⟩

end TypedClient.Text
