import TypedClient.Text.Surrogate
import Mathlib.Data.Char
import Mathlib.Data.List.Lex
import Mathlib.Data.Prod.Lex

namespace TypedClient.Text

/-!
# The order of texts

Texts are put in order by the numbers of their characters.  This is an order in the strict sense: any
two texts can be compared, and no two different texts come equally early.  So a list of different texts
has one sorted form.

* `sortKey` — what a text is compared by.
* `isOrdered_total`, `isOrdered_trans`, `isOrdered_antisymm` — the laws of an order.
* `mergeSort_eq_of_perm` — lists with the same members are sorted into one list.
-/

/-- The numbers of a text and, after them, the characters that it is written with. -/
def sortKey (s : String) : List Nat ×ₗ List Char :=
  toLex (numbers s.toList, s.toList)

theorem sortKey_injective : Function.Injective sortKey := by
  intro s t h
  have hlist : s.toList = t.toList := congrArg (fun x => (ofLex x).2) h
  exact String.toList_inj.mp hlist

theorem isOrdered_iff {s t : String} : isOrdered s t = true ↔ sortKey s ≤ sortKey t := by
  rw [sortKey, sortKey, Prod.Lex.toLex_le_toLex]
  simp [isOrdered]

theorem isOrdered_total (s t : String) : (isOrdered s t || isOrdered t s) = true := by
  rw [Bool.or_eq_true, isOrdered_iff, isOrdered_iff]
  exact le_total _ _

theorem isOrdered_refl (s : String) : isOrdered s s = true :=
  isOrdered_iff.mpr le_rfl

theorem isOrdered_trans (s t u : String) (h : isOrdered s t = true) (h' : isOrdered t u = true) :
    isOrdered s u = true := by
  rw [isOrdered_iff] at *
  exact le_trans h h'

theorem isOrdered_antisymm {s t : String} (h : isOrdered s t = true) (h' : isOrdered t s = true) :
    s = t := by
  rw [isOrdered_iff] at *
  exact sortKey_injective (le_antisymm h h')

/-! ### Sorting by a name -/

section Sorting

variable {α : Type}

theorem pairwise_mergeSort (name : α → String) (xs : List α) :
    (xs.mergeSort fun a b => isOrdered (name a) (name b)).Pairwise
      fun a b => isOrdered (name a) (name b) :=
  List.pairwise_mergeSort (fun a b c => isOrdered_trans (name a) (name b) (name c))
    (fun a b => isOrdered_total (name a) (name b)) xs

/-- Lists with the same members are sorted into one list, if different members have different names. -/
theorem mergeSort_eq_of_perm {name : α → String} {xs ys : List α} (h : xs.Perm ys)
    (hname : ∀ a ∈ xs, ∀ b ∈ xs, name a = name b → a = b) :
    (xs.mergeSort fun a b => isOrdered (name a) (name b))
      = ys.mergeSort fun a b => isOrdered (name a) (name b) := by
  have hxs := List.mergeSort_perm xs fun a b => isOrdered (name a) (name b)
  have hys := List.mergeSort_perm ys fun a b => isOrdered (name a) (name b)
  have hperm := hxs.trans (h.trans hys.symm)
  refine hperm.eq_of_pairwise ?_ (pairwise_mergeSort name xs) (pairwise_mergeSort name ys)
  intro a b ha hb hab hba
  have hbx := h.mem_iff.mpr (hys.mem_iff.mp hb)
  exact hname a (hxs.mem_iff.mp ha) b hbx (isOrdered_antisymm hab hba)

end Sorting

end TypedClient.Text
