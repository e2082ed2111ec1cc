import TypedClient.Logged
import Mathlib.Data.List.Forall2

namespace TypedClient

/-!
# Results taken apart

A computation that gives a result has given the results of all of its steps, and its log is the logs of
the steps one after the other.  The lemmas of this file say so for every way in which computations are
put together, so that no later proof looks into a `do` block.

* `Except.bind_eq_ok` — a bind of results succeeds exactly when both steps do.
* `Akin` — two results that are the same, or failures for reasons of their own.
* `exists_of_forall₂` — a result of a list comes from one of the inputs.
* `Logged.bind_eq_ok` — the same with logs.
* `Logged.mapM_eq_ok` — the steps of a computation over a list.
-/

/-! ### Results -/

namespace Except

variable {ε α β : Type}

theorem bind_eq_ok {x : Except ε α} {f : α → Except ε β} {b : β} :
    (x >>= f) = .ok b ↔ ∃ a, x = .ok a ∧ f a = .ok b := by
  cases x with
  | error e => simp [bind, Except.bind]
  | ok a => simp [bind, Except.bind]

theorem pure_eq_ok {a b : α} : (pure a : Except ε α) = .ok b ↔ a = b := by
  simp [pure, Except.pure]

@[simp] theorem ok_bind (a : α) (f : α → Except ε β) : Except.ok a >>= f = f a := rfl

@[simp] theorem error_bind (e : ε) (f : α → Except ε β) : Except.error e >>= f = .error e := rfl

theorem map_eq_ok {x : Except ε α} {f : α → β} {b : β} :
    x.map f = .ok b ↔ ∃ a, x = .ok a ∧ f a = b := by
  cases x with
  | error e => simp [Except.map]
  | ok a => simp [Except.map]

/-- Results that can be compared are compared by what they give. -/
theorem eq_ok_of_toOption {x : Except ε α} {a : α} (h : x.toOption = some a) : x = .ok a := by
  cases x with
  | error e => cases h
  | ok b => rw [Option.some.inj h]

/-- A computation over a list succeeds exactly when every step does. -/
theorem mapM_eq_ok {f : α → Except ε β} {xs : List α} {ys : List β} :
    xs.mapM f = .ok ys ↔ List.Forall₂ (fun x y => f x = .ok y) xs ys := by
  induction xs generalizing ys with
  | nil => rw [List.mapM_nil, pure_eq_ok, List.forall₂_nil_left_iff, eq_comm]
  | cons x xs ih =>
    simp only [List.mapM_cons, bind_eq_ok, pure_eq_ok, ih, List.forall₂_cons_left_iff]
    constructor
    · rintro ⟨y, hy, ys', hys, rfl⟩
      exact ⟨y, ys', hy, hys, rfl⟩
    · rintro ⟨y, ys', hy, hys, rfl⟩
      exact ⟨y, hy, ys', hys, rfl⟩

end Except

/-- Two results that are the same, or failures that need not be the same. -/
inductive Akin {ε α : Type} : Except ε α → Except ε α → Prop
  | ok (a : α) : Akin (.ok a) (.ok a)
  | error (e e' : ε) : Akin (.error e) (.error e')

namespace Akin

variable {ε α β : Type} {x y : Except ε α}

theorem refl (x : Except ε α) : Akin x x := by
  cases x with
  | error e => exact .error e e
  | ok a => exact .ok a

theorem of_eq (h : y = x) : Akin x y := by
  rw [h]
  exact .refl x

theorem bind {f g : α → Except ε β} (h : Akin x y) (hnext : ∀ a, x = .ok a → Akin (f a) (g a)) :
    Akin (x >>= f) (y >>= g) := by
  cases h with
  | ok a => exact hnext a rfl
  | error e e' => exact .error e e'

theorem eq_ok_iff {a : α} (h : Akin x y) : y = .ok a ↔ x = .ok a := by
  cases h with
  | ok b => exact Iff.rfl
  | error e e' => simp

end Akin

/-- What is at one place of the second list is related to what is at its place in the first. -/
theorem exists_of_forall₂ {α β : Type} {R : α → β → Prop} {xs : List α} {ys : List β}
    (h : List.Forall₂ R xs ys) {y : β} (hy : y ∈ ys) : ∃ x ∈ xs, R x y := by
  induction h with
  | nil => cases hy
  | cons hxy _ ih =>
    rcases List.mem_cons.mp hy with rfl | hy
    · exact ⟨_, List.mem_cons_self, hxy⟩
    · obtain ⟨x, hx, hxy⟩ := ih hy
      exact ⟨x, List.mem_cons_of_mem _ hx, hxy⟩

/-! ### Logged results -/

namespace Logged

variable {α β : Type}

instance : LawfulMonad Logged := LawfulMonad.mk' Logged
  (by
    intro α x
    obtain ⟨log, result⟩ := x
    cases result <;> simp [Functor.map, Logged.bind, Logged.pure])
  (by
    intro α β a f
    simp [bind, pure, Logged.bind, Logged.pure])
  (by
    intro α β γ x f g
    obtain ⟨log, result⟩ := x
    cases result with
    | error e => rfl
    | ok a =>
      simp only [bind, Logged.bind]
      cases (f a).result <;> simp)

/-- A computation with a result is its log and this result. -/
theorem eq_mk_of_result {x : Logged α} {a : α} (h : x.result = .ok a) : x = ⟨x.log, .ok a⟩ := by
  rw [← h]

/-- A bind succeeds exactly when both steps do; the second log follows the first. -/
theorem bind_eq_ok {x : Logged α} {f : α → Logged β} {log : List String} {b : β} :
    (x >>= f) = ⟨log, .ok b⟩
      ↔ ∃ first a second, x = ⟨first, .ok a⟩ ∧ f a = ⟨second, .ok b⟩ ∧ first ++ second = log := by
  obtain ⟨first, result⟩ := x
  cases result with
  | error e => simp [bind, Logged.bind]
  | ok a =>
    simp only [bind, Logged.bind, mk.injEq, Except.ok.injEq]
    constructor
    · rintro ⟨hlog, hb⟩
      exact ⟨first, a, (f a).log, ⟨rfl, rfl⟩, by rw [← hb], hlog⟩
    · rintro ⟨_, _, second, ⟨rfl, rfl⟩, hf, hlog⟩
      rw [hf]
      exact ⟨hlog, rfl⟩

theorem pure_eq_ok {a b : α} {log : List String} :
    (pure a : Logged α) = ⟨log, .ok b⟩ ↔ log = [] ∧ a = b := by
  simp [pure, Logged.pure, eq_comm]

@[simp] theorem throw_ne_ok {e : Failure} {log : List String} {a : α} :
    (throw e : Logged α) ≠ ⟨log, .ok a⟩ := by
  intro h
  cases h

theorem note_eq_ok {name : String} {log : List String} {u : Unit} :
    note name = ⟨log, .ok u⟩ ↔ log = [name] := by
  simp [note, eq_comm]

/-- A lifted result logs nothing. -/
theorem lift_eq_ok {x : Except Failure α} {log : List String} {a : α} :
    (liftM x : Logged α) = ⟨log, .ok a⟩ ↔ log = [] ∧ x = .ok a := by
  show ofExcept x = _ ↔ _
  simp [ofExcept, eq_comm]

/-- A lifted success hands its value on. -/
@[simp] theorem lift_ok_bind (a : α) (f : α → Logged β) :
    (liftM (Except.ok a : Except Failure α) : Logged α) >>= f = f a := by
  show (⟨[] ++ (f a).log, (f a).result⟩ : Logged β) = f a
  rw [List.nil_append]

@[simp] theorem lift_pure_bind (a : α) (f : α → Logged β) :
    (liftM (pure a : Except Failure α) : Logged α) >>= f = f a :=
  lift_ok_bind a f

/-- After a lifted failure nothing happens. -/
@[simp] theorem lift_error_bind (e : Failure) (f : α → Logged β) :
    (liftM (Except.error e : Except Failure α) : Logged α) >>= f = throw e := rfl

@[simp] theorem lift_throw_bind (e : Failure) (f : α → Logged β) :
    (liftM (throw e : Except Failure α) : Logged α) >>= f = throw e := rfl

@[simp] theorem throw_bind (e : Failure) (f : α → Logged β) :
    (throw e : Logged α) >>= f = throw e := rfl

/-- The steps of a computation over a list, each with its log; the logs follow one another. -/
theorem mapM_eq_ok {f : α → Logged β} {xs : List α} {log : List String} {ys : List β} :
    xs.mapM f = ⟨log, .ok ys⟩
      ↔ ∃ steps : List (List String × β),
        List.Forall₂ (fun x step => f x = ⟨step.1, .ok step.2⟩) xs steps
          ∧ steps.map (·.2) = ys ∧ steps.flatMap (·.1) = log := by
  induction xs generalizing log ys with
  | nil =>
    simp only [List.mapM_nil, pure_eq_ok, List.forall₂_nil_left_iff, exists_eq_left, List.map_nil,
      List.flatMap_nil]
    exact ⟨fun ⟨hlog, hys⟩ => ⟨hys, hlog.symm⟩, fun ⟨hys, hlog⟩ => ⟨hlog.symm, hys⟩⟩
  | cons x xs ih =>
    simp only [List.mapM_cons, bind_eq_ok, pure_eq_ok, ih, List.forall₂_cons_left_iff]
    constructor
    · rintro ⟨first, y, _, hx, ⟨_, ys', _, ⟨steps, hsteps, rfl, rfl⟩, ⟨rfl, rfl⟩, rfl⟩, rfl⟩
      exact ⟨_, ⟨(first, y), steps, hx, hsteps, rfl⟩, rfl, by simp⟩
    · rintro ⟨_, ⟨⟨first, y⟩, steps, hx, hsteps, rfl⟩, rfl, rfl⟩
      exact ⟨first, y, _, hx, ⟨_, _, _, ⟨steps, hsteps, rfl, rfl⟩, ⟨rfl, rfl⟩, rfl⟩, by simp⟩

/-! ### The same results in two ways -/

/-- What succeeds in the first way succeeds in the second way with the same log and result. -/
def Refines (x y : Logged α) : Prop :=
  ∀ log a, x = ⟨log, .ok a⟩ → y = ⟨log, .ok a⟩

theorem Refines.refl (x : Logged α) : x.Refines x :=
  fun _ _ h => h

/-- A step that follows has to agree only on what the step before it can give. -/
theorem Refines.bind {x y : Logged α} {f g : α → Logged β} (hxy : x.Refines y)
    (hfg : ∀ log a, x = ⟨log, .ok a⟩ → (f a).Refines (g a)) : (x >>= f).Refines (y >>= g) := by
  intro log b h
  obtain ⟨first, a, second, hx, hf, rfl⟩ := bind_eq_ok.mp h
  exact bind_eq_ok.mpr ⟨first, a, second, hxy first a hx, hfg first a hx second b hf, rfl⟩

/-- The last step of two ways that agree so far is the same. -/
theorem Refines.bind_const {x y : Logged α} (hxy : x.Refines y) (f : α → Logged β) :
    (x >>= f).Refines (y >>= f) :=
  hxy.bind fun _ a _ => .refl (f a)

/-- Two ways agree on a list if they agree on each of its items. -/
theorem Refines.mapM {γ : Type} {f : α → Logged β} {g : γ → Logged β} {k : α → γ} {xs : List α}
    (h : ∀ x ∈ xs, (f x).Refines (g (k x))) : (xs.mapM f).Refines ((xs.map k).mapM g) := by
  induction xs with
  | nil => exact .refl _
  | cons x xs ih =>
    rw [List.forall_mem_cons] at h
    simp only [List.map_cons, List.mapM_cons]
    exact h.1.bind fun _ _ _ => (ih h.2).bind_const _

end Logged

end TypedClient
