import TypedClient.Failure

namespace TypedClient

/-!
# Logged results

A computation that may fail and that keeps a log of names on its way.  The log is there even if the
computation fails: it holds what was met up to the failure.

* `Logged`: a log and a result.
* `Logged.note`: puts one name into the log.
* `Logged.ofExcept`: a result with an empty log.
-/

/-- A result together with the names that were met on the way to it. -/
structure Logged (α : Type) where
  log : List String
  result : Except Failure α

namespace Logged

/-- A value that was reached without meeting a name. -/
protected def pure {α : Type} (a : α) : Logged α :=
  ⟨[], .ok a⟩

/-- Goes on after a success; the second log follows the first. -/
protected def bind {α β : Type} (x : Logged α) (f : α → Logged β) : Logged β :=
  match x.result with
  | .ok a => ⟨x.log ++ (f a).log, (f a).result⟩
  | .error e => ⟨x.log, .error e⟩

instance : Monad Logged where
  pure := Logged.pure
  bind := Logged.bind

/-- Stops with a failure. -/
def fail {α : Type} (e : Failure) : Logged α :=
  ⟨[], .error e⟩

/-- Puts one name into the log. -/
def note (name : String) : Logged Unit :=
  ⟨[name], .ok ()⟩

/-- A result that was reached without meeting a name. -/
def ofExcept {α : Type} (x : Except Failure α) : Logged α :=
  ⟨[], x⟩

instance : MonadExceptOf Failure Logged where
  throw := fail
  tryCatch x handle :=
    match x.result with
    | .ok _ => x
    | .error e => ⟨x.log ++ (handle e).log, (handle e).result⟩

instance : MonadLift (Except Failure) Logged := ⟨ofExcept⟩

end Logged

end TypedClient
