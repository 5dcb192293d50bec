import Unmangle.Error
import Unmangle.Log.Event

set_option autoImplicit false

/-! # Operations with a log

The outcome of an operation that reports events: a result or an error, and the events up to then.
Running one operation after another keeps the log of both, also when the second one fails, and the
results combine as if nothing had been logged (`Traced.result_bind`).
-/

namespace Unmangle

/-- A result or an error, with the events that were reported on the way. -/
structure Traced (α : Type) where
  result : Except Error α
  log : List Event

namespace Traced

variable {α β : Type}

/-- The outcome of doing one operation and then another one that depends on its value. -/
def andThen (x : Traced α) (f : α → Traced β) : Traced β :=
  match x.result with
  | .ok a => ⟨(f a).result, x.log ++ (f a).log⟩
  | .error e => ⟨.error e, x.log⟩

instance : Monad Traced where
  pure a := ⟨.ok a, []⟩
  bind := andThen

def report (e : Event) : Traced Unit := ⟨.ok (), [e]⟩

def reportAll (es : List Event) : Traced Unit := ⟨.ok (), es⟩

def fail (e : Error) : Traced α := ⟨.error e, []⟩

/-- A result without a log. -/
def of (r : Except Error α) : Traced α := ⟨r, []⟩

@[simp] theorem result_pure (a : α) : (pure a : Traced α).result = .ok a := rfl

@[simp] theorem result_bind (x : Traced α) (f : α → Traced β) :
    (x >>= f).result = x.result.bind fun a => (f a).result := by
  show (andThen x f).result = _
  rw [andThen]
  cases x.result <;> rfl

@[simp] theorem result_report (e : Event) : (report e).result = .ok () := rfl

@[simp] theorem result_reportAll (es : List Event) : (reportAll es).result = .ok () := rfl

@[simp] theorem result_fail (e : Error) : (fail e : Traced α).result = .error e := rfl

@[simp] theorem result_of (r : Except Error α) : (of r).result = r := rfl

end Traced

end Unmangle
