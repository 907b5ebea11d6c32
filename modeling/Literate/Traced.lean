import Literate.Fault
import Literate.Event

namespace Literate

/-- A computation that reports events on its way and ends with a value or a fault. What was
reported before a fault stays reported. -/
structure Traced (α : Type) where
  events : List Event
  outcome : Except Fault α

namespace Traced

variable {α β : Type}

protected def pure (a : α) : Traced α := ⟨[], .ok a⟩

protected def bind (x : Traced α) (f : α → Traced β) : Traced β :=
  match x.outcome with
  | .error e => ⟨x.events, .error e⟩
  | .ok a =>
    let y := f a
    ⟨x.events ++ y.events, y.outcome⟩

instance : Monad Traced where
  pure := Traced.pure
  bind := Traced.bind

def fail (e : Fault) : Traced α := ⟨[], .error e⟩

def report (e : Event) : Traced Unit := ⟨[e], .ok ()⟩

def reportAll (es : List Event) : Traced Unit := ⟨es, .ok ()⟩

def ofExcept (x : Except Fault α) : Traced α := ⟨[], x⟩

def attempt (x : Traced α) : Traced (Except Fault α) := ⟨x.events, .ok x.outcome⟩

@[simp] theorem outcome_pure (a : α) : (pure a : Traced α).outcome = .ok a := rfl

@[simp] theorem outcome_fail (e : Fault) : (fail e : Traced α).outcome = .error e := rfl

@[simp] theorem outcome_report (e : Event) : (report e).outcome = .ok () := rfl

@[simp] theorem outcome_ofExcept (x : Except Fault α) : (ofExcept x).outcome = x := rfl

/-- Reporting never changes how a computation ends. -/
@[simp] theorem outcome_bind (x : Traced α) (f : α → Traced β) :
    (x >>= f).outcome = x.outcome >>= fun a => (f a).outcome := by
  show (Traced.bind x f).outcome = _
  unfold Traced.bind
  cases x.outcome <;> rfl

private theorem bind_pure_self (x : Traced α) : Traced.bind x Traced.pure = x := by
  rcases x with ⟨events, _ | a⟩ <;> simp [Traced.bind, Traced.pure]

private theorem pure_bind_apply (a : α) (f : α → Traced β) : Traced.bind (Traced.pure a) f = f a := by
  simp [Traced.bind, Traced.pure]

private theorem bind_bind {γ : Type} (x : Traced α) (f : α → Traced β) (g : β → Traced γ) :
    Traced.bind (Traced.bind x f) g = Traced.bind x fun a => Traced.bind (f a) g := by
  rcases x with ⟨events, _ | a⟩
  · rfl
  · simp only [Traced.bind]
    cases (f a).outcome <;> simp

instance : LawfulMonad Traced := LawfulMonad.mk' Traced bind_pure_self pure_bind_apply bind_bind

end Traced

end Literate
