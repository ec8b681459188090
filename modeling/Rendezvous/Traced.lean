import Rendezvous.Event
import Rendezvous.Outcome

/-! Computations that may stop and that leave a trace of events. What happened before a computation
    stopped remains in its trace. -/

namespace Rendezvous

/-- The events of a computation, in order, and how it ended. -/
structure Traced (α : Type) where
  events : List Event
  outcome : Except Stop α

namespace Traced

variable {α β γ : Type}

/-- Runs `f` on the value of `x`; its events come after those of `x`. -/
def bind (x : Traced α) (f : α → Traced β) : Traced β :=
  match x.outcome with
  | .ok a => ⟨x.events ++ (f a).events, (f a).outcome⟩
  | .error s => ⟨x.events, .error s⟩

/-- A computation after another one, with the events of both. -/
instance : Monad Traced where
  pure a := ⟨[], .ok a⟩
  bind := bind

/-- A result that was reached without an event. -/
def lift (r : Except Stop α) : Traced α := ⟨[], r⟩

/-- Operations without events are computations without events. -/
instance : MonadLift (Except Stop) Traced := ⟨lift⟩

/-- Does nothing but leave an event. -/
def emit (e : Event) : Traced Unit := ⟨[e], .ok ()⟩

/-- The records that the events leave. -/
def journal (x : Traced α) : List Record := x.events.filterMap Event.record?

@[simp] theorem outcome_pure (a : α) : (pure a : Traced α).outcome = .ok a := rfl

@[simp] theorem outcome_lift (r : Except Stop α) : (lift r).outcome = r := rfl

@[simp] theorem outcome_emit (e : Event) : (emit e).outcome = .ok () := rfl

@[simp] theorem events_pure (a : α) : (pure a : Traced α).events = [] := rfl

@[simp] theorem events_lift (r : Except Stop α) : (lift r).events = [] := rfl

@[simp] theorem events_emit (e : Event) : (emit e).events = [e] := rfl

@[simp] theorem outcome_bind (x : Traced α) (f : α → Traced β) :
    (x >>= f).outcome = x.outcome >>= fun a => (f a).outcome := by
  show (bind x f).outcome = _
  unfold bind
  cases x.outcome <;> rfl

theorem bind_eq_ok {x : Traced α} {f : α → Traced β} {b : β} :
    (x >>= f).outcome = .ok b ↔ ∃ a, x.outcome = .ok a ∧ (f a).outcome = .ok b := by
  rw [outcome_bind]
  cases x.outcome <;> simp [Bind.bind, Except.bind]

theorem events_bind_ok {x : Traced α} {a : α} (h : x.outcome = .ok a) (f : α → Traced β) :
    (x >>= f).events = x.events ++ (f a).events := by
  show (bind x f).events = _
  simp [bind, h]

theorem bind_bind (x : Traced α) (f : α → Traced β) (g : β → Traced γ) :
    x >>= f >>= g = x >>= fun a => f a >>= g := by
  obtain ⟨events, outcome⟩ := x
  cases outcome with
  | error s => rfl
  | ok a =>
    show bind (bind ⟨events, .ok a⟩ f) g = bind ⟨events, .ok a⟩ fun a => bind (f a) g
    cases hf : (f a).outcome <;> simp [bind, hf]

theorem bind_return (x : Traced α) : x >>= pure = x := by
  obtain ⟨events, outcome⟩ := x
  cases outcome with
  | error s => rfl
  | ok a => exact congrArg (Traced.mk · (.ok a)) (List.append_nil events)

instance : LawfulMonad Traced := LawfulMonad.mk' Traced bind_return (fun _ _ => rfl) bind_bind

end Traced

end Rendezvous
