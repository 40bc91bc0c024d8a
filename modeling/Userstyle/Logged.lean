import Userstyle.Error
import Userstyle.Event

/-!
# Logged computations

A logged computation records events and then gives a result or an error. The events recorded before
an error stay, so `events` is the log of the run whichever way it ends.
-/

namespace Userstyle

/-- A result or an error, with the events recorded on the way. -/
structure Logged (α : Type) where
  /-- The events in the order in which they were recorded. -/
  events : List Event
  /-- How the computation ended. -/
  result : Except Error α

namespace Logged

variable {α β : Type}

/-- Continues with the result, if there is one. -/
def andThen (x : Logged α) (f : α → Logged β) : Logged β :=
  match x.result with
  | .ok a => ⟨x.events ++ (f a).events, (f a).result⟩
  | .error e => ⟨x.events, .error e⟩

/-- Logged computations one after the other. -/
instance : Monad Logged where
  pure a := ⟨[], .ok a⟩
  bind := andThen

/-- Records one event. -/
def record (e : Event) : Logged Unit := ⟨[e], .ok ()⟩

/-- Records events in order. -/
def recordAll (es : List Event) : Logged Unit := ⟨es, .ok ()⟩

/-- Gives a result or an error without recording anything. -/
def ofExcept (r : Except Error α) : Logged α := ⟨[], r⟩

@[simp] theorem result_pure (a : α) : (pure a : Logged α).result = .ok a := rfl

@[simp] theorem events_pure (a : α) : (pure a : Logged α).events = [] := rfl

@[simp] theorem result_ofExcept (r : Except Error α) : (ofExcept r).result = r := rfl

@[simp] theorem events_ofExcept (r : Except Error α) : (ofExcept r).events = [] := rfl

@[simp] theorem result_record (e : Event) : (record e).result = .ok () := rfl

@[simp] theorem result_recordAll (es : List Event) : (recordAll es).result = .ok () := rfl

/-- Results are passed on as without a log. -/
@[simp] theorem result_bind (x : Logged α) (f : α → Logged β) :
    (x >>= f).result = x.result >>= fun a => (f a).result := by
  obtain ⟨es, r⟩ := x
  cases r <;> rfl

end Logged

end Userstyle
