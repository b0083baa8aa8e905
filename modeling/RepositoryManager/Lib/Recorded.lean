import Mathlib.Data.List.Basic

/-! # Computations that keep a record

A computation writes down events on its way, and gives a value or stops without
one. What it has written by then stays written, so a property of every event is
one of the events of each part, up to the part that stops.
-/

/-- The events of a computation and its value; `none` where it stopped early. -/
structure Recorded (E : Type) (α : Type) where
  events : List E
  result : Option α

namespace Recorded

variable {E α β : Type}

def bind (x : Recorded E α) (f : α → Recorded E β) : Recorded E β :=
  match x.result with
  | some a => { events := x.events ++ (f a).events, result := (f a).result }
  | none => { events := x.events, result := none }

instance : Monad (Recorded E) where
  pure a := { events := [], result := some a }
  bind := bind

/-- Writes down one event. -/
def record (e : E) : Recorded E Unit := { events := [e], result := some () }

/-- Stops, with nothing more to write. -/
def stop : Recorded E α := { events := [], result := none }

/-- Each event that is written down satisfies `P`. -/
def Every (P : E → Prop) (x : Recorded E α) : Prop := ∀ e ∈ x.events, P e

instance (P : E → Prop) [DecidablePred P] (x : Recorded E α) : Decidable (x.Every P) :=
  inferInstanceAs (Decidable (∀ e ∈ x.events, P e))

@[simp] theorem result_pure (a : α) : (pure a : Recorded E α).result = some a := rfl

@[simp] theorem result_stop : (stop : Recorded E α).result = none := rfl

@[simp] theorem result_record (e : E) : (record e).result = some () := rfl

@[simp] theorem result_bind (x : Recorded E α) (f : α → Recorded E β) :
    (x >>= f).result = x.result.bind fun a => (f a).result := by
  change (bind x f).result = _
  unfold bind
  cases x.result <;> rfl

@[simp] theorem every_pure (P : E → Prop) (a : α) : (pure a : Recorded E α).Every P ↔ True :=
  iff_of_true nofun trivial

@[simp] theorem every_stop (P : E → Prop) : (stop : Recorded E α).Every P ↔ True :=
  iff_of_true nofun trivial

@[simp] theorem every_record (P : E → Prop) (e : E) : (record e).Every P ↔ P e := by
  simp [Every, record]

@[simp] theorem every_bind (P : E → Prop) (x : Recorded E α) (f : α → Recorded E β) :
    (x >>= f).Every P ↔ x.Every P ∧ ∀ a, x.result = some a → (f a).Every P := by
  change (bind x f).Every P ↔ _
  unfold bind Every
  cases x.result with
  | none => simp
  | some a => simp [or_imp, forall_and]

end Recorded
