import Mathlib.Data.List.Induction
import RepositoryManager.Lib.Interaction

/-! # Programs that keep a protocol

A protocol is an automaton over calls and replies. A program keeps it from a phase if
every call it makes is allowed in the phase it is in, whatever the replies, and if it ends
in a phase that fits its value. What holds of every word of the automaton then holds of
every history of the program.
-/

namespace Typestate

open Interaction Interaction.Prog

variable {C : Type} {R : C → Type} {Phase α β M : Type}

/-- In which phases an event is allowed, and the phase it leads to. -/
abbrev Protocol (C : Type) (R : C → Type) (Phase : Type) := Phase → Event C R → Option Phase

/-- The phase after a word of events; `none` if one of them is not allowed. -/
def reached (next : Protocol C R Phase) : Phase → List (Event C R) → Option Phase
  | phase, [] => some phase
  | phase, e :: h => (next phase e).bind fun phase => reached next phase h

/-- Whatever the replies, the program keeps the protocol and ends as `post` has it. -/
def Keeps (next : Protocol C R Phase) : Prog C R α → Phase → (α → Phase → Prop) → Prop
  | .ret a, phase, post => post a phase
  | .call c k, phase, post =>
      ∀ r, ∃ phase', next phase ⟨c, r⟩ = some phase' ∧ Keeps next (k r) phase' post

variable {next : Protocol C R Phase}

theorem reached_append (phase : Phase) (h h' : List (Event C R)) :
    reached next phase (h ++ h') =
      (reached next phase h).bind fun phase => reached next phase h' := by
  induction h generalizing phase with
  | nil => rfl
  | cons e h ih =>
      rw [List.cons_append, reached, reached]
      cases next phase e with
      | none => rfl
      | some phase' => exact ih phase'

theorem reached_split {phase last : Phase} {h h' : List (Event C R)}
    (all : reached next phase (h ++ h') = some last) :
    ∃ middle, reached next phase h = some middle ∧ reached next middle h' = some last := by
  rw [reached_append] at all
  exact Option.bind_eq_some_iff.mp all

theorem Keeps.mono {p : Prog C R α} {phase : Phase} {post post' : α → Phase → Prop}
    (keeps : Keeps next p phase post) (imp : ∀ a phase, post a phase → post' a phase) :
    Keeps next p phase post' := by
  induction p generalizing phase with
  | ret a => exact imp a phase keeps
  | call c k ih =>
      intro r
      obtain ⟨phase', allowed, rest⟩ := keeps r
      exact ⟨phase', allowed, ih r rest⟩

/-- The sequence rule. -/
theorem Keeps.bind {p : Prog C R α} {f : α → Prog C R β} {phase : Phase} {middle : α → Phase → Prop}
    {post : β → Phase → Prop} (first : Keeps next p phase middle)
    (second : ∀ a phase, middle a phase → Keeps next (f a) phase post) :
    Keeps next (p >>= f) phase post := by
  induction p generalizing phase with
  | ret a => exact second a phase first
  | call c k ih =>
      intro r
      obtain ⟨phase', allowed, rest⟩ := first r
      exact ⟨phase', allowed, ih r rest⟩

/-- A part of a run keeps the protocol, and what is left goes on from the phase reached. -/
theorem Keeps.steps {p q : Prog C R α} {phase : Phase} {post : α → Phase → Prop} {h : List (Event C R)}
    (keeps : Keeps next p phase post) (run : Steps p h q) :
    ∃ phase', reached next phase h = some phase' ∧ Keeps next q phase' post := by
  induction run generalizing phase with
  | refl => exact ⟨phase, rfl, keeps⟩
  | @call c k r h q _ ih =>
      obtain ⟨phase', allowed, rest⟩ := keeps r
      obtain ⟨last, reaches, left⟩ := ih rest
      refine ⟨last, ?_, left⟩
      rw [reached, allowed]
      exact reaches

/-- An invariant of the word and the phase that every allowed event keeps. -/
theorem reached_invariant {I : List (Event C R) → Phase → Prop} {phase last : Phase}
    (first : I [] phase)
    (step : ∀ {h phase e phase'}, I h phase → next phase e = some phase' → I (h ++ [e]) phase')
    {h : List (Event C R)} (all : reached next phase h = some last) : I h last := by
  induction h using List.reverseRecOn generalizing last with
  | nil =>
      cases all
      exact first
  | append_singleton h e ih =>
      obtain ⟨middle, before, now⟩ := reached_split all
      obtain ⟨phase', allowed, same⟩ := Option.bind_eq_some_iff.mp now
      cases same
      exact step (ih before) allowed

end Typestate
