import RepositoryManager.Lib.ProcessPool

/-! # A cell that processes share

The world of a pool may be a cell: some calls overwrite it, and the replies to some
depend on what is in it. What a process finds there is what it would find if no other
process made any call exactly when the last write was its own, or left the same as its
own last write.
-/

namespace SharedCell

open Interaction ProcessPool ProcessPool.System

/-! ## Writes of a trace -/

section Trace

variable {E V : Type} (effect : E → Option V)

/-- The last write, with the process that made it. -/
def lastWrite : List (Nat × E) → Option (Nat × V)
  | [] => none
  | e :: trace => (lastWrite trace).or ((effect e.2).map fun v => (e.1, v))

/-- What the cell holds after a trace. -/
def contents (start : V) (trace : List (Nat × E)) : V :=
  ((lastWrite effect trace).map Prod.snd).getD start

/-- The part of one process in a trace. -/
def alone (i : Nat) (trace : List (Nat × E)) : List (Nat × E) :=
  trace.filter fun e => e.1 = i

/-- No other process has left something else in the cell since process `i` last wrote. -/
def Undisturbed (i : Nat) (trace : List (Nat × E)) : Prop :=
  ∀ j v, lastWrite effect trace = some (j, v) →
    j = i ∨ lastWrite effect (alone i trace) = some (i, v)

variable {effect}

@[simp] theorem alone_append (i : Nat) (s t : List (Nat × E)) :
    alone i (s ++ t) = alone i s ++ alone i t :=
  List.filter_append s t

theorem alone_self (i : Nat) (e : E) : alone i [(i, e)] = [(i, e)] := by
  simp [alone]

theorem alone_other {i j : Nat} (other : j ≠ i) (e : E) : alone i [(j, e)] = [] := by
  simp [alone, other]

theorem lastWrite_append (s t : List (Nat × E)) :
    lastWrite effect (s ++ t) = (lastWrite effect t).or (lastWrite effect s) := by
  induction s with
  | nil => simp [lastWrite]
  | cons e s ih => rw [List.cons_append, lastWrite, lastWrite, ih, Option.or_assoc]

theorem lastWrite_eq_none {trace : List (Nat × E)} :
    lastWrite effect trace = none ↔ ∀ e ∈ trace, effect e.2 = none := by
  induction trace with
  | nil => simp [lastWrite]
  | cons e trace ih => simp [lastWrite, Option.or_eq_none_iff, ih, and_comm]

theorem lastWrite_mem {trace : List (Nat × E)} {j : Nat} {v : V}
    (last : lastWrite effect trace = some (j, v)) : ∃ e, (j, e) ∈ trace ∧ effect e = some v := by
  induction trace with
  | nil => cases last
  | cons e trace ih =>
      cases later : lastWrite effect trace with
      | some write =>
          rw [lastWrite, later, Option.some_or] at last
          obtain ⟨e', member, writes⟩ := ih (later.trans last)
          exact ⟨e', List.mem_cons_of_mem _ member, writes⟩
      | none =>
          rw [lastWrite, later, Option.none_or] at last
          obtain ⟨v', writes, same⟩ := Option.map_eq_some_iff.mp last
          cases same
          exact ⟨e.2, List.mem_cons_self, writes⟩

theorem lastWrite_alone {trace : List (Nat × E)} {i : Nat} {v : V}
    (last : lastWrite effect trace = some (i, v)) :
    lastWrite effect (alone i trace) = some (i, v) := by
  induction trace with
  | nil => cases last
  | cons e trace ih =>
      rw [← List.singleton_append, alone_append, lastWrite_append]
      cases later : lastWrite effect trace with
      | some write =>
          rw [lastWrite, later, Option.some_or] at last
          rw [ih (later.trans last), Option.some_or]
      | none =>
          rw [lastWrite, later, Option.none_or] at last
          obtain ⟨v', writes, same⟩ := Option.map_eq_some_iff.mp last
          cases same
          have quiet : lastWrite effect (alone e.1 trace) = none :=
            lastWrite_eq_none.mpr fun e' member =>
              lastWrite_eq_none.mp later e' (List.mem_of_mem_filter member)
          rw [quiet, Option.none_or, alone_self]
          simp [lastWrite, writes]

theorem contents_snoc (start : V) (trace : List (Nat × E)) (i : Nat) (e : E) :
    contents effect start (trace ++ [(i, e)]) =
      (effect e).getD (contents effect start trace) := by
  rw [contents, lastWrite_append, lastWrite, lastWrite, Option.none_or]
  cases writes : effect e with
  | none => rfl
  | some v => rfl

theorem undisturbed_iff {trace : List (Nat × E)} {i : Nat} {v : V} (start : V)
    (own : lastWrite effect (alone i trace) = some (i, v)) :
    Undisturbed effect i trace ↔ contents effect start trace = v := by
  cases last : lastWrite effect trace with
  | none =>
      obtain ⟨e, member, writes⟩ := lastWrite_mem own
      have silent := lastWrite_eq_none.mp last (i, e) (List.mem_of_mem_filter member)
      rw [writes] at silent
      cases silent
  | some write =>
      obtain ⟨j, v'⟩ := write
      have holds : contents effect start trace = v' := by simp [contents, last]
      rw [holds]
      constructor
      · intro undisturbed
        rcases undisturbed j v' last with rfl | same
        · cases (lastWrite_alone last).symm.trans own
          rfl
        · cases same.symm.trans own
          rfl
      · rintro rfl j' v'' last'
        cases last.symm.trans last'
        exact .inr own

end Trace

/-! ## Systems with one cell -/

variable {C : Type} {R : C → Type} {M W : Type}

/-- A system whose world is a cell. -/
structure Cell (sys : System C R M W) where
  effect : Event C R → Option W
  next : ∀ {w c r w'}, sys.allowed w c r w' → w' = (effect ⟨c, r⟩).getD w
  twin_effect : ∀ {c r r'}, sys.twin c r = some r' → effect ⟨c, r'⟩ = none

/-- The reply does not depend on the cell. -/
def Blind (sys : System C R M W) (c : C) (r : R c) : Prop :=
  ∀ w v, (∃ w', sys.allowed w c r w') → ∃ v', sys.allowed v c r v'

namespace Cell

variable {sys : System C R M W} (cell : Cell sys)

theorem replay_contents {w w' : W} {trace : List (Nat × Event C R)}
    (run : sys.Replay w trace w') : w' = contents cell.effect w trace := by
  induction run with
  | nil => rfl
  | call _ allowed ih => rw [contents_snoc, ← ih, ← cell.next allowed]
  | twin _ double ih => rw [contents_snoc, cell.twin_effect double, Option.getD_none, ih]

theorem replay_allowed {w w' : W} {trace before later : List (Nat × Event C R)} {i : Nat} {c : C}
    {r : R c} (run : sys.Replay w trace w') (cut : trace = before ++ (i, ⟨c, r⟩) :: later) :
    (∃ v, sys.allowed (contents cell.effect w before) c r v) ∨ ∃ r', sys.twin c r' = some r := by
  induction run generalizing later with
  | nil => simp at cut
  | @call trace w₁ j c' r' w₂ earlier allowed ih =>
      rcases List.eq_nil_or_concat later with rfl | ⟨later', e, rfl⟩
      · obtain ⟨rfl, same⟩ := List.append_inj' cut rfl
        cases same
        rw [← cell.replay_contents earlier]
        exact .inl ⟨_, allowed⟩
      · rw [List.concat_eq_append, ← List.cons_append, ← List.append_assoc] at cut
        exact ih (List.append_inj' cut rfl).1
  | @twin trace w₁ j c' r₁ r₂ earlier double ih =>
      rcases List.eq_nil_or_concat later with rfl | ⟨later', e, rfl⟩
      · obtain ⟨rfl, same⟩ := List.append_inj' cut rfl
        cases same
        exact .inr ⟨_, double⟩
      · rw [List.concat_eq_append, ← List.cons_append, ← List.append_assoc] at cut
        exact ih (List.append_inj' cut rfl).1

/-- A process gets the same replies alone when, at each that depends on the cell, it
    finds what it would find alone. -/
theorem replay_alone {w w' : W} {trace : List (Nat × Event C R)} (run : sys.Replay w trace w')
    (i : Nat) (finds : ∀ before c r later, trace = before ++ (i, ⟨c, r⟩) :: later →
      Blind sys c r ∨ contents cell.effect w before = contents cell.effect w (alone i before)) :
    ∃ v, sys.Replay w (alone i trace) v := by
  induction run with
  | nil => exact ⟨_, .nil⟩
  | @call trace w₁ j c' r' w₂ earlier allowed ih =>
      obtain ⟨v, before⟩ := ih fun before c r later cut =>
        finds before c r (later ++ [(j, ⟨c', r'⟩)]) (by simp [cut])
      by_cases mine : j = i
      · subst mine
        rw [alone_append, alone_self]
        have admitted : ∃ v', sys.allowed v c' r' v' := by
          rcases finds trace c' r' [] rfl with blind | same
          · exact blind w₁ v ⟨_, allowed⟩
          · rw [← cell.replay_contents earlier, ← cell.replay_contents before] at same
            exact ⟨_, same ▸ allowed⟩
        obtain ⟨v', admitted⟩ := admitted
        exact ⟨v', before.call admitted⟩
      · rw [alone_append, alone_other mine, List.append_nil]
        exact ⟨v, before⟩
  | @twin trace w₁ j c' r₁ r₂ earlier double ih =>
      obtain ⟨v, before⟩ := ih fun before c r later cut =>
        finds before c r (later ++ [(j, ⟨c', r₂⟩)]) (by simp [cut])
      by_cases mine : j = i
      · subst mine
        rw [alone_append, alone_self]
        exact ⟨v, before.twin double⟩
      · rw [alone_append, alone_other mine, List.append_nil]
        exact ⟨v, before⟩

end Cell

theorem alone_eq_callsOf (i : Nat) (trace : List (Nat × Event C R)) :
    alone i trace = (callsOf i trace).map fun e => (i, e) := by
  induction trace with
  | nil => rfl
  | cons e trace ih =>
      rw [← List.singleton_append, alone_append, callsOf_append, List.map_append, ih]
      by_cases mine : e.1 = i
      · subst mine
        simp [alone, callsOf]
      · simp [alone, callsOf, mine]

end SharedCell
