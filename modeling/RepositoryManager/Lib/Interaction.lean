import Mathlib.Data.List.Basic

/-! # Interactive programs

A program is a value or a call together with what it does on each reply. Loops
inside a program are ordinary recursion; a program that is restarted for ever is
a loop body over a mode. Histories of calls and replies are the only thing
observed. Whole runs are cut along `>>=` and along the passes of a loop, so that
a property of every history follows from one lemma for each program.
-/

namespace Interaction

/-- A value, or a call and what is done with each reply to it. A call whose reply
    type is empty never comes back. -/
inductive Prog (C : Type) (R : C → Type) (α : Type) where
  | ret (a : α)
  | call (c : C) (k : R c → Prog C R α)

/-- A call that was made and the reply that came. -/
abbrev Event (C : Type) (R : C → Type) := (c : C) × R c

variable {C : Type} {R : C → Type} {α β M : Type}

namespace Prog

def bind : Prog C R α → (α → Prog C R β) → Prog C R β
  | .ret a, f => f a
  | .call c k, f => .call c fun r => (k r).bind f

instance : Monad (Prog C R) where
  pure := .ret
  bind := bind

/-- The program that makes one call and gives its reply. -/
def perform (c : C) : Prog C R (R c) := .call c .ret

theorem call_ne_ret {c : C} {k : R c → Prog C R α} {a : α} : (Prog.call c k) ≠ .ret a := nofun

@[simp] theorem ret_bind (a : α) (f : α → Prog C R β) : (Prog.ret a >>= f) = f a := rfl

@[simp] theorem call_bind (c : C) (k : R c → Prog C R α) (f : α → Prog C R β) :
    (Prog.call c k >>= f) = .call c fun r => k r >>= f := rfl

@[simp] theorem perform_bind (c : C) (f : R c → Prog C R β) :
    (perform c >>= f) = .call c f := rfl

/-- `p` makes the calls of `h`, gets the replies of `h`, and `q` is what is left. -/
inductive Steps : Prog C R α → List (Event C R) → Prog C R α → Prop where
  | refl (p) : Steps p [] p
  | call {c k r h q} : Steps (k r) h q → Steps (.call c k) (⟨c, r⟩ :: h) q

/-- A finished run. -/
abbrev Returns (p : Prog C R α) (h : List (Event C R)) (a : α) : Prop := Steps p h (.ret a)

theorem steps_ret {a : α} {h : List (Event C R)} {q} :
    Steps (.ret a) h q ↔ h = [] ∧ q = .ret a := by
  constructor
  · rintro ⟨⟩
    exact ⟨rfl, rfl⟩
  · rintro ⟨rfl, rfl⟩
    exact .refl _

theorem steps_call {c : C} {k : R c → Prog C R α} {h : List (Event C R)} {q} :
    Steps (.call c k) h q ↔
      (h = [] ∧ q = .call c k) ∨ ∃ r h', h = ⟨c, r⟩ :: h' ∧ Steps (k r) h' q := by
  constructor
  · intro run
    cases run with
    | refl => exact .inl ⟨rfl, rfl⟩
    | call rest => exact .inr ⟨_, _, rfl, rest⟩
  · rintro (⟨rfl, rfl⟩ | ⟨r, h', rfl, rest⟩)
    · exact .refl _
    · exact .call rest

theorem Steps.eq_of_nil {p q : Prog C R α} (run : Steps p [] q) : q = p := by
  cases run
  rfl

theorem Steps.head {p q : Prog C R α} {c r h} (run : Steps p (⟨c, r⟩ :: h) q) :
    ∃ k, p = .call c k ∧ Steps (k r) h q := by
  cases run with
  | call rest => exact ⟨_, rfl, rest⟩

theorem Steps.before {c : C} {k : R c → Prog C R α} {past later e q}
    (run : Steps (.call c k) (past ++ e :: later) q) (other : e.1 ≠ c) :
    ∃ r past', past = ⟨c, r⟩ :: past' ∧ Steps (k r) (past' ++ e :: later) q := by
  cases past with
  | nil =>
      obtain ⟨k', same, -⟩ := run.head
      exact absurd (Prog.call.inj same).1.symm other
  | cons first past =>
      rcases steps_call.mp run with ⟨none, -⟩ | ⟨r, h, same, rest⟩
      · cases none
      · obtain ⟨rfl, rfl⟩ := List.cons.inj same
        exact ⟨r, past, rfl, rest⟩

theorem returns_ret {a b : α} {h : List (Event C R)} :
    Returns (.ret a) h b ↔ h = [] ∧ b = a := by
  simp [Returns, steps_ret]

theorem returns_call {c : C} {k : R c → Prog C R α} {h : List (Event C R)} {a : α} :
    Returns (.call c k) h a ↔ ∃ r h', h = ⟨c, r⟩ :: h' ∧ Returns (k r) h' a := by
  simp [Returns, steps_call]

theorem Steps.trans {p q s : Prog C R α} {h h'} (first : Steps p h q) (second : Steps q h' s) :
    Steps p (h ++ h') s := by
  induction first with
  | refl => exact second
  | call _ ih => exact .call (ih second)

/-- A run is determined by its history: what comes after a part of it is a run of what
    this part has left. -/
theorem Steps.resume {p q s : Prog C R α} {h h'} (first : Steps p h q)
    (whole : Steps p (h ++ h') s) : Steps q h' s := by
  induction first with
  | refl => exact whole
  | call _ ih =>
      cases whole with
      | call rest => exact ih rest

theorem Steps.snoc {p : Prog C R α} {h c k} (run : Steps p h (.call c k)) (r : R c) :
    Steps p (h ++ [⟨c, r⟩]) (k r) :=
  run.trans (.call (.refl _))

theorem Steps.bind {p q : Prog C R α} {h} (run : Steps p h q) (f : α → Prog C R β) :
    Steps (p >>= f) h (q >>= f) := by
  induction run with
  | refl => exact .refl _
  | call _ ih => exact .call ih

/-- A run of `p >>= f` is still inside `p`, or `p` has finished and the rest is a
    run of `f`. -/
theorem steps_bind {p : Prog C R α} {f : α → Prog C R β} {h q} (run : Steps (p >>= f) h q) :
    (∃ p', Steps p h p' ∧ q = (p' >>= f)) ∨
    ∃ a h₁ h₂, h = h₁ ++ h₂ ∧ Returns p h₁ a ∧ Steps (f a) h₂ q := by
  induction p generalizing h with
  | ret a => exact .inr ⟨a, [], h, rfl, .refl _, run⟩
  | call c k ih =>
      rw [call_bind, steps_call] at run
      rcases run with ⟨rfl, rfl⟩ | ⟨r, h', rfl, rest⟩
      · exact .inl ⟨_, .refl _, rfl⟩
      · rcases ih r rest with ⟨p', inside, rfl⟩ | ⟨a, h₁, h₂, rfl, done, after⟩
        · exact .inl ⟨p', .call inside, rfl⟩
        · exact .inr ⟨a, ⟨c, r⟩ :: h₁, h₂, rfl, .call done, after⟩

theorem returns_bind {p : Prog C R α} {f : α → Prog C R β} {h b} :
    Returns (p >>= f) h b ↔
      ∃ a h₁ h₂, h = h₁ ++ h₂ ∧ Returns p h₁ a ∧ Returns (f a) h₂ b := by
  constructor
  · intro run
    rcases steps_bind run with ⟨p', inside, same⟩ | finished
    · cases p' with
      | ret a => exact ⟨a, h, [], by simp, inside, by rw [Returns, same]; exact .refl _⟩
      | call c k => simp at same
    · exact finished
  · rintro ⟨a, h₁, h₂, rfl, first, second⟩
    exact (first.bind f).trans second

/-! ## Properties of every call -/

/-- Whatever replies come, each call and its reply satisfy `P`. -/
def Only (P : Event C R → Prop) : Prog C R α → Prop
  | .ret _ => True
  | .call c k => ∀ r, P ⟨c, r⟩ ∧ (k r).Only P

theorem Only.mono {P Q : Event C R → Prop} (imp : ∀ e, P e → Q e) {p : Prog C R α}
    (only : p.Only P) : p.Only Q := by
  induction p with
  | ret => trivial
  | call c k ih => exact fun r => ⟨imp _ (only r).1, ih r (only r).2⟩

theorem Only.bind_returns {P : Event C R → Prop} {p : Prog C R α} {f : α → Prog C R β}
    (first : p.Only P) (second : ∀ a h, Returns p h a → (f a).Only P) : (p >>= f).Only P := by
  induction p with
  | ret a => exact second a [] (.refl _)
  | call c k ih =>
      exact fun r => ⟨(first r).1, ih r (first r).2 fun a h run => second a _ (.call run)⟩

theorem Only.bind {P : Event C R → Prop} {p : Prog C R α} {f : α → Prog C R β}
    (first : p.Only P) (second : ∀ a, (f a).Only P) : (p >>= f).Only P :=
  first.bind_returns fun a _ _ => second a

theorem Steps.only {P : Event C R → Prop} {p q : Prog C R α} {h} (run : Steps p h q)
    (only : p.Only P) : ∀ e ∈ h, P e := by
  induction run with
  | refl => simp
  | call _ ih =>
      intro e member
      rcases List.mem_cons.mp member with rfl | later
      · exact (only _).1
      · exact ih (only _).2 e later

/-- Whatever replies come, `P` holds of each call that is made, those that never come back
    included. -/
def Asks (P : C → Prop) : Prog C R α → Prop
  | .ret _ => True
  | .call c k => P c ∧ ∀ r, (k r).Asks P

theorem Asks.bind_returns {P : C → Prop} {p : Prog C R α} {f : α → Prog C R β}
    (first : p.Asks P) (second : ∀ a h, Returns p h a → (f a).Asks P) : (p >>= f).Asks P := by
  induction p with
  | ret a => exact second a [] (.refl _)
  | call c k ih =>
      exact ⟨first.1, fun r => ih r (first.2 r) fun a h run => second a _ (.call run)⟩

theorem Asks.bind {P : C → Prop} {p : Prog C R α} {f : α → Prog C R β}
    (first : p.Asks P) (second : ∀ a, (f a).Asks P) : (p >>= f).Asks P :=
  first.bind_returns fun a _ _ => second a

theorem Steps.asks {P : C → Prop} {p : Prog C R α} {h c k} (run : Steps p h (.call c k))
    (asks : p.Asks P) : P c := by
  generalize same : Prog.call c k = q at run
  induction run with
  | refl =>
      subst same
      exact asks.1
  | call _ ih => exact ih (asks.2 _) same

theorem cut_second {E : Type} {a b past later : List E} {e : E} (absent : e ∉ a)
    (at_e : a ++ b = past ++ e :: later) : ∃ now, past = a ++ now ∧ b = now ++ e :: later := by
  rcases List.append_eq_append_iff.mp at_e with found | ⟨tail, same, rest⟩
  · exact found
  · cases tail with
    | nil => exact ⟨[], by simpa using same.symm, by simpa using rest.symm⟩
    | cons e' tail =>
        cases rest
        exact absurd (by simp [same]) absent

theorem cut_first {E : Type} {a b past later : List E} {e : E} (absent : e ∉ b)
    (at_e : a ++ b = past ++ e :: later) : ∃ now, a = past ++ e :: now ∧ later = now ++ b := by
  rcases List.append_eq_append_iff.mp at_e with ⟨tail, rfl, rest⟩ | ⟨tail, same, rest⟩
  · exact absurd (by simp [rest]) absent
  · cases tail with
    | nil =>
        rw [List.nil_append] at rest
        exact absurd (by simp [← rest]) absent
    | cons e' tail =>
        cases rest
        exact ⟨tail, same, rfl⟩

theorem span_unique {E : Type} {P : E → Prop} {a b a' b' : List E} (inside : ∀ e ∈ a, P e)
    (inside' : ∀ e ∈ a', P e) (stops : ∀ e ∈ b.head?, ¬ P e) (stops' : ∀ e ∈ b'.head?, ¬ P e)
    (same : a ++ b = a' ++ b') : a = a' ∧ b = b' := by
  induction a generalizing a' with
  | nil =>
      cases a' with
      | nil => exact ⟨rfl, same⟩
      | cons e a' => exact absurd (inside' e (.head _)) (stops e (congrArg List.head? same))
  | cons e a ih =>
      cases a' with
      | nil => exact absurd (inside e (.head _)) (stops' e (congrArg List.head? same.symm))
      | cons e' a' =>
          obtain ⟨rfl, tails⟩ := List.cons.inj same
          obtain ⟨rfl, rests⟩ := ih (List.forall_mem_cons.mp inside).2
            (List.forall_mem_cons.mp inside').2 tails
          exact ⟨rfl, rests⟩

theorem cut_at {E : Type} {l : List E} {k : Nat} {e : E} (at_k : l[k]? = some e) :
    ∃ a b, l = a ++ e :: b ∧ a.length = k := by
  obtain ⟨bound, rfl⟩ := List.getElem?_eq_some_iff.mp at_k
  exact ⟨l.take k, l.drop (k + 1), by simp, by simp [Nat.le_of_lt bound]⟩

/-! ## Programs that are run again and again -/

/-- The histories of a program that runs `body` on a mode, and again on the mode
    this returns, without end. -/
inductive Runs (body : M → Prog C R M) (start : M) : List (Event C R) → Prog C R M → Prop where
  | start : Runs body start [] (body start)
  | call {h c k} (r : R c) : Runs body start h (.call c k) → Runs body start (h ++ [⟨c, r⟩]) (k r)
  | again {h m} : Runs body start h (.ret m) → Runs body start h (body m)

/-- The loop rule. An invariant of the history and the mode that every finished
    pass of the body keeps holds at the last pass begun, and what follows is an
    unfinished pass. -/
theorem Runs.invariant {body : M → Prog C R M} {start : M}
    {I : List (Event C R) → M → Prop} (first : I [] start)
    (pass : ∀ {past m h m'}, I past m → Returns (body m) h m' → I (past ++ h) m')
    {h : List (Event C R)} {rest : Prog C R M} (run : Runs body start h rest) :
    ∃ past now m, h = past ++ now ∧ I past m ∧ Steps (body m) now rest := by
  induction run with
  | start => exact ⟨[], [], start, rfl, first, .refl _⟩
  | call r _ ih =>
      obtain ⟨past, now, m, rfl, inv, steps⟩ := ih
      exact ⟨past, now ++ [⟨_, r⟩], m, by simp, inv, steps.snoc r⟩
  | again _ ih =>
      obtain ⟨past, now, m, rfl, inv, steps⟩ := ih
      exact ⟨past ++ now, [], _, by simp, pass inv steps, .refl _⟩

end Prog

end Interaction
