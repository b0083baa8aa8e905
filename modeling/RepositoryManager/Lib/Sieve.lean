import Mathlib.Data.List.Basic

/-! # Positions in a sieved list

A list some of whose elements are passed over, and positions in it. What a position has
behind it and ahead of it is seen through the sieve; loops that skip to the next or the
previous element that counts move along what is seen, one element a call.
-/

namespace Sieve

variable {α : Type} (on : α → Bool) (l : List α)

/-- The first position from `i` on at which nothing is passed over. -/
def skip (i : Nat) : Nat :=
  if h : i < l.length then
    if on l[i] then i else skip (i + 1)
  else i
termination_by l.length - i

/-- The last position before `i` at which nothing is passed over. -/
def skipBack : Nat → Option Nat
  | 0 => none
  | i + 1 => if l[i]?.any on then some i else skipBack i

/-- `k` elements on. -/
def forward : Nat → Nat → Nat
  | 0, i => i
  | k + 1, i => forward k (skip on l (i + 1))

/-- `k` elements back. -/
def backward : Nat → Nat → Option Nat
  | 0, i => some i
  | k + 1, i => (skipBack on l i).bind (backward k)

def ahead (i : Nat) : List α := (l.drop i).filter on

def behind (i : Nat) : List α := (l.take i).filter on

/-- There is no element at the position that is passed over. -/
def Rests (i : Nat) : Prop := ∀ a, l[i]? = some a → on a = true

variable {on l} {i j k : Nat} {a : α}

/-! ## What is seen -/

theorem ahead_past (past : l.length ≤ i) : ahead on l i = [] := by
  rw [ahead, List.drop_eq_nil_of_le past, List.filter_nil]

theorem ahead_at (here : l[i]? = some a) :
    ahead on l i = if on a then a :: ahead on l (i + 1) else ahead on l (i + 1) := by
  obtain ⟨inside, rfl⟩ := List.getElem?_eq_some_iff.mp here
  rw [ahead, List.drop_eq_getElem_cons inside, List.filter_cons]
  rfl

theorem behind_succ (here : l[i]? = some a) :
    behind on l (i + 1) = if on a then behind on l i ++ [a] else behind on l i := by
  rw [behind, List.take_add_one, here, Option.toList_some, List.filter_append, List.filter_singleton]
  cases on a with
  | true => rfl
  | false => exact List.append_nil _

theorem behind_append_ahead (i : Nat) : behind on l i ++ ahead on l i = l.filter on := by
  rw [behind, ahead, ← List.filter_append, List.take_append_drop]

theorem Rests.ahead (rests : Rests on l i) (here : l[i]? = some a) :
    ahead on l i = a :: Sieve.ahead on l (i + 1) := by
  rw [ahead_at here, rests a here, if_pos rfl]

theorem Rests.get (rests : Rests on l i) : l[i]? = (Sieve.ahead on l i)[0]? := by
  cases here : l[i]? with
  | none => rw [ahead_past (List.getElem?_eq_none_iff.mp here), List.getElem?_nil]
  | some a =>
      rw [rests.ahead here]
      rfl

/-! ## Moving on -/

theorem skip_spec (i : Nat) :
    Rests on l (skip on l i) ∧ ahead on l (skip on l i) = ahead on l i ∧
      behind on l (skip on l i) = behind on l i ∧ i ≤ skip on l i ∧
      (i ≤ l.length → skip on l i ≤ l.length) := by
  fun_induction skip on l i with
  | case1 i inside counts =>
      refine ⟨fun a here => ?_, rfl, rfl, Nat.le_refl i, id⟩
      rw [List.getElem?_eq_getElem inside] at here
      cases here
      exact counts
  | case2 i inside passed ih =>
      obtain ⟨rests, sameAhead, sameBehind, onward, bounded⟩ := ih
      have here := List.getElem?_eq_getElem inside
      refine ⟨rests, ?_, ?_, Nat.le_of_succ_le onward, fun _ => bounded inside⟩
      · rw [sameAhead, ahead_at here, if_neg passed]
      · rw [sameBehind, behind_succ here, if_neg passed]
  | case3 i outside =>
      refine ⟨fun a here => ?_, rfl, rfl, Nat.le_refl i, id⟩
      exact absurd (List.getElem?_eq_some_iff.mp here).1 outside

theorem rests_skip (i : Nat) : Rests on l (skip on l i) := (skip_spec i).1

theorem ahead_skip (i : Nat) : ahead on l (skip on l i) = ahead on l i := (skip_spec i).2.1

theorem behind_skip (i : Nat) : behind on l (skip on l i) = behind on l i := (skip_spec i).2.2.1

theorem le_skip (i : Nat) : i ≤ skip on l i := (skip_spec i).2.2.2.1

theorem skip_le (inside : i ≤ l.length) : skip on l i ≤ l.length := (skip_spec i).2.2.2.2 inside

theorem Rests.ahead_next (rests : Rests on l i) :
    Sieve.ahead on l (skip on l (i + 1)) = (Sieve.ahead on l i).tail := by
  rw [ahead_skip]
  cases here : l[i]? with
  | none =>
      have past := List.getElem?_eq_none_iff.mp here
      rw [ahead_past past, ahead_past (Nat.le_succ_of_le past), List.tail_nil]
  | some a => rw [rests.ahead here, List.tail_cons]

theorem Rests.forward_get (rests : Rests on l i) (k : Nat) :
    l[forward on l k i]? = (Sieve.ahead on l i)[k]? := by
  induction k generalizing i with
  | zero => exact rests.get
  | succ k ih => rw [forward, ih (rests_skip _), rests.ahead_next, List.getElem?_tail]

theorem ahead_length_le (i : Nat) : (ahead on l i).length ≤ l.length - i := by
  rw [ahead, ← List.length_drop]
  exact List.length_filter_le _ _

/-! ## Moving back -/

theorem behind_past (past : l[i]? = none) : behind on l (i + 1) = behind on l i := by
  have past := List.getElem?_eq_none_iff.mp past
  rw [behind, behind, List.take_of_length_le past, List.take_of_length_le (Nat.le_succ_of_le past)]

theorem skipBack_cases (i : Nat) : skipBack on l i = none ∧ behind on l i = [] ∨
    ∃ j a, skipBack on l i = some j ∧ l[j]? = some a ∧ behind on l i = behind on l j ++ [a] := by
  induction i with
  | zero => exact .inl ⟨rfl, rfl⟩
  | succ i ih =>
      cases here : l[i]? with
      | none =>
          have same : skipBack on l (i + 1) = skipBack on l i := by simp [skipBack, here]
          rwa [same, behind_past here]
      | some a =>
          by_cases counts : on a = true
          · refine .inr ⟨i, a, by simp [skipBack, here, counts], here, ?_⟩
            rw [behind_succ here, if_pos counts]
          · have same : skipBack on l (i + 1) = skipBack on l i := by simp [skipBack, here, counts]
            rwa [same, behind_succ here, if_neg counts]

theorem backward_get (k i : Nat) :
    ((backward on l (k + 1) i).bind fun j => l[j]?) = (behind on l i).reverse[k]? := by
  induction k generalizing i with
  | zero =>
      rcases @skipBack_cases α on l i with ⟨none, empty⟩ | ⟨j, a, found, here, same⟩
      · simp [backward, none, empty]
      · simp [backward, found, here, same]
  | succ k ih =>
      rw [backward]
      rcases @skipBack_cases α on l i with ⟨none, empty⟩ | ⟨j, a, found, here, same⟩
      · simp [none, empty]
      · rw [found, Option.bind_some, ih, same, List.reverse_append]
        rfl

/-! ## Positions and what they see -/

theorem behind_length_le (i : Nat) : (behind on l i).length ≤ i :=
  Nat.le_trans (List.length_filter_le _ _) (List.length_take_le i l)

theorem Rests.ahead_lt (rests : Rests on l i) (inside : i < l.length) (later : i < j) :
    (Sieve.ahead on l j).length < (Sieve.ahead on l i).length := by
  rw [rests.ahead (List.getElem?_eq_getElem inside), List.length_cons, Nat.lt_succ_iff]
  have rest : l.drop j = (l.drop (i + 1)).drop (j - (i + 1)) := by
    rw [List.drop_drop]
    congr 1
    omega
  rw [Sieve.ahead, rest]
  exact ((List.drop_sublist _ _).filter on).length_le

theorem rests_inj (rests : Rests on l i) (rests' : Rests on l j) (inside : i ≤ l.length)
    (inside' : j ≤ l.length) (same : (ahead on l i).length = (ahead on l j).length) : i = j := by
  rcases Nat.lt_trichotomy i j with before | equal | after
  · exact absurd same.symm (Nat.ne_of_lt (rests.ahead_lt (by omega) before))
  · exact equal
  · exact absurd same (Nat.ne_of_lt (rests'.ahead_lt (by omega) after))

end Sieve
