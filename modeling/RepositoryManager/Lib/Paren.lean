import RepositoryManager.Lib.ByteString

/-! # Parentheses

The depth of a text, and texts that close exactly the parentheses they open. A text
that closes more than it opens has a first closing parenthesis that is not its own.
-/

namespace Paren

open ByteString

def weight (c : Char) : Int :=
  if c = '(' then 1 else if c = ')' then -1 else 0

/-- The parentheses that a text opens and does not close. -/
def depth : Str → Int
  | [] => 0
  | c :: s => weight c + depth s

@[simp] theorem depth_nil : depth [] = 0 := rfl

@[simp] theorem depth_cons (c : Char) (s : Str) : depth (c :: s) = weight c + depth s := rfl

@[simp] theorem depth_append (s t : Str) : depth (s ++ t) = depth s + depth t := by
  induction s with
  | nil => simp
  | cons c s ih =>
      rw [List.cons_append, depth_cons, depth_cons, ih]
      omega

theorem weight_other {c : Char} (notOpen : c ≠ '(') (notClose : c ≠ ')') : weight c = 0 := by
  simp [weight, notOpen, notClose]

theorem depth_intercalate {sep : Str} (none : depth sep = 0) (ts : List Str) :
    depth (sep.intercalate ts) = depth ts.flatten := by
  induction ts with
  | nil => rfl
  | cons t ts ih =>
      cases ts with
      | nil => simp
      | cons u us =>
          rw [List.intercalate_cons_cons, depth_append, depth_append, none, ih, Int.add_zero,
            ← depth_append]
          rfl

/-- No parenthesis at all. -/
def Plain (s : Str) : Prop := '(' ∉ s ∧ ')' ∉ s

instance (s : Str) : Decidable (Plain s) := inferInstanceAs (Decidable (_ ∧ _))

theorem Plain.append {s t : Str} (first : Plain s) (second : Plain t) : Plain (s ++ t) :=
  ⟨fun member => (List.mem_append.mp member).elim first.1 second.1,
    fun member => (List.mem_append.mp member).elim first.2 second.2⟩

theorem Plain.depth_eq {s : Str} (plain : Plain s) : depth s = 0 := by
  induction s with
  | nil => rfl
  | cons c s ih =>
      obtain ⟨noOpen, noClose⟩ := plain
      rw [List.mem_cons, not_or] at noOpen noClose
      rw [depth_cons, weight_other (Ne.symm noOpen.1) (Ne.symm noClose.1),
        ih ⟨noOpen.2, noClose.2⟩, Int.zero_add]

/-- The parentheses of a text match. -/
structure Balanced (s : Str) : Prop where
  nonneg : ∀ u v, s = u ++ v → 0 ≤ depth u
  closed : depth s = 0

theorem Plain.balanced {s : Str} (plain : Plain s) : Balanced s where
  nonneg := by
    rintro u v rfl
    have front : Plain u := ⟨fun member => plain.1 (List.mem_append_left _ member),
      fun member => plain.2 (List.mem_append_left _ member)⟩
    exact Int.le_of_eq front.depth_eq.symm
  closed := plain.depth_eq

theorem Balanced.append {s t : Str} (first : Balanced s) (second : Balanced t) :
    Balanced (s ++ t) where
  nonneg := by
    intro u v cut
    rcases List.append_eq_append_iff.mp cut with ⟨w, rfl, inSecond⟩ | ⟨w, rfl, -⟩
    · have := second.nonneg w v inSecond
      rw [depth_append, first.closed]
      omega
    · exact first.nonneg u w rfl
  closed := by rw [depth_append, first.closed, second.closed, Int.add_zero]

theorem Balanced.wrap {s : Str} (inner : Balanced s) : Balanced ('(' :: (s ++ [')'])) where
  nonneg := by
    intro u v cut
    cases u with
    | nil => exact Int.le_refl 0
    | cons c u =>
        obtain ⟨rfl, inside⟩ := List.cons.inj cut
        have opens : depth ('(' :: u) = 1 + depth u := depth_cons _ _
        rw [opens]
        rcases List.append_eq_append_iff.mp inside with ⟨w, rfl, last⟩ | ⟨w, rfl, -⟩
        · have atMost : -1 ≤ depth w := by
            rcases List.append_eq_singleton_iff.mp last.symm with ⟨rfl, -⟩ | ⟨rfl, -⟩
            · decide
            · decide
          rw [depth_append, inner.closed]
          omega
        · have := inner.nonneg u w rfl
          omega
  closed := by
    rw [depth_cons, depth_append, inner.closed]
    decide

theorem first_close {s : Str} {n : Int} (start : 0 ≤ n) (negative : n + depth s < 0) :
    ∃ t rest, s = t ++ ')' :: rest ∧ (∀ u v, t = u ++ v → 0 ≤ n + depth u) ∧ n + depth t = 0 := by
  induction s generalizing n with
  | nil =>
      rw [depth_nil] at negative
      omega
  | cons c s ih =>
      rw [depth_cons] at negative
      by_cases closes : n = 0 ∧ c = ')'
      · obtain ⟨rfl, rfl⟩ := closes
        refine ⟨[], s, rfl, ?_, by simp⟩
        intro u v cut
        rw [(List.append_eq_nil_iff.mp cut.symm).1]
        decide
      · have stays : 0 ≤ n + weight c := by
          by_cases isClose : c = ')'
          · have positive : n ≠ 0 := fun same => closes ⟨same, isClose⟩
            have drops : weight ')' = -1 := by decide
            rw [isClose, drops]
            omega
          · by_cases isOpen : c = '('
            · have rises : weight '(' = 1 := by decide
              rw [isOpen, rises]
              omega
            · rw [weight_other isOpen isClose]
              omega
        obtain ⟨t, rest, rfl, nonneg, closed⟩ := @ih (n + weight c) stays (by omega)
        refine ⟨c :: t, rest, rfl, ?_, by rw [depth_cons]; omega⟩
        intro u v cut
        cases u with
        | nil =>
            rw [depth_nil]
            omega
        | cons d u =>
            obtain ⟨rfl, inside⟩ := List.cons.inj cut
            have := nonneg u v inside
            rw [depth_cons]
            omega

theorem close_of_depth {s : Str} (closesOne : depth s = -1) :
    ∃ t rest, s = t ++ ')' :: rest ∧ Balanced t := by
  obtain ⟨t, rest, cut, nonneg, closed⟩ := first_close (Int.le_refl 0) (s := s) (by omega)
  simp only [Int.zero_add] at nonneg closed
  exact ⟨t, rest, cut, nonneg, closed⟩

end Paren
