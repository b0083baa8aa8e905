import Mathlib.Data.List.Basic

/-! # Prediction

`antlr3cyclicdfa.c`: the loop by which a generated lexer or parser looks ahead and
chooses an alternative, driven by the tables that ANTLR generated for the
decision. The end of the input counts as the symbol `-1`.
-/

namespace RepositoryManager

/-- `ANTLR3_CYCLIC_DFA`. A state without transitions has the table `NULL`. -/
structure CyclicDfa where
  eot : List Int
  eof : List Int
  min : List Int
  max : List Int
  accept : List Int
  special : List Int
  transition : List (Option (List Int))

namespace CyclicDfa

/-- How one pass of the prediction loop ends. -/
inductive Move where
  | alt (n : Int)
  | goto (s : Nat)
  | noViableAlt
  deriving DecidableEq

/-- What `predict` returns: an alternative, or 0 with a `NoViableAlt` exception. The loop
    has no bound of its own. -/
inductive Prediction where
  | alt (n : Int)
  | noViableAlt
  | running
  deriving DecidableEq

variable {α : Type} {code : α → Int}

/-- An entry of a table that has one for each state. -/
def entry (table : List Int) (s : Nat) : Int := table.getD s (-1)

/-- `istream->_LA(istream, 1)` -/
def lookAhead (code : α → Int) : List α → Int
  | [] => -1
  | a :: _ => code a

/-- Where the EOT edge of a state leads, if it has one. -/
def eotMove (d : CyclicDfa) (s : Nat) : Move :=
  if 0 ≤ entry d.eot s then .goto (entry d.eot s).toNat else .noViableAlt

/-- One pass of the loop of `antlr3dfapredict` in state `s`, with the symbol `c` ahead.
    The default special transition, which both decisions name, answers -1. -/
def move (d : CyclicDfa) (s : Nat) (c : Int) : Move :=
  if 0 ≤ entry d.special s then .noViableAlt
  else if 1 ≤ entry d.accept s then .alt (entry d.accept s)
  else if entry d.min s ≤ c ∧ c ≤ entry d.max s then
    let snext := ((d.transition.getD s none).getD []).getD (c - entry d.min s).toNat (-1)
    if snext < 0 then eotMove d s else .goto snext.toNat
  else if 0 ≤ entry d.eot s then eotMove d s
  else if c = -1 ∧ 0 ≤ entry d.eof s then .alt (entry d.accept (entry d.eof s).toNat)
  else .noViableAlt

/-- At most `fuel` passes of the loop. Every pass but the last consumes a symbol, and at
    the end of the input there is none to consume. -/
def predictFrom (d : CyclicDfa) (code : α → Int) : Nat → Nat → List α → Prediction
  | 0, _, _ => .running
  | fuel + 1, s, input =>
      match d.move s (lookAhead code input) with
      | .alt n => .alt n
      | .noViableAlt => .noViableAlt
      | .goto s' => d.predictFrom code fuel s' input.tail

/-- `antlr3dfapredict`. The input is rewound, so only the answer is left of it. -/
def predict (d : CyclicDfa) (code : α → Int) (input : List α) : Prediction :=
  d.predictFrom code (input.length + 2) 0 input

/-! ## The loop ends -/

/-- At the end of the input no state leads further than to a state that accepts. -/
def Settled (d : CyclicDfa) : Prop :=
  ∀ s s', d.move s (-1) = .goto s' → ∀ c s'', d.move s' c ≠ .goto s''

/-- Whether state `s` goes on at the end of the input, and then to a state that accepts. -/
def settledOk (d : CyclicDfa) (s : Nat) : Bool :=
  match d.move s (-1) with
  | .goto s' => entry d.special s' < 0 && 1 ≤ entry d.accept s'
  | _ => true

/-- All tables have an entry for each of `n` states. -/
structure Sized (d : CyclicDfa) (n : Nat) : Prop where
  eot : d.eot.length = n
  min : d.min.length = n
  max : d.max.length = n
  accept : d.accept.length = n
  special : d.special.length = n
  transition : d.transition.length = n

theorem entry_past {table : List Int} {s : Nat} (past : table.length ≤ s) :
    entry table s = -1 := by
  rw [entry, List.getD_eq_getElem?_getD, List.getElem?_eq_none past, Option.getD_none]

theorem move_past {d : CyclicDfa} {n s : Nat} (sized : d.Sized n) (past : n ≤ s) :
    d.move s (-1) = .noViableAlt := by
  have noEntry : ∀ {table : List Int}, table.length = n → entry table s = -1 :=
    fun size => entry_past (by omega)
  have noRow : d.transition.getD s none = none := by
    have := sized.transition
    rw [List.getD_eq_getElem?_getD, List.getElem?_eq_none (by omega), Option.getD_none]
  have stop : d.eotMove s = .noViableAlt := by
    rw [eotMove, noEntry sized.eot, if_neg (by omega)]
  rw [move, noEntry sized.special, noEntry sized.accept, noEntry sized.min, noEntry sized.max,
    noRow, stop]
  rfl

theorem settled_of_check {d : CyclicDfa} {n : Nat} (sized : d.Sized n)
    (check : ((List.range n).all d.settledOk) = true) : d.Settled := by
  intro s s' first c s'' second
  by_cases inside : s < n
  · have ok := List.all_eq_true.mp check s (List.mem_range.mpr inside)
    simp only [settledOk, first, Bool.and_eq_true, decide_eq_true_eq] at ok
    rw [move, if_neg (by omega), if_pos (by omega)] at second
    cases second
  · rw [move_past sized (by omega)] at first
    cases first

theorem predictFrom_ne_running {d : CyclicDfa} (settled : d.Settled) (s : Nat) (input : List α) :
    d.predictFrom code (input.length + 2) s input ≠ .running := by
  induction input generalizing s with
  | nil =>
      rw [List.length_nil, predictFrom]
      cases here : d.move s (lookAhead code []) with
      | alt n => simp
      | noViableAlt => simp
      | goto s' =>
          have last := settled s s' here
          simp only [List.tail_nil, predictFrom]
          cases there : d.move s' (lookAhead code []) with
          | alt n => simp
          | noViableAlt => simp
          | goto s'' => exact absurd there (last _ s'')
  | cons a input ih =>
      rw [List.length_cons, predictFrom]
      cases here : d.move s (lookAhead code (a :: input)) with
      | alt n => simp
      | noViableAlt => simp
      | goto s' => exact ih s'

/-! ## What the loop answers -/

/-- The passes of the loop from a state, up to its answer. -/
inductive Predicts (d : CyclicDfa) (code : α → Int) : Nat → List α → Prediction → Prop where
  | alt {s : Nat} {input : List α} {n : Int}
      (last : d.move s (lookAhead code input) = .alt n) : Predicts d code s input (.alt n)
  | noViableAlt {s : Nat} {input : List α}
      (last : d.move s (lookAhead code input) = .noViableAlt) :
      Predicts d code s input .noViableAlt
  | goto {s s' : Nat} {input : List α} {p : Prediction}
      (first : d.move s (lookAhead code input) = .goto s')
      (next : Predicts d code s' input.tail p) : Predicts d code s input p

theorem predictFrom_of_predicts {d : CyclicDfa} {s : Nat} {input : List α} {p : Prediction}
    (run : Predicts d code s input p) (fuel : Nat) :
    d.predictFrom code fuel s input = p ∨ d.predictFrom code fuel s input = .running := by
  induction run generalizing fuel with
  | alt last =>
      cases fuel with
      | zero => exact .inr rfl
      | succ fuel => exact .inl (by rw [predictFrom, last])
  | noViableAlt last =>
      cases fuel with
      | zero => exact .inr rfl
      | succ fuel => exact .inl (by rw [predictFrom, last])
  | goto first _ ih =>
      cases fuel with
      | zero => exact .inr rfl
      | succ fuel =>
          rw [predictFrom, first]
          exact ih fuel

theorem predict_eq {d : CyclicDfa} (settled : d.Settled) {input : List α} {p : Prediction}
    (run : Predicts d code 0 input p) : d.predict code input = p :=
  (predictFrom_of_predicts run _).resolve_right (predictFrom_ne_running settled 0 input)

end CyclicDfa

end RepositoryManager
