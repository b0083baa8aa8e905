import Mathlib.Data.List.Induction
import RepositoryManager.Verification

/-! # Reads and cuts of the policy constructor

The constructor of `Policy` once more, with every call of `substr` written as the
call it is: a start past the end throws. No cut ever does, so that the constructor
fails exactly where the walk back from the first `(` leaves the string.
-/

namespace RepositoryManager

open ByteString

namespace Checked

/-- The position two characters on; `npos + 2` wraps to 1. -/
def plusTwo : Option Nat → Nat
  | some idx => idx + 2
  | none => 1

/-- `trim`, with its cut. -/
def trim (pStr : Str) : Option Str :=
  let retVal := pStr.filter fun c => c ≠ ' ' && c ≠ '\n' && c ≠ '\t' && c ≠ '\r'
  match find "/*".toList retVal with
  | none => some retVal
  | some _ => substr retVal (plusTwo (find "*/".toList retVal)) (retVal.length - 1)

/-- `Policy::getsub`, with its cut. -/
def getsub (source delim : Str) : Option Str :=
  if source = [] ∨ delim = [] then some []
  else
    match find delim source with
    | some pos => substr source (pos + delim.length) (source.length - delim.length)
    | none => some []

/-- The loop of `Rule::getClauses`, with its cuts. -/
def getClauses (tmp : Str) : Option (List Str) :=
  match _found : find "),".toList tmp with
  | some pos => do
      let piece ← substr tmp 0 (pos + 1)
      match _cut : substr tmp (pos + 2) (tmp.length - pos - 2) with
      | some rest => do
          let pieces ← getClauses rest
          return piece :: pieces
      | none => none
  | none => do
      let piece ← substr tmp 0 (tmp.length - 1)
      return [piece]
termination_by tmp.length
decreasing_by
  have inside : pos + 2 ≤ tmp.length := find_end_le _found
  rw [substr_inside inside] at _cut
  cases _cut
  simp only [List.length_take, List.length_drop]
  omega

/-- `Rule(const string & r)`, with its cuts. -/
def makeRule (r : Str) : Option Rule := do
  let imp := find ":-".toList r
  let head ← substr r 0 (imp.getD r.length)
  let body ← substr r (plusTwo imp) (r.length - 1)
  let clauses ← getClauses body
  return { head, body, atom := r, clauses }

/-! ## No cut throws -/

theorem trim_eq (pStr : Str) : trim pStr = some (RepositoryManager.trim pStr) := by
  simp only [trim, RepositoryManager.trim]
  generalize pStr.filter _ = s
  cases opened : find "/*".toList s with
  | none => rfl
  | some _ =>
      have two : _ + 2 ≤ s.length := find_end_le opened
      cases closed : find "*/".toList s with
      | some pos => exact substr_inside (find_end_le closed)
      | none =>
          have one : 1 ≤ s.length := by omega
          exact substr_inside one

theorem getsub_eq (source delim : Str) :
    getsub source delim = some (Policy.getsub source delim) := by
  rw [getsub, Policy.getsub]
  split
  · rfl
  · cases found : find delim source with
    | none => rfl
    | some pos => exact substr_inside (find_end_le found)

theorem substr_behind {tmp : Str} {pos : Nat} (inside : pos + 2 ≤ tmp.length) :
    substr tmp (pos + 2) (tmp.length - pos - 2) = some (tmp.drop (pos + 2)) := by
  rw [substr_inside inside, List.take_of_length_le (by simp; omega)]

theorem getClauses_eq (tmp : Str) : getClauses tmp = some (RepositoryManager.getClauses tmp) := by
  induction size : tmp.length using Nat.strongRecOn generalizing tmp with
  | ind n ih =>
      rw [getClauses]
      split
      · next pos found =>
          have inside : pos + 2 ≤ tmp.length := find_end_le found
          have cut := substr_behind inside
          have rest := ih (tmp.drop (pos + 2)).length
            (by rw [List.length_drop]; omega) _ rfl
          rw [substr_inside (Nat.zero_le _), List.drop_zero, Option.bind_eq_bind, Option.bind_some,
            getClauses_some found]
          split
          · next s same =>
              rw [cut] at same
              cases same
              rw [rest]
              rfl
          · next absurd =>
              rw [cut] at absurd
              cases absurd
      · next absent =>
          rw [substr_inside (Nat.zero_le _), List.drop_zero, ← List.dropLast_eq_take,
            getClauses_none absent]
          rfl

theorem makeRule_eq (r : Str) : makeRule r = Rule.make r := by
  have start : plusTwo (find ":-".toList r) = ((find ":-".toList r).map (· + 2)).getD 1 := by
    cases find ":-".toList r <;> rfl
  rw [makeRule, Rule.make, substr_inside (Nat.zero_le _), List.drop_zero, start]
  simp only [Option.bind_eq_bind, Option.bind_some, getClauses_eq]

end Checked

/-! ## The constructor -/

namespace Checked

theorem getsub_shorter {tmp rest : Str} {idx : Nat} (found : findFirstOf ['.'] tmp = some idx)
    (cut : getsub tmp ['.'] = some rest) : rest.length < tmp.length := by
  rw [getsub_eq] at cut
  cases cut
  exact Policy.getsub_length_lt found

/-- `Policy::addRule` or `Policy::addFact`, with the cuts of the rule. -/
def addAtom (p : Policy) (atom : Str) : Option Policy :=
  if (find ":-".toList atom).isSome then (makeRule atom).map p.addRule else some (p.addFact atom)

/-- The loop of `Policy::getAtoms`, with its cuts. -/
def getAtomsFrom (tmp : Str) (p : Policy) : Option Policy :=
  match _found : findFirstOf ['.'] tmp with
  | none => some p
  | some idx => do
      let piece ← substr tmp 0 (idx + 1)
      let atom ← trim piece
      let p ← addAtom p atom
      match _cut : getsub tmp ['.'] with
      | some rest => getAtomsFrom rest p
      | none => none
termination_by tmp.length
decreasing_by exact getsub_shorter _found _cut

/-- `Policy::getAtoms`, with its reads and cuts. `backToSpace` reads within the string only. -/
def getAtoms (p : Policy) : Option Policy := do
  let first ← findFirstOf ['('] p.policyStr
  let pos ← Policy.backToSpace p.policyStr first
  let tmp ← substr p.policyStr pos (p.policyStr.length - pos - 1)
  getAtomsFrom tmp p

/-- `Policy(const string & pPolicyStr)`; `none` is a read or a cut outside a string. -/
def make (pPolicyStr : Str) : Option Policy :=
  let p : Policy := { policyStr := pPolicyStr, keyDigest := [], facts := [], rules := [] }
  if pPolicyStr ≠ [] then getAtoms p else some p

theorem addAtom_some (p : Policy) (atom : Str) :
    ∃ q, addAtom p atom = some q ∧ p.addAtom atom = some q := by
  rw [addAtom, Policy.addAtom, makeRule_eq]
  split
  · next found =>
      obtain ⟨r, made⟩ := Rule.make_of_found found
      rw [made]
      exact ⟨_, rfl, rfl⟩
  · exact ⟨_, rfl, rfl⟩

theorem getAtomsFrom_eq (tmp : Str) (p : Policy) :
    ∃ q, getAtomsFrom tmp p = some q ∧ Policy.getAtomsFrom tmp p = some q := by
  induction size : tmp.length using Nat.strongRecOn generalizing tmp p with
  | ind n ih =>
      rw [getAtomsFrom]
      split
      · next absent => exact ⟨p, rfl, Policy.getAtomsFrom_none absent p⟩
      · next idx found =>
          obtain ⟨q, checked, added⟩ := addAtom_some p (RepositoryManager.trim (tmp.take (idx + 1)))
          obtain ⟨r, loop, same⟩ := ih (Policy.getsub tmp ['.']).length
            (by rw [← size]; exact Policy.getsub_length_lt found) _ q rfl
          refine ⟨r, ?_, ?_⟩
          · simp only [substr_inside (Nat.zero_le _), List.drop_zero, trim_eq, checked,
              Option.bind_eq_bind, Option.bind_some]
            split
            · next rest cut =>
                rw [getsub_eq] at cut
                cases cut
                exact loop
            · next cut =>
                rw [getsub_eq] at cut
                cases cut
          · rw [Policy.getAtomsFrom_some found, added, Option.bind_some, same]

theorem make_eq (text : Str) : make text = Policy.make text := by
  have loop : getAtomsFrom = Policy.getAtomsFrom := by
    funext tmp p
    obtain ⟨q, checked, same⟩ := getAtomsFrom_eq tmp p
    rw [checked, same]
  simp only [make, Policy.make, getAtoms, Policy.getAtoms, loop]

end Checked

/-! ## Which files load -/

/-- Some white space stands before the first `(`. -/
def SpaceBefore (text : Str) : Prop :=
  ∃ front rest, text = front ++ '(' :: rest ∧ '(' ∉ front ∧ ∃ c ∈ front, isSpace c = true

/-- The constructor ends without a read or a cut outside a string. -/
def LoadsSafely (text : Str) : Prop := ∃ p, Checked.make text = some p

/-- The walk back stops at the last white space before its start. -/
theorem backToSpace_space {front mid : Str} {c : Char} (space : isSpace c = true)
    (clean : ∀ d ∈ mid, isSpace d = false) (rest : Str) :
    Policy.backToSpace (front ++ c :: (mid ++ rest)) (front.length + mid.length) =
      some front.length := by
  induction mid using List.reverseRecOn generalizing rest with
  | nil =>
      rw [List.length_nil, Nat.add_zero, Policy.backToSpace.eq_def]
      simp [space]
  | append_singleton mid d ih =>
      rw [List.forall_mem_append, List.forall_mem_singleton] at clean
      have here : (front ++ c :: (mid ++ [d] ++ rest))[front.length + (mid ++ [d]).length]? =
          some d := by
        simp
      have before := ih clean.1 ([d] ++ rest)
      rw [← List.append_assoc mid] at before
      rw [Policy.backToSpace.eq_def, here]
      simp only [clean.2, Bool.false_eq_true, if_false, List.length_append, List.length_singleton]
      exact before

theorem backToSpace_none {front : Str} (clean : ∀ d ∈ front, isSpace d = false) (rest : Str)
    {pos : Nat} (inside : pos < front.length) : Policy.backToSpace (front ++ rest) pos = none := by
  have here : ∀ i < front.length, ∃ d, (front ++ rest)[i]? = some d ∧ isSpace d = false := by
    intro i below
    rw [List.getElem?_append_left below]
    exact ⟨front[i], List.getElem?_eq_getElem below, clean _ (List.getElem_mem below)⟩
  induction pos with
  | zero =>
      obtain ⟨d, at_zero, noSpace⟩ := here 0 inside
      rw [Policy.backToSpace.eq_def, at_zero]
      simp [noSpace]
  | succ pos ih =>
      obtain ⟨d, at_pos, noSpace⟩ := here (pos + 1) inside
      rw [Policy.backToSpace.eq_def, at_pos]
      simp only [noSpace, Bool.false_eq_true, if_false]
      exact ih (Nat.lt_of_succ_lt inside)

/-- The constructor cuts the text behind `pre`, at the last white space before the first
    parenthesis. -/
def CutAt (text pre : Str) : Prop :=
  ∃ s gap rest, text = pre ++ s :: (gap ++ '(' :: rest) ∧ isSpace s = true ∧
    (∀ c ∈ gap, isSpace c = false) ∧ '(' ∉ pre ∧ '(' ∉ gap

theorem SpaceBefore.cutAt {text : Str} (before : SpaceBefore text) : ∃ pre, CutAt text pre := by
  obtain ⟨front, rest, rfl, noParen, someSpace⟩ := before
  obtain ⟨pre, s, gap, rfl, space, clean⟩ := last_split someSpace
  rw [List.mem_append, List.mem_cons, not_or, not_or] at noParen
  exact ⟨pre, s, gap, rest, by simp, space, clean, noParen.1, noParen.2.2⟩

theorem CutAt.getAtoms {p : Policy} {pre : Str} (cut : CutAt p.policyStr pre) :
    p.getAtoms = Policy.getAtomsFrom (p.policyStr.drop pre.length).dropLast p := by
  obtain ⟨s, gap, rest, text, space, clean, notInPre, notInGap⟩ := cut
  have notSpace : s ≠ '(' := by
    rintro rfl
    cases space
  have found : findFirstOf ['('] p.policyStr = some (pre ++ s :: gap).length := by
    rw [text, show pre ++ s :: (gap ++ '(' :: rest) = (pre ++ s :: gap) ++ '(' :: rest by simp]
    refine findFirstOf_eq (List.mem_singleton_self _) fun d member same => ?_
    rw [List.mem_singleton.mp same] at member
    simp [notInPre, notInGap, notSpace.symm] at member
  have walked : Policy.backToSpace p.policyStr (pre ++ s :: gap).length = some pre.length := by
    have toParen := @backToSpace_space pre (gap ++ ['(']) s space
      (by
        rw [List.forall_mem_append, List.forall_mem_singleton]
        exact ⟨clean, rfl⟩) rest
    rw [text]
    simpa [Nat.add_assoc, Nat.add_comm] using toParen
  have inside : pre.length ≤ p.policyStr.length := by simp [text]
  simp only [Policy.getAtoms, found, walked, Option.bind_eq_bind, Option.bind_some,
    substr_inside inside]
  rw [List.dropLast_eq_take, List.length_drop]

theorem spaceBefore_of_getAtoms {p q : Policy} (made : p.getAtoms = some q) :
    SpaceBefore p.policyStr := by
  simp only [Policy.getAtoms, Option.bind_eq_bind] at made
  rw [Option.bind_eq_some_iff] at made
  obtain ⟨first, found, made⟩ := made
  obtain ⟨front, c, rest, text, rfl, isParen, clean⟩ := findFirstOf_split found
  rw [List.mem_singleton] at isParen
  subst isParen
  refine ⟨front, rest, text, fun member => clean _ member (List.mem_singleton_self _), ?_⟩
  by_contra noSpace
  have blank : ∀ d ∈ front ++ ['('], isSpace d = false := by
    rw [List.forall_mem_append, List.forall_mem_singleton]
    exact ⟨fun d member => Bool.eq_false_iff.mpr fun space => noSpace ⟨d, member, space⟩, rfl⟩
  have inside : front.length < (front ++ ['(']).length := by simp
  have walked := backToSpace_none blank rest inside
  rw [List.append_assoc, List.singleton_append] at walked
  rw [text, walked] at made
  cases made

/-- A policy loads without leaving a string exactly if white space stands before its first
    `(`. -/
theorem loadsSafely_iff {text : Str} (nonempty : text ≠ []) :
    LoadsSafely text ↔ SpaceBefore text := by
  rw [LoadsSafely, Checked.make_eq]
  simp only [Policy.make, if_pos nonempty]
  constructor
  · rintro ⟨p, made⟩
    exact spaceBefore_of_getAtoms made
  · intro before
    obtain ⟨pre, cut⟩ := before.cutAt
    obtain ⟨q, -, done⟩ := Checked.getAtomsFrom_eq _ _
    exact ⟨q, (CutAt.getAtoms (p := ⟨text, [], [], []⟩) cut).trans done⟩

theorem loadsSafely_iff_declared :
    LoadsSafely ":- import p.\np(a).\n".toList ↔ SpaceBefore ":- import p.\np(a).\n".toList :=
  loadsSafely_iff (by decide)

/-- A text whose first clause begins at the first byte. -/
theorem first_byte_unsafe : ¬ LoadsSafely "p(a).\n".toList := by
  rw [LoadsSafely, Checked.make_eq]
  have fails : Policy.make "p(a).\n".toList = none := by decide
  rw [fails]
  simp

end RepositoryManager
