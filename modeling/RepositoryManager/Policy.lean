import RepositoryManager.Utils

/-! # Rules and policies

`Rule.h` and `Policy.h`. A constructor that throws, or that reads outside its
string, gives `none`.
-/

namespace RepositoryManager

open ByteString

/-- A rule cut at its first `:-`, and its body cut at every `),`. -/
structure Rule where
  head : Str
  body : Str
  atom : Str
  clauses : List Str
  deriving DecidableEq

/-- The loop of `getClauses` on what is left of the body. -/
def getClauses (tmp : Str) : List Str :=
  match _found : find "),".toList tmp with
  | some pos => tmp.take (pos + 1) :: getClauses (tmp.drop (pos + 2))
  | none => [tmp.dropLast]
termination_by tmp.length
decreasing_by
  obtain ⟨before, after, same, _⟩ := find_split _found
  have := congrArg List.length same
  simp at this ⊢
  omega

/-- `Rule(const string & r)`. Without a `:-` the body starts at `npos + 2`, which
    is 1 and past the end of the empty string. -/
def Rule.make (r : Str) : Option Rule := do
  let imp := find ":-".toList r
  let head := r.take (imp.getD r.length)
  let body ← substr r ((imp.map (· + 2)).getD 1) (r.length - 1)
  return { head, body, atom := r, clauses := getClauses body }

structure Policy where
  policyStr : Str
  keyDigest : Str
  facts : List Str
  rules : List Rule
  deriving DecidableEq

namespace Policy

def addRule (p : Policy) (r : Rule) : Policy := { p with rules := p.rules ++ [r] }

def addFact (p : Policy) (f : Str) : Policy := { p with facts := p.facts ++ [f] }

def setKeyDigest (p : Policy) (kd : Str) : Policy := { p with keyDigest := kd }

@[simp] theorem addRule_policyStr (p : Policy) (r) : (p.addRule r).policyStr = p.policyStr := rfl
@[simp] theorem addRule_keyDigest (p : Policy) (r) : (p.addRule r).keyDigest = p.keyDigest := rfl
@[simp] theorem addFact_policyStr (p : Policy) (f) : (p.addFact f).policyStr = p.policyStr := rfl
@[simp] theorem addFact_keyDigest (p : Policy) (f) : (p.addFact f).keyDigest = p.keyDigest := rfl
@[simp] theorem setKeyDigest_policyStr (p : Policy) (kd) :
    (p.setKeyDigest kd).policyStr = p.policyStr := rfl
@[simp] theorem setKeyDigest_keyDigest (p : Policy) (kd) :
    (p.setKeyDigest kd).keyDigest = kd := rfl

/-- Retrieves the substring from the end of the delimiter in the source string. -/
def getsub (source delim : Str) : Str :=
  if source = [] ∨ delim = [] then []
  else
    match find delim source with
    | some pos => (source.drop (pos + delim.length)).take (source.length - delim.length)
    | none => []

/-- `while(!isspace(policyStr[pos])) pos--;` from inside the string. Below position
    0 the index wraps and the next read is outside the string. -/
def backToSpace (s : Str) (pos : Nat) : Option Nat :=
  match s[pos]? with
  | none => none
  | some c =>
      if isSpace c then some pos
      else match pos with
        | 0 => none
        | pos + 1 => backToSpace s pos

theorem getsub_length_lt {tmp : Str} {idx : Nat} (found : findFirstOf ['.'] tmp = some idx) :
    (getsub tmp ['.']).length < tmp.length := by
  have nonempty : 0 < tmp.length := by
    cases tmp with
    | nil => simp [findFirstOf] at found
    | cons c s => simp
  simp only [getsub]
  split
  · simpa using nonempty
  · cases find ['.'] tmp with
    | none => simpa using nonempty
    | some pos => simp; omega

/-- The loop of `getAtoms`: one atom for each full stop. -/
def getAtomsFrom (tmp : Str) (p : Policy) : Option Policy :=
  match _found : findFirstOf ['.'] tmp with
  | none => some p
  | some idx =>
      let atom := trim (tmp.take (idx + 1))
      if (find ":-".toList atom).isSome then
        match Rule.make atom with
        | some r => getAtomsFrom (getsub tmp ['.']) (p.addRule r)
        | none => none
      else getAtomsFrom (getsub tmp ['.']) (p.addFact atom)
termination_by tmp.length
decreasing_by all_goals exact getsub_length_lt _found

/-- What one pass of the loop does with its atom. -/
def addAtom (p : Policy) (atom : Str) : Option Policy :=
  if (find ":-".toList atom).isSome then (Rule.make atom).map p.addRule else some (p.addFact atom)

theorem getAtomsFrom_none {tmp : Str} (absent : findFirstOf ['.'] tmp = none) (p : Policy) :
    getAtomsFrom tmp p = some p := by
  rw [getAtomsFrom]
  split
  · rfl
  · next idx found =>
      rw [absent] at found
      cases found

theorem getAtomsFrom_some {tmp : Str} {idx : Nat} (found : findFirstOf ['.'] tmp = some idx)
    (p : Policy) : getAtomsFrom tmp p =
      (p.addAtom (trim (tmp.take (idx + 1)))).bind (getAtomsFrom (getsub tmp ['.'])) := by
  rw [getAtomsFrom]
  split
  · next absent =>
      rw [found] at absent
      cases absent
  · next idx' found' =>
      rw [found] at found'
      cases found'
      simp only [addAtom]
      split
      · cases Rule.make (trim (tmp.take (idx + 1))) <;> rfl
      · rfl

/-- Retrieves all atoms of the policy, from the white space before the first `(`;
    the last character of the text is left off. -/
def getAtoms (p : Policy) : Option Policy := do
  let first ← findFirstOf ['('] p.policyStr
  let pos ← backToSpace p.policyStr first
  let tmp ← substr p.policyStr pos (p.policyStr.length - pos - 1)
  getAtomsFrom tmp p

def make (pPolicyStr : Str) : Option Policy :=
  let p : Policy := { policyStr := pPolicyStr, keyDigest := [], facts := [], rules := [] }
  if pPolicyStr ≠ [] then p.getAtoms else some p

theorem getAtomsFrom_policyStr {tmp : Str} {p q : Policy} (made : getAtomsFrom tmp p = some q) :
    q.policyStr = p.policyStr := by
  fun_induction getAtomsFrom tmp p with
  | case1 tmp p none =>
      cases made
      rfl
  | case2 tmp p idx found atom isRule r rule ih => rw [ih made, addRule_policyStr]
  | case3 tmp p idx found atom isRule failed => cases made
  | case4 tmp p idx found atom isFact ih => rw [ih made, addFact_policyStr]

theorem make_policyStr {text : Str} {p : Policy} (made : make text = some p) :
    p.policyStr = text := by
  unfold make at made
  simp only at made
  split at made
  · simp only [getAtoms, Option.bind_eq_bind, Option.bind_eq_some_iff] at made
    obtain ⟨first, _, pos, _, tmp, _, done⟩ := made
    exact getAtomsFrom_policyStr done
  · cases made
    rfl

end Policy

/-! ## Rules cut from a text with `:-` -/

theorem Rule.make_split {head body : Str} (absent : ¬ [':', '-'] <:+: head) :
    Rule.make (head ++ ':' :: '-' :: body) =
      some { head, body, atom := head ++ ':' :: '-' :: body, clauses := getClauses body } := by
  have found : find ":-".toList (head ++ ':' :: '-' :: body) = some head.length :=
    find_pair (by decide) head body absent
  have cut : substr (head ++ ':' :: '-' :: body) (head.length + 2)
      ((head ++ ':' :: '-' :: body).length - 1) = some body := by
    rw [substr_inside (by simp)]
    have rest : (head ++ ':' :: '-' :: body).drop (head.length + 2) = body := by
      simp [List.drop_append, List.drop_eq_nil_of_le]
    rw [rest, List.take_of_length_le (by simp; omega)]
  rw [Rule.make, found]
  simp only [Option.map_some, Option.getD_some, cut]
  simp

theorem getClauses_some {tmp : Str} {pos : Nat} (found : find "),".toList tmp = some pos) :
    getClauses tmp = tmp.take (pos + 1) :: getClauses (tmp.drop (pos + 2)) := by
  rw [getClauses]
  split
  · rename_i pos' found'
    rw [found] at found'
    cases found'
    rfl
  · rename_i absent
    rw [found] at absent
    cases absent

theorem getClauses_none {tmp : Str} (absent : find "),".toList tmp = none) :
    getClauses tmp = [tmp.dropLast] := by
  rw [getClauses]
  split
  · rename_i pos found
    rw [absent] at found
    cases found
  · rfl

theorem getClauses_last {tmp : Str} (absent : ¬ [')', ','] <:+: tmp) :
    getClauses tmp = [tmp.dropLast] :=
  getClauses_none ((find_eq_none_iff _ _).mpr absent)

theorem getClauses_cut {piece rest : Str} (absent : ¬ [')', ','] <:+: piece) :
    getClauses (piece ++ ')' :: ',' :: rest) = (piece ++ [')']) :: getClauses rest := by
  have first : find "),".toList (piece ++ ')' :: ',' :: rest) = some piece.length :=
    find_pair (by decide) piece rest absent
  rw [getClauses_some first]
  simp [List.take_append, List.drop_append, List.take_of_length_le, List.drop_eq_nil_of_le]

end RepositoryManager
