import RepositoryManager.PolicySafety
import RepositoryManager.Queries
import RepositoryManager.Quoting

/-! # The splitting of a rule

`Rule.h` with its positions and its exceptions: the constructor cuts at the first
`:-`, and `getClauses` at each `),`, of which it keeps one character. It loses
nothing: joined by commas the pieces are the body again, but for the last character,
and for a body of the grammar they are its literals.
-/

namespace RepositoryManager

open ByteString Grammar

/-! ## The constructor -/

namespace Checked

/-- The difference of two positions in a text, which wraps below zero. -/
def difference (idx pos : Nat) : Nat :=
  if pos ≤ idx then idx - pos else idx + 18446744073709551616 - pos

/-- `while(!end)` in `getClauses`, on what is left of the body; `none` is an exception of
    `substr`. -/
def clausesLoop (clauses : List Str) (tmp : Str) : Option (List Str) :=
  match _found : find "),".toList tmp with
  | some pos => do
      let clause ← substr tmp 0 (pos + 1)
      match _cut : substr tmp (pos + 2) (difference (difference tmp.length pos) 2) with
      | some rest => clausesLoop (clauses ++ [clause]) rest
      | none => none
  | none => do
      let clause ← substr tmp 0 (difference tmp.length 1)
      return clauses ++ [clause]
termination_by tmp.length
decreasing_by
  have inside : pos + 2 ≤ tmp.length := find_end_le _found
  rw [substr_inside inside] at _cut
  cases _cut
  simp only [List.length_take, List.length_drop]
  omega

/-- `getClauses()`, which splits the body at its first call. -/
def getClausesOf (r : Rule) : Option (List Str × Rule) :=
  if r.clauses.length < 1 then do
    let clauses ← clausesLoop r.clauses r.body
    return (clauses, { r with clauses })
  else some (r.clauses, r)

/-- `Rule(const string & r)` -/
def rule (r : Str) : Option Rule := do
  let imp := find ":-".toList r
  let head ← substr r 0 (imp.getD npos)
  let body ← substr r (plusTwo imp) (difference r.length 1)
  let (_, made) ← getClausesOf { head, body, atom := r, clauses := [] }
  return made

end Checked

/-! ## No exception -/

namespace Checked

theorem difference_of_le {idx pos : Nat} (le : pos ≤ idx) : difference idx pos = idx - pos :=
  if_pos le

theorem take_difference_one (tmp : Str) : tmp.take (difference tmp.length 1) = tmp.dropLast := by
  cases tmp with
  | nil => rfl
  | cons c tmp => rw [difference_of_le (by simp), List.dropLast_eq_take]

theorem clausesLoop_eq (clauses : List Str) (tmp : Str) :
    clausesLoop clauses tmp = some (clauses ++ RepositoryManager.getClauses tmp) := by
  induction size : tmp.length using Nat.strongRecOn generalizing clauses tmp with
  | ind n ih =>
      rw [clausesLoop]
      split
      · next pos found =>
          have inside : pos + 2 ≤ tmp.length := find_end_le found
          have cut : substr tmp (pos + 2) (difference (difference tmp.length pos) 2) =
              some (tmp.drop (pos + 2)) := by
            rw [difference_of_le (show pos ≤ tmp.length by omega), difference_of_le (by omega),
              substr_behind inside]
          have rest := ih (tmp.drop (pos + 2)).length (by rw [List.length_drop]; omega)
            (clauses ++ [tmp.take (pos + 1)]) _ rfl
          rw [substr_inside (Nat.zero_le _), List.drop_zero, Option.bind_eq_bind, Option.bind_some,
            getClauses_some found]
          split
          · next s same =>
              rw [cut] at same
              cases same
              rw [rest, List.append_assoc, List.singleton_append]
          · next absurd =>
              rw [cut] at absurd
              cases absurd
      · next absent =>
          rw [substr_inside (Nat.zero_le _), List.drop_zero, take_difference_one,
            getClauses_none absent]
          rfl

theorem getClauses_ne_nil (tmp : Str) : RepositoryManager.getClauses tmp ≠ [] := by
  cases found : find "),".toList tmp with
  | some pos => rw [getClauses_some found]; exact List.cons_ne_nil _ _
  | none => rw [getClauses_none found]; exact List.cons_ne_nil _ _

/-- A text with a `:-` makes the rule that is cut at the first one. -/
theorem rule_of_infix {r : Str} (contains : [':', '-'] <:+: r) :
    ∃ head body, r = head ++ ':' :: '-' :: body ∧ ¬ [':', '-'] <:+: head ∧
      rule r = some { head, body, atom := r, clauses := RepositoryManager.getClauses body } := by
  obtain ⟨i, found⟩ := Option.isSome_iff_exists.mp ((find_isSome_iff _ _).mpr contains)
  obtain ⟨head, body, rfl, length, absent⟩ := find_pair_split found
  subst length
  have start : (head ++ ':' :: '-' :: body).drop (head.length + 2) = body := by
    simp [List.drop_append, List.drop_eq_nil_of_le]
  have rest : difference (head ++ ':' :: '-' :: body).length 1 =
      (head ++ ':' :: '-' :: body).length - 1 := difference_of_le (by simp; omega)
  refine ⟨head, body, rfl, absent, ?_⟩
  have marked : find ":-".toList (head ++ ':' :: '-' :: body) = some head.length := found
  rw [rule, marked]
  simp only [Option.getD_some, plusTwo]
  rw [substr_inside (Nat.zero_le _), substr_inside (by simp), rest, start, List.drop_zero,
    List.take_left, List.take_of_length_le (by simp; omega)]
  simp only [Option.bind_eq_bind, Option.bind_some, getClausesOf, List.length_nil,
    Nat.lt_one_iff, if_true, clausesLoop_eq, List.nil_append]
  rfl

/-- It is the rule of the model without positions. -/
theorem rule_eq_make {r : Str} (contains : [':', '-'] <:+: r) : rule r = Rule.make r := by
  obtain ⟨head, body, rfl, absent, made⟩ := rule_of_infix contains
  rw [made, Rule.make_split absent]

theorem getClausesOf_made {r : Rule} (made : r.clauses ≠ []) :
    getClausesOf r = some (r.clauses, r) := by
  have some : ¬ r.clauses.length < 1 := by
    have := List.length_pos_iff.mpr made
    omega
  exact if_neg some

end Checked

/-! ## Nothing is lost -/

theorem cut_or_last (tmp : Str) :
    (∃ piece rest, tmp = piece ++ ')' :: ',' :: rest ∧ ¬ [')', ','] <:+: piece ∧
      getClauses tmp = (piece ++ [')']) :: getClauses rest ∧ rest.length < tmp.length) ∨
    ¬ [')', ','] <:+: tmp ∧ getClauses tmp = [tmp.dropLast] := by
  by_cases inside : [')', ','] <:+: tmp
  · obtain ⟨i, found⟩ := Option.isSome_iff_exists.mp ((find_isSome_iff _ _).mpr inside)
    obtain ⟨piece, rest, rfl, -, absent⟩ := find_pair_split found
    refine .inl ⟨piece, rest, rfl, absent, getClauses_cut absent, ?_⟩
    simp only [List.length_append, List.length_cons]
    omega
  · exact .inr ⟨inside, getClauses_last inside⟩

/-- Joined by commas, the pieces are the body without its full stop. -/
theorem getClauses_join {tmp : Str} (stop : ['.'] <:+ tmp) :
    [','].intercalate (getClauses tmp) ++ ['.'] = tmp := by
  induction size : tmp.length using Nat.strongRecOn generalizing tmp with
  | ind n ih =>
      rcases cut_or_last tmp with ⟨piece, rest, cut, -, pieces, shorter⟩ | ⟨-, pieces⟩
      · have later : ['.'] <:+ rest := by
          obtain ⟨front, same⟩ := stop
          rcases List.eq_nil_or_concat' rest with rfl | ⟨before, c, rfl⟩
          · have ends : front ++ ['.'] = (piece ++ [')']) ++ [','] := by rw [same, cut]; simp
            cases (List.append_inj' ends rfl).2
          · have ends : front ++ ['.'] = (piece ++ ')' :: ',' :: before) ++ [c] := by
              rw [same, cut]
              simp
            rw [← (List.append_inj' ends rfl).2]
            exact List.suffix_append before ['.']
        have joined := ih rest.length (by omega) later rfl
        obtain ⟨first, more, split⟩ := List.exists_cons_of_ne_nil (Checked.getClauses_ne_nil rest)
        rw [pieces, split, List.intercalate_cons_cons, ← split, List.append_assoc,
          List.append_assoc, joined, cut]
        simp
      · obtain ⟨front, rfl⟩ := stop
        rw [pieces, List.intercalate_singleton, List.dropLast_concat]

theorem getClauses_no_boundary (tmp : Str) : ∀ c ∈ getClauses tmp, ¬ [')', ','] <:+: c := by
  induction size : tmp.length using Nat.strongRecOn generalizing tmp with
  | ind n ih =>
      intro c member
      rcases cut_or_last tmp with ⟨piece, rest, cut, absent, pieces, shorter⟩ | ⟨absent, pieces⟩
      · rw [pieces] at member
        rcases List.mem_cons.mp member with rfl | later
        · exact absent ∘ pair_infix_of_concat (by decide)
        · exact ih rest.length (by omega) rest rfl c later
      · rw [pieces, List.mem_singleton] at member
        rw [member]
        exact fun inside => absent (inside.trans (List.dropLast_prefix tmp).isInfix)

theorem getClauses_close (tmp : Str) : ∀ c ∈ (getClauses tmp).dropLast, [')'] <:+ c := by
  induction size : tmp.length using Nat.strongRecOn generalizing tmp with
  | ind n ih =>
      intro c member
      rcases cut_or_last tmp with ⟨piece, rest, cut, absent, pieces, shorter⟩ | ⟨absent, pieces⟩
      · obtain ⟨first, more, split⟩ := List.exists_cons_of_ne_nil (Checked.getClauses_ne_nil rest)
        rw [pieces, split, List.dropLast_cons_cons, ← split] at member
        rcases List.mem_cons.mp member with rfl | later
        · exact List.suffix_append piece [')']
        · exact ih rest.length (by omega) rest rfl c later
      · rw [pieces] at member
        cases member

/-- A rule that is cut at its first `:-`, and its list of clauses, which is the body cut up. -/
structure Lossless (r : Str) (made : Rule) (list : List Str) : Prop where
  whole : made.head ++ ":-".toList ++ made.body = r
  first : ¬ [':', '-'] <:+: made.head
  joined : ['.'] <:+ made.body → [','].intercalate list ++ ['.'] = made.body
  close : ∀ c ∈ list.dropLast, [')'] <:+ c
  noBoundary : ∀ c ∈ list, ¬ [')', ','] <:+: c
  literals : ∀ first more, made.body = bodyText first more ++ ['.'] →
    list = (first :: more).map Literal.text

/-- From every text with a `:-` the constructor makes a rule, without an exception, and head, body
    and clauses lose nothing of it. -/
theorem rule_lossless (r : Str) (contains : ":-".toList <:+: r) :
    ∃ made list, Checked.rule r = some made ∧ Checked.getClausesOf made = some (list, made) ∧
      Lossless r made list := by
  obtain ⟨head, body, rfl, absent, made⟩ := Checked.rule_of_infix contains
  refine ⟨_, getClauses body, made, Checked.getClausesOf_made (Checked.getClauses_ne_nil body), ?_⟩
  exact
    { whole := by simp
      first := absent
      joined := getClauses_join
      close := getClauses_close body
      noBoundary := getClauses_no_boundary body
      literals := fun first more same => by rw [show body = _ from same, getClauses_body] }

theorem rule_lossless_says :
    ∃ made list, Checked.rule "p(a):-says(k,p(a)),q(b).".toList = some made ∧
      Checked.getClausesOf made = some (list, made) ∧
      Lossless "p(a):-says(k,p(a)),q(b).".toList made list :=
  rule_lossless _ ⟨"p(a)".toList, "says(k,p(a)),q(b).".toList, rfl⟩

end RepositoryManager
