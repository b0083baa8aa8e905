import RepositoryManager.Grammar
import RepositoryManager.Verification

/-! # Quoting

What importing a clause should do to its literals, and what `transformClause` does: it
looks for the text of the head in the text of the body, and then quotes all literals of
the body or none.
-/

namespace RepositoryManager

open ByteString Grammar

/-! ## The transform of a clause -/

/-- `says(K,t)` -/
def saysText (keyDigest t : Str) : Str := "says(".toList ++ keyDigest ++ ",".toList ++ t ++ [')']

theorem binderClause_fact (keyDigest : Str) {pClause : Str} (absent : ¬ [':', '-'] <:+: pClause) :
    binderClause keyDigest pClause = some (saysText keyDigest pClause.dropLast ++ ['.']) := by
  have none : (find ":-".toList pClause).isSome = false := by
    rw [Bool.eq_false_iff, ne_eq, find_isSome_iff]
    exact absent
  simp only [binderClause, none, Bool.false_eq_true, if_false]
  exact congrArg some (List.append_assoc _ [')'] ['.']).symm

section Rule

variable (keyDigest : Str) {head body : Str}

theorem binderClause_rule (absent : ¬ [':', '-'] <:+: head) :
    binderClause keyDigest (head ++ ':' :: '-' :: body) =
      some (saysText keyDigest head ++ ":-".toList ++
        if (find head body).isSome then body
        else wrapClauses ("says(".toList ++ keyDigest) (getClauses body)) := by
  have found : (find ":-".toList (head ++ ':' :: '-' :: body)).isSome := by
    rw [find_isSome_iff]
    exact ⟨head, body, by simp⟩
  simp only [binderClause, found, Rule.make_split absent, if_true, Option.bind_eq_bind,
    Option.bind_some]
  have joined : ∀ tail : Str,
      "says(".toList ++ keyDigest ++ ",".toList ++ head ++ "):-".toList ++ tail =
        saysText keyDigest head ++ ":-".toList ++ tail := fun tail =>
    congrArg (· ++ tail) (List.append_assoc _ [')'] [':', '-']).symm
  split
  · exact congrArg some (joined _)
  · exact congrArg some (joined _)

end Rule

/-! ## The literals of a body -/

theorem getClauses_body (first : Literal) (more : List Literal) :
    getClauses (bodyText first more ++ ['.']) = (first :: more).map Literal.text := by
  induction more generalizing first with
  | nil =>
      obtain ⟨t, ends⟩ := first.text_ends
      have absent : ¬ [')', ','] <:+: first.text ++ ['.'] := by
        rw [pair_infix_separator (by decide) (by decide)]
        rintro (inText | inNil)
        · exact first.no_boundary inText
        · simp at inNil
      rw [bodyText_nil, getClauses_last absent]
      simp
  | cons m ms ih =>
      obtain ⟨t, ends⟩ := first.text_ends
      have absent : ¬ [')', ','] <:+: t := fun inside => first.no_boundary (by
        rw [ends]
        exact inside.trans (List.prefix_append _ _).isInfix)
      have split : bodyText first (m :: ms) ++ ['.'] = t ++ ')' :: ',' :: (bodyText m ms ++ ['.']) := by
        rw [bodyText_cons, ends]
        simp
      rw [split, getClauses_cut absent, ih m, ← ends]
      rfl

theorem wrapClauses_eq (keyDigest c : Str) (cs : List Str) :
    wrapClauses ("says(".toList ++ keyDigest) (c :: cs) =
      [','].intercalate ((c :: cs).map (saysText keyDigest)) ++ ['.'] := by
  have wrapped : ∀ (c rest : Str), "says(".toList ++ keyDigest ++ ',' :: c ++ ")".toList ++ rest =
      saysText keyDigest c ++ rest := by
    intro c rest
    exact congrArg (· ++ [')'] ++ rest) (List.append_assoc _ [','] c).symm
  induction cs generalizing c with
  | nil =>
      rw [wrapClauses, List.map_singleton, List.intercalate_singleton]
      exact wrapped c _
  | cons d cs ih =>
      have split : [','].intercalate ((c :: d :: cs).map (saysText keyDigest)) =
          saysText keyDigest c ++ [','] ++ [','].intercalate ((d :: cs).map (saysText keyDigest)) :=
        List.intercalate_cons_cons
      rw [wrapClauses, ih d, split]
      · exact (congrArg (· ++ _) (wrapped c _)).trans (List.append_assoc _ _ _).symm
      · exact nofun

/-! ## What it should be -/

/-- A literal that is attributed to someone already. -/
def Grammar.Literal.isSays : Literal → Bool
  | .predicate _ => false
  | .saysThat _ _ => true

/-- A literal, attributed to the key unless it is to someone already. -/
def quoteLiteral (keyDigest : Str) (l : Literal) : Str :=
  if l.isSays then l.text else saysText keyDigest l.text

/-- A clause as it is imported: the head becomes a statement of the key, and so does each
    literal of the body that is not attributed yet. -/
def quoteClause (keyDigest : Str) : Clause → Str
  | .fact head => saysText keyDigest head.text ++ ['.']
  | .rule head first more =>
      saysText keyDigest head.text ++ ":-".toList ++
        ([','].intercalate ((first :: more).map (quoteLiteral keyDigest)) ++ ['.'])

/-- The clauses for which one decision for the whole body is right: the head holds no
    `:-`, and all literals of the body are attributed if the text of the head occurs in
    the body, none otherwise. -/
def DecidedAlike (c : Clause) : Prop :=
  ¬ [':', '-'] <:+: c.head.text ∧
  match c with
  | .fact _ => True
  | .rule head first more =>
      if (find head.text (bodyText first more)).isSome then ∀ l ∈ first :: more, l.isSays = true
      else ∀ l ∈ first :: more, l.isSays = false

/-! ## When it is -/

theorem intercalate_length {α : Type} {f g : α → Str} (le : ∀ a, (f a).length ≤ (g a).length)
    (as : List α) :
    ([','].intercalate (as.map f)).length ≤ ([','].intercalate (as.map g)).length ∧
    (([','].intercalate (as.map f)).length = ([','].intercalate (as.map g)).length →
      ∀ a ∈ as, (f a).length = (g a).length) := by
  induction as with
  | nil => simp
  | cons a as ih =>
      cases as with
      | nil => simpa using le a
      | cons b bs =>
          have split : ∀ h : α → Str, ([','].intercalate ((a :: b :: bs).map h)).length =
              (h a).length + 1 + ([','].intercalate ((b :: bs).map h)).length := by
            intro h
            have joined : [','].intercalate ((a :: b :: bs).map h) =
                h a ++ [','] ++ [','].intercalate ((b :: bs).map h) := List.intercalate_cons_cons
            rw [joined, List.length_append, List.length_append, List.length_singleton]
          obtain ⟨shorter, same⟩ := ih
          have first := le a
          rw [split f, split g]
          refine ⟨by omega, fun equal c member => ?_⟩
          rcases List.mem_cons.mp member with rfl | later
          · omega
          · exact same (by omega) c later

theorem saysText_length (keyDigest t : Str) : t.length < (saysText keyDigest t).length := by
  have longer : ∀ front : Str, t.length < (front ++ t ++ [')']).length := by
    intro front
    simp only [List.length_append, List.length_singleton]
    omega
  exact longer _

theorem text_eq_quoted_iff (keyDigest : Str) (ls : List Literal) :
    [','].intercalate (ls.map Literal.text) = [','].intercalate (ls.map (quoteLiteral keyDigest)) ↔
      ∀ l ∈ ls, l.isSays = true := by
  have le : ∀ l : Literal, l.text.length ≤ (quoteLiteral keyDigest l).length := by
    intro l
    rw [quoteLiteral]
    split
    · exact Nat.le_refl _
    · exact (saysText_length keyDigest l.text).le
  constructor
  · intro same l member
    have equal := (intercalate_length le ls).2 (congrArg List.length same) l member
    by_contra notSays
    rw [quoteLiteral, if_neg notSays] at equal
    exact (saysText_length keyDigest l.text).ne equal
  · intro all
    refine congrArg _ (List.map_congr_left fun l member => ?_)
    rw [quoteLiteral, if_pos (all l member)]

theorem wrapped_eq_quoted_iff (keyDigest : Str) (ls : List Literal) :
    [','].intercalate (ls.map fun l => saysText keyDigest l.text) =
        [','].intercalate (ls.map (quoteLiteral keyDigest)) ↔
      ∀ l ∈ ls, l.isSays = false := by
  have le : ∀ l : Literal,
      (quoteLiteral keyDigest l).length ≤ (saysText keyDigest l.text).length := by
    intro l
    rw [quoteLiteral]
    split
    · exact (saysText_length keyDigest l.text).le
    · exact Nat.le_refl _
  constructor
  · intro same l member
    have equal := (intercalate_length le ls).2 (congrArg List.length same.symm) l member
    cases attributed : l.isSays with
    | false => rfl
    | true =>
        rw [quoteLiteral, if_pos attributed] at equal
        exact absurd equal (saysText_length keyDigest l.text).ne
  · intro none
    refine congrArg _ (List.map_congr_left fun l member => ?_)
    rw [quoteLiteral, if_neg (by simp [none l member])]

theorem find_body (head : Literal) (body : Str) :
    (find head.text (body ++ ['.'])).isSome = (find head.text body).isSome := by
  rw [Bool.eq_iff_iff, find_isSome_iff, find_isSome_iff]
  constructor
  · rintro ⟨before, after, same⟩
    rcases List.eq_nil_or_concat after with rfl | ⟨after, c, rfl⟩
    · obtain ⟨t, ends⟩ := head.text_ends
      rw [List.append_nil, ends, ← List.append_assoc] at same
      cases (List.append_inj' same rfl).2
    · rw [List.concat_eq_append, ← List.append_assoc] at same
      exact ⟨before, after, (List.append_inj' same rfl).1⟩
  · exact fun inside => inside.trans (List.prefix_append _ _).isInfix

/-- With a `:-` in the head the transform cuts the head there. -/
theorem binderClause_cut_head (keyDigest : Str) {head tail : Str} (inside : [':', '-'] <:+: head) :
    ∃ cut rest after, head = cut ++ ':' :: '-' :: rest ∧ binderClause keyDigest (head ++ tail) =
      some (saysText keyDigest cut ++ ":-".toList ++ after) := by
  obtain ⟨i, found⟩ := Option.isSome_iff_exists.mp ((find_isSome_iff _ _).mpr inside)
  obtain ⟨cut, rest, rfl, -, absent⟩ := find_pair_split found
  have cutThere := @binderClause_rule keyDigest cut (rest ++ tail) absent
  rw [← List.cons_append, ← List.cons_append, ← List.append_assoc] at cutThere
  exact ⟨cut, rest, _, rfl, cutThere⟩

theorem Grammar.Clause.text_head (c : Clause) : ∃ tail, c.text = c.head.text ++ tail := by
  cases c with
  | fact head => exact ⟨_, Clause.text_fact head⟩
  | rule head first more => exact ⟨_, Clause.text_rule head first more⟩

theorem quoteClause_head (keyDigest : Str) (c : Clause) :
    ∃ tail, quoteClause keyDigest c = saysText keyDigest c.head.text ++ tail := by
  cases c with
  | fact head => exact ⟨_, rfl⟩
  | rule head first more => exact ⟨_, List.append_assoc _ _ _⟩

theorem cut_head_ne (keyDigest cut rest after tail : Str) :
    saysText keyDigest cut ++ ":-".toList ++ after ≠
      saysText keyDigest (cut ++ ':' :: '-' :: rest) ++ tail := by
  have differ : ∀ front after : Str, front ++ cut ++ [')'] ++ after ≠
      front ++ (cut ++ ':' :: '-' :: rest) ++ [')'] ++ tail := by
    intro front after same
    simp at same
  intro same
  exact differ _ _ ((List.append_assoc _ _ _).symm.trans same)

theorem transformClause_eq_iff (policy : Policy) (pClause retVal : Str) :
    (∃ policy', transformClause policy pClause = some (retVal, policy')) ↔
      binderClause policy.keyDigest pClause = some retVal := by
  obtain ⟨made, policy', done, transformed, -, -⟩ := transformClause_eq policy pClause
  rw [done, transformed]
  simp

theorem sign_stop {t : Str} : [':', '-'] <:+: t ++ ['.'] ↔ [':', '-'] <:+: t := by
  rw [pair_infix_separator (by decide) (by decide)]
  simp

/-- The transformed text is the quoted one exactly when the literals can be decided alike. -/
theorem binderClause_quotes_iff (keyDigest : Str) (c : Clause) :
    binderClause keyDigest c.text = some (quoteClause keyDigest c) ↔ DecidedAlike c := by
  unfold DecidedAlike
  by_cases inside : [':', '-'] <:+: c.head.text
  · obtain ⟨tail, text⟩ := c.text_head
    obtain ⟨tail', quoted⟩ := quoteClause_head keyDigest c
    obtain ⟨cut, rest, after, isHead, transformed⟩ :=
      @binderClause_cut_head keyDigest _ tail inside
    rw [text, transformed, quoted, isHead]
    constructor
    · intro same
      exact absurd (Option.some.inj same) (cut_head_ne _ _ _ _ _)
    · rintro ⟨absent, -⟩
      exact absurd ⟨cut, rest, by simp⟩ absent
  · cases c with
    | fact head =>
        have clean : ¬ [':', '-'] <:+: head.text := inside
        rw [Clause.text_fact, binderClause_fact _ (mt sign_stop.mp clean), List.dropLast_concat]
        exact ⟨fun _ => ⟨inside, trivial⟩, fun _ => rfl⟩
    | rule head first more =>
        have clean : ¬ [':', '-'] <:+: head.text := inside
        rw [Clause.text_rule, binderClause_rule _ clean, find_body]
        by_cases occurs : (find head.text (bodyText first more)).isSome = true
        · simp only [occurs, if_true]
          rw [quoteClause, Option.some.injEq, List.append_right_inj, List.append_left_inj, bodyText,
            text_eq_quoted_iff]
          exact ⟨fun all => ⟨inside, all⟩, fun both => both.2⟩
        · simp only [occurs, Bool.false_eq_true, if_false]
          rw [getClauses_body, List.map_cons, wrapClauses_eq, quoteClause, Option.some.injEq,
            List.append_right_inj, List.append_left_inj, ← List.map_cons, List.map_map]
          exact (wrapped_eq_quoted_iff keyDigest (first :: more)).trans
            ⟨fun none => ⟨inside, none⟩, fun both => both.2⟩

/-- Importing a clause quotes it as it should exactly when its literals can be decided
    alike. -/
theorem transformClause_quotes_iff (policy : Policy) (c : Clause) :
    (∃ policy', transformClause policy c.text =
      some (quoteClause policy.keyDigest c, policy')) ↔ DecidedAlike c := by
  rw [transformClause_eq_iff, binderClause_quotes_iff]

/-- `ok(a):-not_ok(a).` -/
def okClause : Clause :=
  .rule (.predicate ⟨.of "ok", .of "a", []⟩) (.predicate ⟨.of "not_ok", .of "a", []⟩) []

/-- The text of the head occurs in the other literal, which is then not quoted. -/
theorem okClause_not_quoted : ¬ ∀ (policy : Policy) (c : Clause), ∃ policy',
    transformClause policy c.text = some (quoteClause policy.keyDigest c, policy') := by
  intro always
  have quoted := (transformClause_eq_iff ⟨[], "rsa_1".toList, [], []⟩ okClause.text _).mp
    (always ⟨[], "rsa_1".toList, [], []⟩ okClause)
  have differ : binderClause "rsa_1".toList okClause.text ≠
      some (quoteClause "rsa_1".toList okClause) := by decide +kernel
  exact differ quoted

end RepositoryManager
