import RepositoryManager.Lib.Terminated
import RepositoryManager.Importing

/-! # The program file has one reading

The texts of statements delimit themselves: a statement ends where its parentheses are
closed. So a line is the text of one clause only, and a file behind a policy is the text
of one list of clauses only.
-/

namespace RepositoryManager

open ByteString Grammar Terminated

/-! ## Words -/

theorem Grammar.Text.eq_of_chars {t u : Text} (same : t.chars = u.chars) : t = u := by
  cases t
  cases u
  cases same
  rfl

/-- The characters that no word holds and that end one. -/
def IsMark (c : Char) : Prop := c = '(' ∨ c = ',' ∨ c = ')'

theorem Grammar.Text.no_mark (t : Text) : ∀ c ∈ t.chars, ¬ IsMark c := by
  rintro c member (rfl | rfl | rfl)
  · exact t.not_mem rfl member
  · exact t.not_mem rfl member
  · exact t.not_mem rfl member

theorem word_cut {t u : Text} {x y : Char} {r r' : Str} (isMark : IsMark x) (isMark' : IsMark y)
    (same : t.chars ++ x :: r = u.chars ++ y :: r') : t = u ∧ x = y ∧ r = r' := by
  obtain ⟨chars, marks, rests⟩ := stop_inj isMark isMark' t.no_mark u.no_mark same
  exact ⟨Text.eq_of_chars chars, marks, rests⟩

theorem restArgs_cut {as bs : List Text} {r r' : Str}
    (same : restArgs as ++ ')' :: r = restArgs bs ++ ')' :: r') : as = bs ∧ r = r' := by
  have begins : ∀ (a : Text) (as : List Text) (r : Str),
      restArgs (a :: as) ++ ')' :: r = ',' :: (a.chars ++ (restArgs as ++ ')' :: r)) := by
    simp [restArgs]
  have ends : ∀ (as : List Text) (r : Str),
      ∃ x more, IsMark x ∧ restArgs as ++ ')' :: r = x :: more := by
    intro as r
    cases as with
    | nil => exact ⟨')', r, .inr (.inr rfl), rfl⟩
    | cons a as => exact ⟨',', _, .inr (.inl rfl), begins a as r⟩
  induction as generalizing bs with
  | nil =>
      cases bs with
      | nil =>
          cases same
          exact ⟨rfl, rfl⟩
      | cons b bs =>
          rw [begins] at same
          cases same
  | cons a as ih =>
      cases bs with
      | nil =>
          rw [begins] at same
          cases same
      | cons b bs =>
          rw [begins, begins, List.cons.injEq] at same
          obtain ⟨x, more, isMark, next⟩ := ends as r
          obtain ⟨y, more', isMark', next'⟩ := ends bs r'
          have tails := same.2
          rw [next, next'] at tails
          obtain ⟨rfl, rfl, rfl⟩ := word_cut isMark isMark' tails
          obtain ⟨rfl, rests⟩ := ih (next.trans next'.symm)
          exact ⟨rfl, rests⟩

/-! ## Statements -/

theorem Grammar.Predicate.text_append (p : Predicate) (r : Str) :
    p.text ++ r = p.name.chars ++ '(' :: (p.arg.chars ++ (restArgs p.args ++ ')' :: r)) := by
  rw [p.text_eq]
  simp

theorem Grammar.Predicate.arg_ends (p : Predicate) (r : Str) :
    ∃ x more, (x = ',' ∨ x = ')') ∧ restArgs p.args ++ ')' :: r = x :: more := by
  cases p.args with
  | nil => exact ⟨')', r, .inr rfl, rfl⟩
  | cons a as => exact ⟨',', a.chars ++ (restArgs as ++ ')' :: r), .inl rfl, by simp [restArgs]⟩

theorem Grammar.Predicate.text_cut {p q : Predicate} {r r' : Str} (same : p.text ++ r = q.text ++ r') :
    p = q ∧ r = r' := by
  rw [p.text_append, q.text_append] at same
  obtain ⟨names, -, inside⟩ := word_cut (.inl rfl) (.inl rfl) same
  obtain ⟨x, more, isMark, next⟩ := p.arg_ends r
  obtain ⟨y, more', isMark', next'⟩ := q.arg_ends r'
  rw [next, next'] at inside
  obtain ⟨args, rfl, rfl⟩ := word_cut (.inr isMark) (.inr isMark') inside
  obtain ⟨others, rests⟩ := restArgs_cut (next.trans next'.symm)
  refine ⟨?_, rests⟩
  cases p
  cases q
  cases names
  cases args
  cases others
  rfl

theorem Statement.saysThat_append (speaker : Text) (s : Statement) (r : Str) :
    (Statement.saysThat speaker s).text ++ r =
      "says".toList ++ '(' :: (speaker.chars ++ ',' :: (s.text ++ ')' :: r)) := by
  have opening : "says(".toList = "says".toList ++ ['('] := by decide
  have comma : ",".toList = [','] := by decide
  have shape : ∀ word : Str, word ++ ['('] ++ (speaker.chars ++ ([','] ++ (s.text ++ ')' :: r))) =
      word ++ '(' :: (speaker.chars ++ ',' :: (s.text ++ ')' :: r)) := by simp
  rw [← shape, ← opening, ← comma]
  exact saysText_append _ _ _

theorem Statement.begins (s : Statement) (r : Str) :
    ∃ (name : Text) (more : Str), s.text ++ r = name.chars ++ '(' :: more := by
  cases s with
  | holds p => exact ⟨p.name, _, p.text_append r⟩
  | saysThat speaker s => exact ⟨.of "says", _, Statement.saysThat_append speaker s r⟩

theorem predicate_ne_statement (p : Predicate) (speaker : Text) (s : Statement) (r r' : Str) :
    p.text ++ r ≠ (Statement.saysThat speaker s).text ++ r' := by
  intro same
  rw [p.text_append, Statement.saysThat_append] at same
  obtain ⟨-, -, inside⟩ := word_cut (u := .of "says") (.inl rfl) (.inl rfl) same
  obtain ⟨x, more, isMark, next⟩ := p.arg_ends r
  rw [next] at inside
  obtain ⟨-, rfl, rfl⟩ := word_cut (.inr isMark) (.inr (.inl rfl)) inside
  -- the next argument would be followed by an opening parenthesis
  obtain ⟨name, rest, begins⟩ := s.begins (')' :: r')
  rw [begins] at next
  cases args : p.args with
  | nil =>
      rw [args] at next
      cases next
  | cons a as =>
      have split : restArgs (a :: as) ++ ')' :: r = ',' :: (a.chars ++ (restArgs as ++ ')' :: r)) := by
        simp [restArgs]
      rw [args, split, List.cons.injEq] at next
      obtain ⟨y, tail, isMark', behind⟩ :=
        Predicate.arg_ends { name := .blank, arg := .blank, args := as } r
      have tails := next.2
      rw [behind] at tails
      obtain ⟨-, rfl, -⟩ := word_cut (.inr isMark') (.inl rfl) tails
      rcases isMark' with same | same
      · cases same
      · cases same

theorem Statement.text_cut {s t : Statement} {r r' : Str} (same : s.text ++ r = t.text ++ r') :
    s = t ∧ r = r' := by
  induction s generalizing t r r' with
  | holds p =>
      cases t with
      | holds q =>
          obtain ⟨rfl, rests⟩ := Predicate.text_cut same
          exact ⟨rfl, rests⟩
      | saysThat speaker t => exact absurd same (predicate_ne_statement p speaker t r r')
  | saysThat speaker s ih =>
      cases t with
      | holds q => exact absurd same.symm (predicate_ne_statement q speaker s r' r)
      | saysThat speaker' t =>
          rw [Statement.saysThat_append, Statement.saysThat_append] at same
          obtain ⟨-, -, inside⟩ :=
            word_cut (t := .of "says") (u := .of "says") (.inl rfl) (.inl rfl) same
          obtain ⟨rfl, -, inner⟩ := word_cut (.inr (.inl rfl)) (.inr (.inl rfl)) inside
          obtain ⟨rfl, rests⟩ := ih inner
          exact ⟨rfl, (List.cons.inj rests).2⟩

/-! ## Clauses and files -/

/-- The statements of a body behind the first, each with its comma. -/
def moreText (bs : List Statement) : Str := bs.flatMap fun b => ',' :: b.text

theorem moreText_cons (b : Statement) (bs : List Statement) (r : Str) :
    moreText (b :: bs) ++ r = ',' :: (b.text ++ (moreText bs ++ r)) := by
  simp [moreText]

theorem moreText_cut {bs cs : List Statement} {r r' : Str}
    (same : moreText bs ++ '.' :: r = moreText cs ++ '.' :: r') : bs = cs ∧ r = r' := by
  induction bs generalizing cs with
  | nil =>
      cases cs with
      | nil =>
          cases same
          exact ⟨rfl, rfl⟩
      | cons c cs =>
          rw [moreText_cons] at same
          cases same
  | cons b bs ih =>
      cases cs with
      | nil =>
          rw [moreText_cons] at same
          cases same
      | cons c cs =>
          rw [moreText_cons, moreText_cons] at same
          obtain ⟨rfl, tails⟩ := Statement.text_cut (List.cons.inj same).2
          obtain ⟨rfl, rests⟩ := ih tails
          exact ⟨rfl, rests⟩

/-- What follows the head of a clause. -/
def afterHead (body : List Statement) : Str :=
  match body with
  | [] => []
  | b :: bs => ':' :: '-' :: (b.text ++ moreText bs)

theorem clauseText_append (c : Horn.Rule Statement) (r : Str) :
    clauseText c ++ r = c.head.text ++ (afterHead c.body ++ '.' :: r) := by
  have joined : ∀ (b : Statement) (bs : List Statement),
      [','].intercalate ((b :: bs).map Statement.text) = b.text ++ moreText bs := by
    intro b bs
    induction bs generalizing b with
    | nil => simp [moreText]
    | cons d bs ih =>
        have split := moreText_cons d bs []
        rw [List.append_nil, List.append_nil] at split
        rw [split, ← ih d, List.map_cons, List.map_cons, List.intercalate_cons_cons]
        simp
  obtain ⟨head, body⟩ := c
  cases body with
  | nil =>
      rw [clauseText_fact]
      simp [afterHead]
  | cons b bs =>
      have sign : ":-".toList = [':', '-'] := by decide
      rw [clauseText_rule _ (by simp), joined, sign]
      simp [afterHead]

theorem clauseText_cut {c d : Horn.Rule Statement} {r r' : Str}
    (same : clauseText c ++ r = clauseText d ++ r') : c = d ∧ r = r' := by
  rw [clauseText_append, clauseText_append] at same
  obtain ⟨heads, tails⟩ := Statement.text_cut same
  obtain ⟨head, body⟩ := c
  obtain ⟨head', body'⟩ := d
  cases heads
  cases body with
  | nil =>
      cases body' with
      | nil =>
          cases tails
          exact ⟨rfl, rfl⟩
      | cons b' bs' => cases tails
  | cons b bs =>
      cases body' with
      | nil => cases tails
      | cons b' bs' =>
          simp only [afterHead, List.cons_append, List.append_assoc, List.cons.injEq, true_and] at tails
          obtain ⟨rfl, behind⟩ := Statement.text_cut tails
          obtain ⟨rfl, rests⟩ := moreText_cut behind
          exact ⟨rfl, rests⟩

/-- Behind one policy, two lists of clauses with one text are one list. -/
theorem programText_inj {policyText : Str} {cs ds : List (Horn.Rule Statement)}
    (same : programText policyText (cs.map clauseText) = programText policyText (ds.map clauseText)) :
    cs = ds := by
  have lines := List.append_cancel_left same
  clear same
  have line : ∀ (c : Horn.Rule Statement) (cs : List (Horn.Rule Statement)),
      (((c :: cs).map clauseText).flatMap fun line => line ++ "\n".toList) =
        clauseText c ++ ('\n' :: ((cs.map clauseText).flatMap fun line => line ++ "\n".toList)) := by
    intro c cs
    rw [List.map_cons, List.flatMap_cons, List.append_assoc]
    rfl
  induction cs generalizing ds with
  | nil =>
      cases ds with
      | nil => rfl
      | cons d ds =>
          rw [line] at lines
          obtain ⟨name, more, begins⟩ := d.head.begins (afterHead d.body ++ '.' :: _)
          rw [clauseText_append, begins] at lines
          exact absurd lines.symm (by simp)
  | cons c cs ih =>
      cases ds with
      | nil =>
          rw [line] at lines
          obtain ⟨name, more, begins⟩ := c.head.begins (afterHead c.body ++ '.' :: _)
          rw [clauseText_append, begins] at lines
          exact absurd lines (by simp)
      | cons d ds =>
          rw [line, line] at lines
          obtain ⟨rfl, rests⟩ := clauseText_cut lines
          rw [ih (List.cons.inj rests).2]

/-- Two accepted credentials lead to the same program file exactly when they import the
    same clauses, of the same keys, in the same order. -/
theorem same_file_iff (o : OpenSSL) (clib : CLib) (validate : Bool) {clock clock' : Nat → Int}
    {before ss ss₁ ss₂ : SecurityService} {policyText : Str}
    (set : before.setPolicy policyText = some ss) {c c' : Credential} (fresh : c.Fresh)
    (fresh' : c'.Fresh) (spelling : Spelling c) (spelling' : Spelling c')
    (verified : verifyCredential o clib validate clock ss (some c) = some (true, ss₁))
    (verified' : verifyCredential o clib validate clock' ss (some c') = some (true, ss₂)) :
    (∀ h, Interaction.Prog.Returns (writeBinderFile ss₁) h true ↔
        Interaction.Prog.Returns (writeBinderFile ss₂) h true) ↔
      spelling.imports o = spelling'.imports o := by
  have first := spelling.written set fresh verified
  have second := spelling'.written set fresh' verified'
  have saved : ∀ {s t : Str},
      ([⟨.saveBinder s, true⟩] : History) = [⟨.saveBinder t, true⟩] → s = t := by
    intro s t same
    cases same
    rfl
  constructor
  · intro same
    exact programText_inj (saved ((second _).mp ((same _).mp ((first _).mpr rfl))))
  · intro same h
    rw [first, second, same]

theorem bob_isText : "bob".toList.all isTextChar = true := by decide

/-- `user(bob).` -/
def bobClause : Clause := .fact (.predicate ⟨.of "user" user_isText, .of "bob" bob_isText, []⟩)

def bobSpelling : Spelling (userCredential bob [] []) where
  said _ := [bobClause]
  texts := by
    have isClause : bobClause.text = "user(".toList ++ bob ++ ").".toList := by decide +kernel
    intro cert inCerts
    rw [List.mem_singleton.mp inCerts, List.map_singleton, isClause]
  clean := by
    intro cert _ g inSaid
    rw [List.mem_singleton.mp inSaid]
    exact (find_eq_none_iff _ _).mp (by decide +kernel)

/-- The service after the credential of this user is verified. -/
def userService (name : Str) : SecurityService :=
  { policyStr := [], policy := some (userPolicy name), credPtr := some (userChecked name) }

theorem same_file_iff_alice_bob :
    (∀ h, Interaction.Prog.Returns (writeBinderFile (userService alice)) h true ↔
        Interaction.Prog.Returns (writeBinderFile (userService bob)) h true) ↔
      aliceSpelling.imports .trusting = bobSpelling.imports .trusting := by
  have set : SecurityService.empty.setPolicy [] =
      some { policyStr := [], policy := some ⟨[], [], [], []⟩, credPtr := none } := rfl
  exact same_file_iff .trusting .epoch false set
    (by simp [Credential.Fresh, userCredential]) (by simp [Credential.Fresh, userCredential])
    aliceSpelling bobSpelling alice_known.verified bob_known.verified

end RepositoryManager
