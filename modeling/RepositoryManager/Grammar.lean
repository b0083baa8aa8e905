import RepositoryManager.Utils

/-! # The credential grammar

`RepositoryManager.g`: the tokens that carry text, the rules `predicate`,
`literal`, `clause`, `time_tuple`, `certificate` and `credential`, the token
texts a rule derives, and the flat child list the rewrite rules leave below the
`CREDENTIAL` root. A `TEXT` or `NUM` token is the text it carries together with
the proof that this text is of its class.
-/

namespace RepositoryManager.Grammar

open ByteString

/-- The characters of the lexer rule `TEXT`. -/
def isTextChar (c : Char) : Bool :=
  ('a' ≤ c && c ≤ 'z') || ('A' ≤ c && c ≤ 'Z') || ('0' ≤ c && c ≤ '9') ||
    c = '/' || c = '+' || c = '=' || c = '_' || c = '-' || c = ':'

/-- The text of a `TEXT` token. -/
structure Text where
  chars : Str
  inClass : ∀ c ∈ chars, isTextChar c = true

/-- The token with a text that passes the test of its class. -/
def Text.of (s : String) (test : s.toList.all isTextChar = true := by decide) : Text :=
  ⟨s.toList, List.all_eq_true.mp test⟩

/-- The text of a `NUM` token. -/
structure Num where
  chars : Str
  inClass : ∀ c ∈ chars, c.isDigit = true

def Num.of (s : String) (test : s.toList.all Char.isDigit = true := by decide) : Num :=
  ⟨s.toList, List.all_eq_true.mp test⟩

/-- The text and the number in every place of a shape. -/
def Text.blank : Text := ⟨[], by simp⟩

def Num.blank : Num := ⟨[], by simp⟩

/-- `text '(' text (',' text)* ')'` -/
structure Predicate where
  name : Text
  arg : Text
  args : List Text

/-- `predicate | 'says' '(' text ',' predicate ')'` -/
inductive Literal where
  | predicate (p : Predicate)
  | saysThat (speaker : Text) (p : Predicate)

/-- `literal '.' | literal ':-' literal (',' literal)* '.'` -/
inductive Clause where
  | fact (head : Literal)
  | rule (head first : Literal) (more : List Literal)

/-- `'datime' '(' num ',' num ',' num ',' num ',' num ',' num ')' '.'` -/
structure TimeTuple where
  year : Num
  month : Num
  day : Num
  hour : Num
  minute : Num
  second : Num

/-- A certificate. `base64` bodies are lists of `TEXT` tokens, one for each line. -/
structure Certificate where
  clauses : List Clause
  start : TimeTuple
  stop : TimeTuple
  key : List Text
  signature : List Text
  someClause : clauses ≠ []

structure Credential where
  key : List Text
  certificates : List Certificate

/-! ## Token texts -/

def Predicate.tokens (p : Predicate) : List Str :=
  [p.name.chars, ['('], p.arg.chars] ++ p.args.flatMap (fun a => [[','], a.chars]) ++ [[')']]

def Literal.tokens : Literal → List Str
  | .predicate p => p.tokens
  | .saysThat speaker p => ["says".toList, ['('], speaker.chars, [',']] ++ p.tokens ++ [[')']]

def Clause.tokens : Clause → List Str
  | .fact head => head.tokens ++ [['.']]
  | .rule head first more =>
      head.tokens ++ [":-".toList] ++ first.tokens ++
        more.flatMap (fun l => [','] :: l.tokens) ++ [['.']]

def TimeTuple.tokens (t : TimeTuple) : List Str :=
  ["datime".toList, ['('], t.year.chars, [','], t.month.chars, [','], t.day.chars, [','],
    t.hour.chars, [','], t.minute.chars, [','], t.second.chars, [')'], ['.']]

/-- The text of a literal or clause: its token texts one after the other. -/
def Predicate.text (p : Predicate) : Str := p.tokens.flatten
def Literal.text (l : Literal) : Str := l.tokens.flatten
def Clause.text (c : Clause) : Str := c.tokens.flatten
def TimeTuple.text (t : TimeTuple) : Str := t.tokens.flatten

/-- The `TEXT` tokens of a predicate, literal or clause. -/
def Predicate.texts (p : Predicate) : List Text := p.name :: p.arg :: p.args

def Literal.texts : Literal → List Text
  | .predicate p => p.texts
  | .saysThat speaker p => speaker :: p.texts

def Clause.texts : Clause → List Text
  | .fact head => head.texts
  | .rule head first more => head.texts ++ first.texts ++ more.flatMap Literal.texts

def Clause.head : Clause → Literal
  | .fact head => head
  | .rule head _ _ => head

/-! ## The child list below `CREDENTIAL` -/

def publicKeyChildren (key : List Text) : List Str :=
  pkHeaderS :: key.map Text.chars ++ [pkEndS]

def signatureChildren (signature : List Text) : List Str :=
  sigS :: signature.map Text.chars ++ [endSigS]

/-- `(START_TIME time_tuple STOP_TIME time_tuple)+`, which two tuples fill once. -/
def validityChildren (start stop : TimeTuple) : List Str :=
  startTimeS :: start.tokens ++ stopTimeS :: stop.tokens

/-- `(CERT CLAUSE clause+ validity public_key signature END_CERT)+`, filled once. -/
def Certificate.children (c : Certificate) : List Str :=
  certS :: clauseS :: c.clauses.flatMap Clause.tokens ++ validityChildren c.start c.stop ++
    publicKeyChildren c.key ++ signatureChildren c.signature ++ [endCertS]

/-- `^(CREDENTIAL public_key certificate* END)` -/
def Credential.children (c : Credential) : List Str :=
  publicKeyChildren c.key ++ c.certificates.flatMap Certificate.children ++ [endS]

/-! ## Which characters a text can hold -/

theorem Text.not_mem {t : Text} {c : Char} (outside : isTextChar c = false) : c ∉ t.chars := by
  intro member
  rw [t.inClass c member] at outside
  cases outside

theorem Num.not_mem {n : Num} {c : Char} (outside : c.isDigit = false) : c ∉ n.chars := by
  intro member
  rw [n.inClass c member] at outside
  cases outside

theorem Text.ne {t : Text} {s : Str} {c : Char} (member : c ∈ s) (outside : isTextChar c = false) :
    t.chars ≠ s := by
  rintro rfl
  exact t.not_mem outside member

theorem Num.ne {n : Num} {s : Str} {c : Char} (member : c ∈ s) (outside : c.isDigit = false) :
    n.chars ≠ s := by
  rintro rfl
  exact n.not_mem outside member

/-! ## Shapes of texts -/

/-- The arguments after the first, each with its comma. -/
def restArgs (args : List Text) : Str := args.flatMap fun a => ',' :: a.chars

theorem Predicate.text_eq (p : Predicate) :
    p.text = p.name.chars ++ '(' :: (p.arg.chars ++ (restArgs p.args ++ [')'])) := by
  have rest : (p.args.flatMap fun a => [[','], a.chars]).flatten = restArgs p.args := by
    induction p.args with
    | nil => rfl
    | cons a as ih => simp only [List.flatMap_cons, List.flatten_append, ih, restArgs]; simp
  simp [Predicate.text, Predicate.tokens, rest]

theorem Literal.text_predicate (p : Predicate) : (Literal.predicate p).text = p.text := rfl

theorem Literal.text_saysThat (speaker : Text) (p : Predicate) :
    (Literal.saysThat speaker p).text =
      "says(".toList ++ (speaker.chars ++ ',' :: (p.text ++ [')'])) := by
  simp [Literal.text, Literal.tokens, Predicate.text]

theorem Clause.text_fact (head : Literal) : (Clause.fact head).text = head.text ++ ['.'] := by
  simp [Clause.text, Clause.tokens, Literal.text]

/-- The body of a rule up to its full stop: the literals with commas between them. -/
def bodyText (first : Literal) (more : List Literal) : Str :=
  [','].intercalate ((first :: more).map Literal.text)

theorem bodyText_nil (l : Literal) : bodyText l [] = l.text := by simp [bodyText]

theorem bodyText_cons (l m : Literal) (ls : List Literal) :
    bodyText l (m :: ls) = l.text ++ ',' :: bodyText m ls := by
  simp [bodyText, List.intercalate_cons_cons]

theorem Clause.text_rule (head first : Literal) (more : List Literal) :
    (Clause.rule head first more).text =
      head.text ++ ':' :: '-' :: (bodyText first more ++ ['.']) := by
  have rest : ∀ (l : Literal), l.text ++ (more.flatMap fun l => [','] :: l.tokens).flatten =
      bodyText l more := by
    induction more with
    | nil => intro l; simp [bodyText_nil]
    | cons m ms ih =>
        intro l
        rw [bodyText_cons, ← ih m]
        simp [Literal.text]
  rw [← rest first]
  simp [Clause.text, Clause.tokens, Literal.text]

theorem Predicate.text_ends (p : Predicate) : ∃ t, p.text = t ++ [')'] :=
  ⟨p.name.chars ++ '(' :: (p.arg.chars ++ restArgs p.args), by simp [p.text_eq]⟩

theorem Literal.text_ends (l : Literal) : ∃ t, l.text = t ++ [')'] := by
  cases l with
  | predicate p => exact p.text_ends
  | saysThat speaker p =>
      exact ⟨"says(".toList ++ (speaker.chars ++ ',' :: p.text), by simp [Literal.text_saysThat]⟩

theorem Literal.text_ne_nil (l : Literal) : l.text ≠ [] := by
  obtain ⟨t, same⟩ := l.text_ends
  simp [same]

/-! A character that is not of class `TEXT` is in a text only as one of its marks. -/

section NotMem

variable {c : Char} (outside : isTextChar c = false)

include outside

theorem restArgs_not_mem (notComma : c ≠ ',') (args : List Text) : c ∉ restArgs args := by
  intro member
  obtain ⟨a, -, inside⟩ := List.mem_flatMap.mp member
  rcases List.mem_cons.mp inside with same | inText
  · exact notComma same
  · exact a.not_mem outside inText

variable (notMark : c ∉ ['(', ',', ')'])

include notMark

theorem Predicate.text_not_mem (p : Predicate) : c ∉ p.text := by
  simp only [List.mem_cons, List.not_mem_nil, or_false, not_or] at notMark
  rw [p.text_eq]
  simp [Text.not_mem outside, restArgs_not_mem outside notMark.2.1, notMark]

theorem Literal.text_not_mem (l : Literal) : c ∉ l.text := by
  cases l with
  | predicate p => exact p.text_not_mem outside notMark
  | saysThat speaker p =>
      have notSays : c ∉ "says(".toList := by
        have chars : ∀ d ∈ "says(".toList, isTextChar d = true ∨ d ∈ ['(', ',', ')'] :=
          forall_mem_of_all (by decide)
        intro member
        rcases chars c member with inClass | mark
        · rw [outside] at inClass
          cases inClass
        · exact notMark mark
      have notIn := p.text_not_mem outside notMark
      simp only [List.mem_cons, List.not_mem_nil, or_false, not_or] at notMark
      rw [Literal.text_saysThat]
      intro member
      rcases List.mem_append.mp member with inSays | rest
      · exact notSays inSays
      · simp [Text.not_mem outside, notIn, notMark] at rest

theorem bodyText_not_mem (first : Literal) (more : List Literal) : c ∉ bodyText first more := by
  intro member
  rcases mem_of_mem_intercalate member with comma | ⟨t, inTexts, inside⟩
  · rw [List.mem_singleton.mp comma] at notMark
    exact notMark (by decide)
  · obtain ⟨l, -, rfl⟩ := List.mem_map.mp inTexts
    exact l.text_not_mem outside notMark inside

theorem Clause.text_not_mem (notStop : c ≠ '.') (clause : Clause) : c ∉ clause.text := by
  cases clause with
  | fact head =>
      rw [Clause.text_fact]
      simp [head.text_not_mem outside notMark, notStop]
  | rule head first more =>
      have notSign : c ≠ ':' ∧ c ≠ '-' := by
        constructor
        · rintro rfl
          cases outside
        · rintro rfl
          cases outside
      rw [Clause.text_rule]
      simp [head.text_not_mem outside notMark, notStop, notSign,
        bodyText_not_mem outside notMark]

end NotMem

theorem Predicate.no_boundary (p : Predicate) (t : Str) :
    [')', ','] <:+: p.text ++ t ↔ [')', ','] <:+: ')' :: t := by
  have split : p.text ++ t =
      (p.name.chars ++ '(' :: (p.arg.chars ++ restArgs p.args)) ++ (')' :: t) := by
    simp [p.text_eq]
  rw [split]
  apply pair_infix_append
  simp [Text.not_mem, isTextChar, restArgs_not_mem]

theorem Literal.no_boundary (l : Literal) : ¬ [')', ','] <:+: l.text := by
  cases l with
  | predicate p =>
      rw [Literal.text_predicate, ← List.append_nil p.text, p.no_boundary]
      simp [List.infix_cons_iff]
  | saysThat speaker p =>
      have clean : ')' ∉ "says(".toList ++ (speaker.chars ++ [',']) := by
        simp [Text.not_mem, isTextChar]
      have split : (Literal.saysThat speaker p).text =
          ("says(".toList ++ (speaker.chars ++ [','])) ++ (p.text ++ [')']) := by
        simp [Literal.text_saysThat]
      rw [split, pair_infix_append clean, p.no_boundary]
      simp [List.infix_cons_iff]

theorem restArgs_no_implication {as : List Text} (clean : ∀ a ∈ as, ¬ [':', '-'] <:+: a.chars) :
    ¬ [':', '-'] <:+: restArgs as ++ [')'] := by
  induction as with
  | nil => simp [restArgs, List.infix_cons_iff]
  | cons a as ih =>
      have split : restArgs (a :: as) ++ [')'] = ',' :: (a.chars ++ (restArgs as ++ [')'])) := by
        simp [restArgs]
      rw [split]
      have tail := ih fun b member => clean b (List.mem_cons_of_mem _ member)
      have here := clean a List.mem_cons_self
      have begins : restArgs as ++ [')'] = ')' :: [] ∨
          ∃ s, restArgs as ++ [')'] = ',' :: s := by
        cases as with
        | nil => exact .inl rfl
        | cons b bs => exact .inr ⟨_, by simp [restArgs]; rfl⟩
      rw [List.infix_cons_iff]
      rintro (atComma | inside)
      · simp at atComma
      · rcases begins with eq | ⟨s, eq⟩
        · rw [eq, pair_infix_separator (by decide) (by decide)] at inside
          simp_all
        · rw [eq] at tail inside
          rw [pair_infix_separator (by decide) (by decide)] at inside
          exact inside.elim here fun later => tail (List.infix_cons later)

theorem Predicate.no_implication {p : Predicate}
    (clean : ∀ t ∈ p.texts, ¬ [':', '-'] <:+: t.chars) : ¬ [':', '-'] <:+: p.text := by
  intro inside
  rw [p.text_eq, pair_infix_separator (by decide) (by decide)] at inside
  rcases inside with inName | inArgs
  · exact clean p.name (by simp [Predicate.texts]) inName
  · have args : ∀ a ∈ p.arg :: p.args, ¬ [':', '-'] <:+: a.chars :=
      fun a member => clean a (List.mem_cons_of_mem _ member)
    apply restArgs_no_implication args
    have split : restArgs (p.arg :: p.args) ++ [')'] =
        ',' :: (p.arg.chars ++ (restArgs p.args ++ [')'])) := by simp [restArgs]
    rw [split]
    exact List.infix_cons inArgs

theorem Literal.no_implication {l : Literal}
    (clean : ∀ t ∈ l.texts, ¬ [':', '-'] <:+: t.chars) : ¬ [':', '-'] <:+: l.text := by
  cases l with
  | predicate p => exact Predicate.no_implication clean
  | saysThat speaker p =>
      intro inside
      have split : (Literal.saysThat speaker p).text =
          "says".toList ++ '(' :: (speaker.chars ++ ',' :: (p.text ++ [')'])) := by
        simp [Literal.text_saysThat]
      rw [split, pair_infix_separator (by decide) (by decide),
        pair_infix_separator (by decide) (by decide),
        pair_infix_separator (by decide) (by decide)] at inside
      rcases inside with prefixed | inSpeaker | inPredicate | closing
      · revert prefixed; decide
      · exact clean speaker (by simp [Literal.texts]) inSpeaker
      · exact Predicate.no_implication (fun t member => clean t (List.mem_cons_of_mem _ member))
          inPredicate
      · simp at closing

end RepositoryManager.Grammar
