import RepositoryManager.LexerTermination
import RepositoryManager.Parser
import RepositoryManager.WalkRecovery

/-! # Printing and lexing

The tokens of a credential written line by line, and what the lexer and the parser
make of the message. A text that is also a number or a keyword comes back as another
token, and every other text as itself.
-/

namespace RepositoryManager

open ByteString Scanner Lexer Grammar

/-! ## Which tokens come back -/

/-- The text is neither a number nor one of `:-`, `datime`, `request` and `says`. -/
def Ordinary (s : Str) : Prop := s.all Char.isDigit = false ∧ s ∉ keywords.map literal

/-- The tokens of a derivation. -/
inductive FromGrammar : Token → Prop where
  | word {type : TokenType} (isLiteral : type ∉ [.ws, .num, .text]) : FromGrammar (word type)
  | text (t : Text) : FromGrammar t.token
  | num (n : Grammar.Num) : FromGrammar n.token

/-- What its text must be for a token to be read as what it is. -/
def Kept (t : Token) : Prop :=
  match t.type with
  | .text => Ordinary t.text
  | .num => t.text ≠ []
  | _ => True

theorem kept_word {type : TokenType} (isLiteral : type ∉ [.ws, .num, .text]) :
    Kept (word type) := by
  cases type with
  | ws => exact absurd (by decide) isLiteral
  | num => exact absurd (by decide) isLiteral
  | text => exact absurd (by decide) isLiteral
  | _ => exact trivial

variable {type : TokenType} {r rest : Str} {t : Token} {ts : List Token}

theorem keywordOr_eq_text : keywordOr r = .text ↔ r ∉ keywords.map literal := by
  rw [List.mem_map]
  rcases keywordOr_cases r with plain | ⟨t, keyword, same, isText⟩
  · exact ⟨fun _ ⟨t, keyword, isText⟩ => plain t keyword isText, fun _ => keywordOr_text plain⟩
  · rw [same]
    refine ⟨?_, fun plain => absurd ⟨t, keyword, isText⟩ plain⟩
    rintro rfl
    exact absurd keyword (by decide)

theorem classify_eq_text : classify r = .text ↔ Ordinary r := by
  rw [classify, Ordinary, ← keywordOr_eq_text]
  cases r.all Char.isDigit with
  | true => simp
  | false => simp

theorem classify_num (digits : ∀ c ∈ r, c.isDigit = true) : classify r = .num := by
  rw [classify, if_pos (List.all_eq_true.mpr digits)]

theorem literal_cases (isLiteral : type ∉ [.ws, .num, .text]) :
    (∃ c ∈ marks, firstType c = type ∧ literal type = [c]) ∨ type ∈ keywords ∨
      ∃ x, (x, type) ∈ openings := by
  cases type with
  | openParen => exact .inl ⟨'(', by decide, by decide, rfl⟩
  | closeParen => exact .inl ⟨')', by decide, by decide, rfl⟩
  | comma => exact .inl ⟨',', by decide, by decide, rfl⟩
  | stop => exact .inl ⟨'.', by decide, by decide, rfl⟩
  | ws => exact absurd (by decide) isLiteral
  | num => exact absurd (by decide) isLiteral
  | text => exact absurd (by decide) isLiteral
  | implies => exact .inr (.inl (by decide))
  | datime => exact .inr (.inl (by decide))
  | request => exact .inr (.inl (by decide))
  | saysWord => exact .inr (.inl (by decide))
  | _ => exact .inr (.inr (by simp [openings]))

theorem keyword_text (keyword : type ∈ keywords) :
    literal type ≠ [] ∧ (∀ c ∈ literal type, isTextChar c = true) ∧
      classify (literal type) = type ∧ literal type ∉ headings := by
  have all : (keywords.all fun t => !(literal t).isEmpty && (literal t).all isTextChar &&
      classify (literal t) = t && !headings.contains (literal t)) = true := by decide
  have here := List.all_eq_true.mp all _ keyword
  simpa [and_assoc] using here

/-- The input goes on with neither a `TEXT` character nor a blank. -/
def Separated (rest : Str) : Prop := Ended rest ∧ rest.head? ≠ some ' '

theorem pass_kept (token : FromGrammar t) (kept : Kept t) (separated : Separated rest) :
    lexPass (t.text ++ rest) = some (.token t, rest) := by
  cases token with
  | @word type isLiteral =>
      rcases literal_cases isLiteral with ⟨c, isMark, same, text⟩ | keyword | ⟨x, opening⟩
      · have pass := pass_mark (w := rest) isMark
        rw [same] at pass
        show lexPass (literal type ++ rest) = some (.token (.shown type (literal type)), rest)
        rw [text]
        exact pass
      · obtain ⟨some_char, isRun, same, plain⟩ := keyword_text keyword
        have pass := pass_run some_char isRun separated.1 fun heading => (plain heading).elim
        rw [same] at pass
        exact pass
      · exact pass_header opening
  | text t =>
      have plain := classify_eq_text.mpr (show Ordinary t.chars from kept)
      have some_char : t.chars ≠ [] := by
        intro empty
        have digits := (show Ordinary t.chars from kept).1
        rw [empty] at digits
        cases digits
      have pass := pass_run some_char t.inClass separated.1 fun _ => separated.2
      rw [plain] at pass
      exact pass
  | num n =>
      have isRun : ∀ c ∈ n.chars, isTextChar c = true := fun c member =>
        isTextChar_of_isDigit (n.inClass c member)
      have pass := pass_run (show n.chars ≠ [] from kept) isRun separated.1 fun _ => separated.2
      rw [classify_num n.inClass] at pass
      exact pass

/-! ## The message of a list of tokens -/

/-- The token texts one after the other, separated by single newlines. -/
def print (ts : List Token) : Str := ['\n'].intercalate (ts.map Token.text)

theorem print_cons (t u : Token) (ts : List Token) :
    print (t :: u :: ts) = t.text ++ '\n' :: print (u :: ts) := by
  simp [print, List.intercalate_cons_cons]

theorem print_single (t : Token) : print [t] = t.text ++ [] := by
  simp [print]

theorem separated_nil : Separated [] := ⟨nofun, nofun⟩

theorem separated_newline : Separated ('\n' :: rest) := by
  refine ⟨?_, by simp⟩
  rintro c ⟨rfl⟩
  rfl

theorem kept_visible (token : FromGrammar t) : t.channel = defaultChannel := by
  cases token <;> rfl

theorem shows_kept {us : List Token} (token : FromGrammar t) (kept : Kept t)
    (separated : Separated rest) :
    Shows (t.text ++ rest) us ↔ ∃ vs, us = t :: vs ∧ Shows rest vs := by
  rw [shows_after (pass_kept token kept separated), visible, if_pos (kept_visible token)]
  rfl

theorem clean_kept {us : List Token} (token : FromGrammar t) (kept : Kept t)
    (separated : Separated rest) (clean : Clean rest us) : Clean (t.text ++ rest) (t :: us) := by
  refine (clean_after (pass_kept token kept separated)).mpr ⟨us, ?_, clean⟩
  rw [visible, if_pos (kept_visible token)]
  rfl

theorem clean_print (tokens : ∀ t ∈ ts, FromGrammar t) (kept : ∀ t ∈ ts, Kept t) :
    Clean (print ts) ts := by
  induction ts with
  | nil => exact clean_nil.mpr rfl
  | cons t ts ih =>
      have token := tokens t List.mem_cons_self
      have here := kept t List.mem_cons_self
      have rest := ih (fun u member => tokens u (List.mem_cons_of_mem _ member))
        (fun u member => kept u (List.mem_cons_of_mem _ member))
      cases ts with
      | nil =>
          rw [print_single]
          exact clean_kept token here separated_nil (clean_nil.mpr rfl)
      | cons u ts =>
          rw [print_cons]
          exact clean_kept token here separated_newline
            ((clean_blank (x := ['\n']) .lineFeed).mpr rest)

theorem kept_of_shows_first (token : FromGrammar t) (separated : Separated rest)
    (shown : Shows (t.text ++ rest) (t :: ts)) : Kept t := by
  have full := (shows_text shown).1 t List.mem_cons_self
  cases token with
  | word isLiteral => exact kept_word isLiteral
  | num n => exact full
  | text t =>
      have pass := pass_run (show t.chars ≠ [] from full) t.inClass separated.1 fun _ => separated.2
      obtain ⟨us, same, -⟩ := (shows_token pass).mp shown
      have type := congrArg Token.type (List.cons_eq_cons.mp same).1
      exact classify_eq_text.mp type.symm

theorem kept_of_shows (tokens : ∀ t ∈ ts, FromGrammar t) (shown : Shows (print ts) ts) :
    ∀ t ∈ ts, Kept t := by
  induction ts with
  | nil => exact fun t member => absurd member List.not_mem_nil
  | cons t ts ih =>
      have token := tokens t List.mem_cons_self
      have others := ih fun u member => tokens u (List.mem_cons_of_mem _ member)
      cases ts with
      | nil =>
          rw [print_single] at shown
          intro u member
          rw [List.mem_singleton.mp member]
          exact kept_of_shows_first token separated_nil shown
      | cons u ts =>
          rw [print_cons] at shown
          have here := kept_of_shows_first token separated_newline shown
          obtain ⟨vs, same, rest⟩ := (shows_kept token here separated_newline).mp shown
          cases same
          have next := others ((shows_blank (x := ['\n']) .lineFeed).mp rest)
          exact List.forall_mem_cons.mpr ⟨here, next⟩

/-! ## The message of a credential -/

/-- The lexer reads the printed credential as the tokens it derives, and the parser accepts
    them. -/
def ComesBack (c : Grammar.Credential) : Prop :=
  ∃ fuel events, fillBuffer fuel (print c.shown) = some events ∧ visible events = c.shown ∧
    Parser.credential (Parser.typesOf (visible events)) = some []

/-- No text is a number or a keyword, and no number is empty. -/
def Printable (c : Grammar.Credential) : Prop :=
  (∀ t ∈ c.texts, Ordinary t.chars) ∧ ∀ n ∈ c.nums, n.chars ≠ []

theorem kept_iff_printable (c : Grammar.Credential) : (∀ t ∈ c.shown, Kept t) ↔ Printable c :=
  c.forall_shown fun _ isLiteral => kept_word isLiteral

theorem credential_tokens (c : Grammar.Credential) : ∀ t ∈ c.shown, FromGrammar t :=
  (c.forall_shown fun _ isLiteral => .word isLiteral).mpr
    ⟨fun t _ => .text t, fun n _ => .num n⟩

theorem kept_of_comesBack {c : Grammar.Credential} (back : ComesBack c) :
    ∀ t ∈ c.shown, Kept t := by
  obtain ⟨fuel, events, filled, same, -⟩ := back
  exact kept_of_shows (credential_tokens c) (shows_iff.mp ⟨fuel, events, filled, same⟩)

/-- A credential comes back from its printed tokens exactly if no text of it is a number or
    a keyword. -/
theorem printing_agrees_iff (c : Grammar.Credential) (derived : Parser.Derived c) :
    ComesBack c ↔ Printable c := by
  constructor
  · exact fun back => (kept_iff_printable c).mp (kept_of_comesBack back)
  · intro printable
    have clean := clean_print (credential_tokens c) ((kept_iff_printable c).mpr printable)
    obtain ⟨fuel, events, filled, same⟩ := shows_iff.mpr clean.shows
    refine ⟨fuel, events, filled, same, ?_⟩
    rw [same]
    exact Parser.credential_shown derived

theorem printing_agrees_iff_bob :
    ComesBack AstWalker.bobCredential ↔ Printable AstWalker.bobCredential :=
  printing_agrees_iff AstWalker.bobCredential
    ⟨List.cons_ne_nil _ _, by
      intro cert member
      simp only [AstWalker.bobCredential, List.mem_cons, List.not_mem_nil, or_false] at member
      rcases member with rfl | rfl <;> exact ⟨List.cons_ne_nil _ _, List.cons_ne_nil _ _⟩⟩

/-- A key whose last base64 line is made of digits. -/
def digitsCredential : Grammar.Credential :=
  { AstWalker.bobCredential with key := AstWalker.bobCredential.key ++ [.of "1990"] }

theorem digits_line_not_text : ¬ ComesBack digitsCredential := by
  intro back
  have line : Token.shown .text ['1', '9', '9', '0'] ∈ digitsCredential.shown := by decide
  have kept : Ordinary ['1', '9', '9', '0'] := kept_of_comesBack back _ line
  exact absurd kept.1 (by decide)

end RepositoryManager
