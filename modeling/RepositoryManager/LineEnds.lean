import RepositoryManager.Printing

/-! # Line ends

A message with LF line ends, and the same message with CR LF. The rule `WS` knows a
carriage return only before a form feed, so the error recovery throws away the two
characters after it: the line feed, and the first character of the next line.
-/

namespace RepositoryManager

open ByteString Scanner Lexer Grammar

/-- Every LF replaced by CR LF. -/
def crlf (w : Str) : Str := w.flatMap fun c => if c = '\n' then ['\r', '\n'] else [c]

/-- A message that derives from the grammar, with LF line ends: the lexer reads it without an
    error as the tokens that a credential derives. -/
structure LaidOut (c : Grammar.Credential) (w : Str) : Prop where
  lineFeeds : '\r' ∉ w
  read : ∃ fuel events, fillBuffer fuel w = some events ∧ .error ∉ events ∧
    visible events = c.shown

/-- The message with CR LF has the visible tokens of the credential. -/
def SameTokens (c : Grammar.Credential) (w : Str) : Prop :=
  ∃ fuel events, fillBuffer fuel (crlf w) = some events ∧ visible events = c.shown

/-- Whether the character after each line end is white space, or there is none. That character
    is lost; `after` says that the next character is one of these. -/
def lineEndsKept (after : Bool) : Str → Bool
  | [] => true
  | c :: w =>
      if after then (c = '\n' || c = ' ' || c = '\t') && lineEndsKept false w
      else lineEndsKept (c = '\n') w

/-! ## The replaced message -/

variable {w text : Str} {c : Char} {ts us : List Token}

theorem crlf_newline (w : Str) : crlf ('\n' :: w) = '\r' :: '\n' :: crlf w := rfl

theorem crlf_other (other : c ≠ '\n') (w : Str) : crlf (c :: w) = c :: crlf w := by
  simp [crlf, other]

theorem crlf_append (clean : '\n' ∉ text) (w : Str) : crlf (text ++ w) = text ++ crlf w := by
  induction text with
  | nil => rfl
  | cons c text ih =>
      rw [List.mem_cons, not_or] at clean
      rw [List.cons_append, crlf_other (fun same => clean.1 same.symm), ih clean.2,
        List.cons_append]

theorem crlf_head (w : Str) :
    (crlf w).head? = if w.head? = some '\n' then some '\r' else w.head? := by
  cases w with
  | nil => rfl
  | cons c w =>
      by_cases newline : c = '\n'
      · subst newline
        rfl
      · rw [crlf_other newline]
        simp [newline]

theorem ended_crlf (ended : Ended w) : Ended (crlf w) := by
  intro c head
  rw [crlf_head] at head
  split at head
  · cases head
    rfl
  · exact ended c head

theorem unheaded_crlf {r : Str} (unheaded : Unheaded r w) : Unheaded r (crlf w) := by
  intro heading
  rw [crlf_head]
  split
  · simp
  · exact unheaded heading

theorem kept_append (clean : '\n' ∉ text) (w : Str) :
    lineEndsKept false (text ++ w) = lineEndsKept false w := by
  induction text with
  | nil => rfl
  | cons c text ih =>
      rw [List.mem_cons, not_or] at clean
      have other : (decide (c = '\n')) = false := decide_eq_false fun same => clean.1 same.symm
      rw [List.cons_append, lineEndsKept, if_neg (by simp), other, ih clean.2]

/-! ## How a clean message goes on -/

theorem clean_cases (noReturn : '\r' ∉ w) (clean : Clean w ts) :
    (w = [] ∧ ts = []) ∨
      (∃ c rest, w = c :: rest ∧ (c = ' ' ∨ c = '\t' ∨ c = '\n') ∧ Clean rest ts) ∨
      ∃ type text rest us, w = text ++ rest ∧ ts = .shown type text :: us ∧ text ≠ [] ∧
        '\n' ∉ text ∧ Clean rest us ∧
        lexPass (text ++ crlf rest) = some (.token (.shown type text), crlf rest) := by
  rcases goes_cases w with rfl | ⟨c, rest, rfl, foreign⟩ | ⟨w', goes⟩
  · exact .inl ⟨rfl, clean_nil.mp clean⟩
  · obtain ⟨events, run, -⟩ := clean
    exact absurd ⟨events, run⟩ (not_halts_of_stuck (pass_foreign foreign))
  · refine .inr ?_
    cases goes with
    | @mark c _ isMark =>
        obtain ⟨us, rfl, next⟩ := (clean_token (pass_mark isMark)).mp clean
        refine .inr ⟨_, [c], w', us, rfl, rfl, List.cons_ne_nil _ _, ?_, next,
          pass_mark isMark⟩
        intro newline
        rw [← List.mem_singleton.mp newline] at isMark
        exact absurd isMark (by decide)
    | blank isBlank =>
        have next := (clean_blank isBlank).mp clean
        cases isBlank with
        | space => exact .inl ⟨' ', _, rfl, .inl rfl, next⟩
        | tab => exact .inl ⟨'\t', _, rfl, .inr (.inl rfl), next⟩
        | lineFeed => exact .inl ⟨'\n', _, rfl, .inr (.inr rfl), next⟩
        | formFeed => exact absurd List.mem_cons_self noReturn
    | stray => exact absurd List.mem_cons_self noReturn
    | @run r _ some_char isRun ended unopened =>
        by_cases headed : r ∈ headings ∧ w'.head? = some ' '
        · obtain ⟨heading, blank⟩ := headed
          obtain ⟨rest, rfl⟩ := List.head?_eq_some_iff.mp blank
          exact absurd clean (not_clean_of_error (pass_unopened heading unopened))
        · have unheaded : Unheaded r w' := fun heading blank => headed ⟨heading, blank⟩
          obtain ⟨us, rfl, next⟩ := (clean_token (pass_run some_char isRun ended unheaded)).mp clean
          refine .inr ⟨_, r, w', us, rfl, rfl, some_char, ?_, next,
            pass_run some_char isRun (ended_crlf ended) (unheaded_crlf unheaded)⟩
          intro newline
          have isText := isRun _ newline
          cases isText
    | @header x type _ opening =>
        obtain ⟨us, rfl, next⟩ := (clean_token (pass_header opening)).mp clean
        have oneLine : (openings.all fun y => !(literal y.2).contains '\n') = true := by
          decide +kernel
        refine .inr ⟨type, literal type, w', us, rfl, rfl, literal_ne_nil opening, ?_, next,
          pass_header opening⟩
        simpa using List.all_eq_true.mp oneLine _ opening
    | broken opening goes opened wrong =>
        exact absurd clean (not_clean_of_error (pass_broken opening goes opened wrong))

/-- How a clean message goes on with CR LF in mind: a line end loses the character after it. -/
inductive LineCourse : Str → List Token → Prop where
  | done : LineCourse [] []
  | blank {c : Char} {w : Str} {ts : List Token} (isBlank : c = ' ' ∨ c = '\t')
      (next : LineCourse w ts) : LineCourse (c :: w) ts
  | lastLine : LineCourse ['\n'] []
  | spared {c : Char} {w : Str} {ts : List Token} (white : c = '\n' ∨ c = ' ' ∨ c = '\t')
      (next : LineCourse w ts) : LineCourse ('\n' :: c :: w) ts
  | cut {c : Char} {w : Str} {ts : List Token} (solid : c ∉ blanks) (next : LineCourse (c :: w) ts) :
      LineCourse ('\n' :: c :: w) ts
  | token {type : TokenType} {text rest : Str} {us : List Token} (some_char : text ≠ [])
      (oneLine : '\n' ∉ text)
      (pass : lexPass (text ++ crlf rest) = some (.token (.shown type text), crlf rest))
      (next : LineCourse rest us) : LineCourse (text ++ rest) (.shown type text :: us)

theorem course_of_clean (noReturn : '\r' ∉ w) (clean : Clean w ts) : LineCourse w ts := by
  induction size : w.length using Nat.strongRecOn generalizing w ts with
  | ind n ih =>
      rcases clean_cases noReturn clean with ⟨rfl, rfl⟩ | ⟨c, rest, rfl, white, next⟩ |
        ⟨type, text, rest, us, rfl, rfl, some_char, oneLine, next, pass⟩
      · exact .done
      · have noReturn' : '\r' ∉ rest := fun member => noReturn (List.mem_cons_of_mem _ member)
        have course := ih rest.length (by rw [← size]; exact Nat.lt_succ_self _) noReturn' next rfl
        rcases white with rfl | rfl | rfl
        · exact .blank (.inl rfl) course
        · exact .blank (.inr rfl) course
        · cases rest with
          | nil =>
              rw [clean_nil.mp next]
              exact .lastLine
          | cons d rest =>
              by_cases white : d = '\n' ∨ d = ' ' ∨ d = '\t'
              · have isBlank : Blank [d] := by
                  rcases white with rfl | rfl | rfl
                  · exact .lineFeed
                  · exact .space
                  · exact .tab
                have noReturn'' : '\r' ∉ rest := fun member =>
                  noReturn' (List.mem_cons_of_mem _ member)
                refine .spared white (ih rest.length ?_ noReturn'' ?_ rfl)
                · rw [← size, List.length_cons, List.length_cons]
                  omega
                · exact (clean_blank (x := [d]) isBlank).mp next
              · refine .cut ?_ course
                rw [not_or, not_or] at white
                have noCarriage : d ≠ '\r' := by
                  rintro rfl
                  exact noReturn' List.mem_cons_self
                simp [blanks, white, noCarriage]
      · have noReturn' : '\r' ∉ rest := fun member => noReturn (List.mem_append_right _ member)
        have := List.length_pos_of_ne_nil some_char
        refine .token some_char oneLine pass (ih rest.length ?_ noReturn' next rfl)
        rw [← size, List.length_append]
        omega

/-! ## What is lost -/

/-- The number of characters that are not white space. -/
def solid (s : Str) : Nat := s.countP fun c => !blanks.contains c

theorem solid_append (s t : Str) : solid (s ++ t) = solid s + solid t := List.countP_append

theorem solid_cons_blank (isBlank : c ∈ blanks) (w : Str) : solid (c :: w) = solid w := by
  simp [solid, isBlank]

theorem solid_cons_solid (isSolid : c ∉ blanks) (w : Str) : solid (c :: w) = solid w + 1 := by
  simp [solid, isSolid]

theorem solid_crlf (w : Str) : solid (crlf w) = solid w := by
  induction w with
  | nil => rfl
  | cons c w ih =>
      by_cases newline : c = '\n'
      · subst newline
        rw [crlf_newline, solid_cons_blank (by decide), solid_cons_blank (by decide),
          solid_cons_blank (by decide), ih]
      · rw [crlf_other newline]
        by_cases isBlank : c ∈ blanks
        · rw [solid_cons_blank isBlank, solid_cons_blank isBlank, ih]
        · rw [solid_cons_solid isBlank, solid_cons_solid isBlank, ih]

theorem white_blank (white : c = '\n' ∨ c = ' ' ∨ c = '\t') : c ∈ blanks := by
  rcases white with rfl | rfl | rfl <;> decide

/-- The character after a line end is lost. -/
theorem shows_line (c : Char) (w : Str) :
    Shows (crlf ('\n' :: c :: w)) us ↔ Shows (crlf w) us := by
  rw [crlf_newline, shows_return (by simp)]
  by_cases newline : c = '\n'
  · subst newline
    exact shows_blank (x := ['\n']) .lineFeed
  · rw [crlf_other newline]
    rfl

theorem shows_lastLine : Shows (crlf ['\n']) us ↔ us = [] := by
  rw [crlf_newline, shows_return (by simp)]
  exact shows_nil

theorem shows_same (course : LineCourse w ts) (kept : lineEndsKept false w = true) :
    Shows (crlf w) ts := by
  induction course with
  | done => exact shows_nil.mpr rfl
  | @blank c w ts isBlank next ih =>
      rcases isBlank with rfl | rfl
      · exact (shows_blank (x := [' ']) .space).mpr (ih kept)
      · exact (shows_blank (x := ['\t']) .tab).mpr (ih kept)
  | lastLine => exact shows_lastLine.mpr rfl
  | @spared c w ts white next ih =>
      have rest : ((c = '\n' || c = ' ' || c = '\t') && lineEndsKept false w) = true := kept
      rw [Bool.and_eq_true] at rest
      exact (shows_line c w).mpr (ih rest.2)
  | @cut c w ts isSolid next ih =>
      have rest : ((c = '\n' || c = ' ' || c = '\t') && lineEndsKept false w) = true := kept
      simp only [Bool.and_eq_true, Bool.or_eq_true, decide_eq_true_eq, or_assoc] at rest
      exact absurd (white_blank rest.1) isSolid
  | token some_char oneLine pass next ih =>
      rw [kept_append oneLine] at kept
      rw [crlf_append oneLine]
      exact (shows_token pass).mpr ⟨_, rfl, ih kept⟩

theorem course_solid (course : LineCourse w ts) : solid (shownText ts) = solid w := by
  induction course with
  | done => rfl
  | blank isBlank next ih => rw [solid_cons_blank (white_blank (.inr isBlank)), ih]
  | lastLine => rfl
  | spared white next ih =>
      rw [solid_cons_blank (by decide), solid_cons_blank (white_blank white), ih]
  | cut isSolid next ih => rw [solid_cons_blank (by decide), ih]
  | token some_char oneLine pass next ih =>
      rw [shownText, List.flatMap_cons, solid_append, solid_append, ← ih]
      rfl

theorem solid_le_of_shows {v : Str} (shown : Shows v us) : solid (shownText us) ≤ solid v :=
  (shows_text shown).2.countP_le

/-- A line end that is not spared costs a visible character. -/
theorem solid_lost (course : LineCourse w ts) (lost : lineEndsKept false w = false)
    (shown : Shows (crlf w) us) : solid (shownText us) < solid w := by
  induction course generalizing us with
  | done => cases lost
  | @blank c w ts isBlank next ih =>
      rw [solid_cons_blank (white_blank (.inr isBlank))]
      rcases isBlank with rfl | rfl
      · exact ih lost ((shows_blank (x := [' ']) .space).mp shown)
      · exact ih lost ((shows_blank (x := ['\t']) .tab).mp shown)
  | lastLine => cases lost
  | @spared c w ts white next ih =>
      have rest : ((c = '\n' || c = ' ' || c = '\t') && lineEndsKept false w) = false := lost
      have isWhite : (c = '\n' || c = ' ' || c = '\t') = true := by
        simpa [or_assoc] using white
      rw [isWhite, Bool.true_and] at rest
      rw [solid_cons_blank (by decide), solid_cons_blank (white_blank white)]
      exact ih rest ((shows_line c w).mp shown)
  | @cut c w ts isSolid next ih =>
      have rest := solid_le_of_shows ((shows_line c w).mp shown)
      rw [solid_crlf] at rest
      rw [solid_cons_blank (by decide), solid_cons_solid isSolid]
      omega
  | token some_char oneLine pass next ih =>
      rw [kept_append oneLine] at lost
      rw [crlf_append oneLine] at shown
      obtain ⟨vs, rfl, rest⟩ := (shows_token pass).mp shown
      have fewer := ih lost rest
      rw [shownText, List.flatMap_cons, solid_append, solid_append]
      exact Nat.add_lt_add_left fewer _

/-! ## The two messages -/

variable {message : Grammar.Credential}

theorem course_of_laidOut (laidOut : LaidOut message w) : LineCourse w message.shown :=
  course_of_clean laidOut.lineFeeds (clean_iff.mp laidOut.read)

theorem not_sameTokens (laidOut : LaidOut message w) (lost : lineEndsKept false w = false) :
    ¬ SameTokens message w := by
  intro same
  have course := course_of_laidOut laidOut
  have fewer := solid_lost course lost (shows_iff.mp same)
  rw [course_solid course] at fewer
  exact Nat.lt_irrefl _ fewer

theorem laidOut_print (printable : Printable message) (lineFeeds : '\r' ∉ print message.shown) :
    LaidOut message (print message.shown) :=
  ⟨lineFeeds,
    clean_iff.mpr
      (clean_print (credential_tokens message) ((kept_iff_printable message).mpr printable))⟩

/-- CR LF line ends leave the visible tokens as they are exactly if every line end loses no
    more than white space. -/
theorem sameTokens_iff (laidOut : LaidOut message w) :
    SameTokens message w ↔ lineEndsKept false w = true := by
  constructor
  · intro same
    by_contra lost
    exact not_sameTokens laidOut (Bool.eq_false_iff.mpr lost) same
  · exact fun kept => shows_iff.mpr (shows_same (course_of_laidOut laidOut) kept)

theorem bobCredential_laidOut :
    LaidOut AstWalker.bobCredential (print AstWalker.bobCredential.shown) := by
  refine laidOut_print ?_ (by decide +kernel)
  have texts : (AstWalker.bobCredential.texts.all fun t =>
      !t.chars.all Char.isDigit && !(keywords.map literal).contains t.chars) = true := by
    decide +kernel
  have nums : (AstWalker.bobCredential.nums.all fun n => !n.chars.isEmpty) = true := by
    decide +kernel
  constructor
  · intro t member
    simpa [Ordinary] using List.all_eq_true.mp texts t member
  · intro n member
    simpa using List.all_eq_true.mp nums n member

theorem sameTokens_iff_bob :
    SameTokens AstWalker.bobCredential (print AstWalker.bobCredential.shown) ↔
      lineEndsKept false (print AstWalker.bobCredential.shown) = true :=
  sameTokens_iff bobCredential_laidOut

/-- The dash that begins the second line is lost. -/
theorem second_line_broken : ∃ c w, LaidOut c w ∧ ¬ SameTokens c w :=
  ⟨_, _, bobCredential_laidOut, not_sameTokens bobCredential_laidOut (by decide +kernel)⟩

end RepositoryManager
