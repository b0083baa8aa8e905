import RepositoryManager.LexerPrediction

/-! # What one pass reads

The pass over the loops of `fillBuffer` and `nextToken`, for each way a message can
go on: a mark, white space, a run of `TEXT` characters, a header line, or a
character that no token has.
-/

namespace RepositoryManager.Lexer

open ByteString CyclicDfa Scanner

variable {u w x : Str} {c : Char} {type : TokenType}

theorem mTokens_of_chooses (chosen : Chooses 0 w type) :
    mTokens w = match rule type w with
      | .matched _ rest => .matched type rest
      | .failed rest => .failed rest := by
  obtain ⟨n, run, alternative⟩ := chosen
  rw [mTokens, predict_eq settled run]
  cases called : rule type w with
  | matched _ rest => simp only [alternative, called]
  | failed rest => simp only [alternative, called]

theorem pass_matched {rest : Str} (some_char : w ≠ []) (chosen : Chooses 0 w type)
    (matched : rule type w = .matched () rest) :
    lexPass w = some (.token (emit type w rest), rest) := by
  rw [lexPass, if_neg some_char, mTokens_of_chooses chosen, matched]

theorem pass_failed {rest : Str} (some_char : w ≠ []) (chosen : Chooses 0 w type)
    (failed : rule type w = .failed rest) : lexPass w = some (.error, rest.tail) := by
  rw [lexPass, if_neg some_char, mTokens_of_chooses chosen, failed]

theorem pass_stuck (some_char : w ≠ []) (stuck : Predicts cdfa4 charCode 0 w .noViableAlt) :
    lexPass w = some (.error, w.tail) := by
  rw [lexPass, if_neg some_char, mTokens, predict_eq settled stuck]

theorem emit_shown {text rest : Str} (visible : type ≠ .ws) :
    emit type (text ++ rest) rest = .shown type text := by
  simp [emit, visible, Token.shown]

theorem matchs_append (x w : Str) : matchs x (x ++ w) = .matched () w := by
  induction x with
  | nil => rfl
  | cons c x ih => simpa [matchs] using ih

theorem matchs_broken {v : Str} (broken : w.head? ≠ some c) :
    matchs (u ++ c :: v) (u ++ w) = .failed w.tail := by
  induction u with
  | nil => simp [matchs, broken]
  | cons d u ih => simpa [matchs] using ih

/-! ### A run of `TEXT` characters -/

theorem dropWhile_run {p : Char → Bool} {r rest : Str} (isRun : ∀ c ∈ r, p c = true)
    (stop : ∀ c, rest.head? = some c → p c = false) : (r ++ rest).dropWhile p = rest := by
  rw [List.dropWhile_append_of_pos isRun]
  cases rest with
  | nil => rfl
  | cons c rest => rw [List.dropWhile_cons, stop c rfl]; rfl

theorem keywordOr_cases (r : Str) :
    (∀ t ∈ keywords, literal t ≠ r) ∨ ∃ t ∈ keywords, keywordOr r = t ∧ literal t = r := by
  rw [keywordOr]
  cases found : keywords.find? fun t => literal t = r with
  | none => exact .inl fun t keyword => by simpa using List.find?_eq_none.mp found t keyword
  | some t =>
      have same := List.find?_some found
      exact .inr ⟨t, List.mem_of_find?_eq_some found, rfl, of_decide_eq_true same⟩

theorem rule_keyword (keyword : type ∈ keywords) : rule type = matchs (literal type) := by
  simp only [keywords, List.mem_cons, List.not_mem_nil, or_false] at keyword
  rcases keyword with rfl | rfl | rfl | rfl <;> rfl

theorem classify_ne_ws (r : Str) : classify r ≠ .ws := by
  rw [classify]
  split
  · decide
  · cases keywordOr_cases r with
    | inl plain => rw [keywordOr_text plain]; decide
    | inr keyword =>
        obtain ⟨t, member, same, -⟩ := keyword
        rw [same]
        rintro rfl
        simp [keywords] at member

theorem rule_run {r rest : Str} (isRun : ∀ c ∈ r, Grammar.isTextChar c = true)
    (ended : Ended rest) : rule (classify r) (r ++ rest) = .matched () rest := by
  rw [classify]
  split
  · next digits =>
      have stop : ∀ c, rest.head? = some c → c.isDigit = false :=
        fun c head => not_digit (ended c head)
      show mNUM (r ++ rest) = .matched () rest
      rw [mNUM, dropWhile_run (List.all_eq_true.mp digits) stop]
  · cases keywordOr_cases r with
    | inl plain =>
        rw [keywordOr_text plain]
        show mTEXT (r ++ rest) = .matched () rest
        rw [mTEXT, dropWhile_run isRun ended]
    | inr keyword =>
        obtain ⟨t, member, same, goes⟩ := keyword
        rw [same, rule_keyword member, goes, matchs_append]

theorem pass_run {r rest : Str} (some_char : r ≠ [])
    (isRun : ∀ c ∈ r, Grammar.isTextChar c = true) (ended : Ended rest)
    (unheaded : Unheaded r rest) :
    lexPass (r ++ rest) = some (.token (.shown (classify r) r), rest) := by
  rw [pass_matched (by simp [some_char]) (chooses_text some_char isRun ended unheaded)
    (rule_run isRun ended), emit_shown (classify_ne_ws r)]

/-- A heading that begins no header line loses its first character. -/
theorem pass_unopened {r : Str} (heading : r ∈ headings)
    (unopened : ∀ x type, (x, type) ∈ openings → ¬ x <+: r ++ ' ' :: w) :
    lexPass (r ++ ' ' :: w) = some (.error, (r ++ ' ' :: w).tail) :=
  pass_stuck (by simp) (stuck_unopened heading unopened)

/-! ### Header lines -/

theorem rule_opening (opening : (x, type) ∈ openings) : rule type = matchs (literal type) := by
  have literals : (openings.all fun y => y.2 ≠ .ws && y.2 ≠ .num && y.2 ≠ .text) = true := by
    decide
  have here := List.all_eq_true.mp literals _ opening
  cases type with
  | ws => cases here
  | num => cases here
  | text => cases here
  | _ => rfl

theorem opening_begins (opening : (x, type) ∈ openings) : x <+: literal type := by
  have begins : (openings.all fun y => y.1.isPrefixOf (literal y.2)) = true := by decide
  exact List.isPrefixOf_iff_prefix.mp (List.all_eq_true.mp begins _ opening)

theorem literal_ne_nil (opening : (x, type) ∈ openings) : literal type ≠ [] := by
  intro empty
  have begins := opening_begins opening
  rw [empty, List.prefix_nil] at begins
  exact opening_ne_nil opening begins

theorem opening_ne_ws (opening : (x, type) ∈ openings) : type ≠ .ws := by
  rintro rfl
  have literals : (openings.all fun y => y.2 ≠ .ws) = true := by decide
  exact absurd (List.all_eq_true.mp literals _ opening) (by simp)

theorem pass_header {rest : Str} (opening : (x, type) ∈ openings) :
    lexPass (literal type ++ rest) = some (.token (.shown type (literal type)), rest) := by
  obtain ⟨v, goes⟩ := opening_begins opening
  have chosen : Chooses 0 (literal type ++ rest) type := by
    rw [← goes, List.append_assoc]
    exact chooses_opening opening
  have some_char : literal type ++ rest ≠ [] :=
    List.append_ne_nil_of_left_ne_nil (literal_ne_nil opening) rest
  rw [pass_matched some_char chosen (by rw [rule_opening opening, matchs_append]),
    emit_shown (opening_ne_ws opening)]

/-- At the first wrong character of a header line two characters are lost. -/
theorem pass_broken {v rest : Str} (opening : (x, type) ∈ openings)
    (goes : literal type = u ++ c :: v) (opened : x <+: u) (broken : rest.head? ≠ some c) :
    lexPass (u ++ rest) = some (.error, rest.drop 2) := by
  obtain ⟨y, rfl⟩ := opened
  have chosen : Chooses 0 (x ++ y ++ rest) type := by
    rw [List.append_assoc]
    exact chooses_opening opening
  have some_char : x ++ y ++ rest ≠ [] := by
    rw [List.append_assoc]
    exact List.append_ne_nil_of_left_ne_nil (opening_ne_nil opening) _
  have failed : rule type (x ++ y ++ rest) = .failed rest.tail := by
    rw [rule_opening opening, goes, matchs_broken broken]
  rw [pass_failed some_char chosen failed]
  simp only [← List.drop_one, List.drop_drop]

/-! ### Marks, white space and foreign characters -/

def marks : List Char := ['(', ')', ',', '.']

/-- The characters with which the alternatives of `WS` begin. -/
def blanks : List Char := [' ', '\t', '\n', '\r']

/-- A character with which no token begins. -/
def Foreign (c : Char) : Prop := Grammar.isTextChar c = false ∧ c ∉ marks ∧ c ∉ blanks

theorem chooses_other (noText : Grammar.isTextChar c = false) :
    Chooses 0 (c :: w) (firstType c) := by
  refine chooses_first ?_ ?_
  · intro next
    rw [(start_nexts next).1] at noText
    cases noText
  · exact not_digit noText

theorem pass_mark (mark : c ∈ marks) :
    lexPass (c :: w) = some (.token (.shown (firstType c) [c]), w) := by
  have facts : Grammar.isTextChar c = false ∧ firstType c ≠ .ws ∧
      rule (firstType c) = matchs [c] := by
    simp only [marks, List.mem_cons, List.not_mem_nil, or_false] at mark
    rcases mark with rfl | rfl | rfl | rfl <;> exact ⟨rfl, by decide, rfl⟩
  obtain ⟨noText, visible, isLiteral⟩ := facts
  have matched : rule (firstType c) (c :: w) = .matched () w := by
    rw [isLiteral]
    exact matchs_append [c] w
  have shown : emit (firstType c) ([c] ++ w) w = .shown (firstType c) [c] := emit_shown visible
  rw [pass_matched (List.cons_ne_nil _ _) (chooses_other noText) matched]
  exact congrArg (fun t => some (Event.token t, w)) shown

/-- A foreign character is predicted to be a number, of which it is no digit. -/
theorem pass_foreign (foreign : Foreign c) :
    lexPass (c :: w) = some (.token (.shown .num []), c :: w) := by
  obtain ⟨noText, noMark, noBlank⟩ := foreign
  simp only [marks, blanks, List.mem_cons, List.not_mem_nil, or_false, not_or] at noMark noBlank
  have chosen := chooses_other (w := w) noText
  have isNum : firstType c = .num := by simp [firstType, noText, noMark, noBlank]
  rw [isNum] at chosen
  have noDigit := not_digit noText
  have matched : rule .num (c :: w) = .matched () (c :: w) := by
    show mNUM (c :: w) = _
    rw [mNUM, List.dropWhile_cons, noDigit]
    rfl
  have shown : emit .num ([] ++ c :: w) (c :: w) = .shown .num [] := emit_shown (by decide)
  rw [pass_matched (List.cons_ne_nil _ _) chosen matched]
  exact congrArg (fun t => some (Event.token t, c :: w)) shown

theorem chooses_blank (blank : c ∈ blanks) : Chooses 0 (c :: w) .ws := by
  simp only [blanks, List.mem_cons, List.not_mem_nil, or_false] at blank
  rcases blank with rfl | rfl | rfl | rfl <;> exact chooses_other rfl

/-- White space is hidden, whatever is matched of it. -/
def Silent (e : Event) : Prop := visible [e] = []

theorem silent_error : Silent .error := rfl

theorem silent_ws (w rest : Str) : Silent (.token (emit .ws w rest)) := rfl

/-- What a pass leaves at white space. -/
def wsRest : Match Unit → Str
  | .matched _ rest => rest
  | .failed rest => rest.tail

theorem pass_ws_matched {rest : Str} (blank : c ∈ blanks)
    (matched : wsLoop false (c :: w) = .matched () rest) :
    lexPass (c :: w) = some (.token (emit .ws (c :: w) rest), rest) :=
  pass_matched (List.cons_ne_nil _ _) (chooses_blank blank) matched

theorem pass_ws_failed {rest : Str} (blank : c ∈ blanks)
    (failed : wsLoop false (c :: w) = .failed rest) : lexPass (c :: w) = some (.error, rest.tail) :=
  pass_failed (List.cons_ne_nil _ _) (chooses_blank blank) failed

theorem pass_ws (blank : c ∈ blanks) :
    ∃ e, Silent e ∧ lexPass (c :: w) = some (e, wsRest (wsLoop false (c :: w))) := by
  cases result : wsLoop false (c :: w) with
  | matched _ rest => exact ⟨_, silent_ws _ _, pass_ws_matched blank result⟩
  | failed rest => exact ⟨_, silent_error, pass_ws_failed blank result⟩

theorem wsLoop_blank (blank : c ∈ blanks) (some_read : Bool) :
    wsLoop some_read (c :: w) = wsLoop true (c :: w) := by
  simp only [blanks, List.mem_cons, List.not_mem_nil, or_false] at blank
  rcases blank with rfl | rfl | rfl | rfl
  · rfl
  · rfl
  · rfl
  · unfold wsLoop
    split <;> simp_all

theorem wsLoop_other (other : ∀ c, w.head? = some c → c ∉ blanks) :
    wsLoop true w = .matched () w := by
  unfold wsLoop
  split
  case h_6 => rfl
  all_goals exact absurd (by simp [blanks]) (other _ rfl)

/-- A blank, or a line end of the grammar, and what the pass leaves after it. -/
inductive Blank : Str → Prop where
  | space : Blank [' ']
  | tab : Blank ['\t']
  | lineFeed : Blank ['\n']
  | formFeed : Blank ['\r', '\x0c']

theorem wsLoop_append (blank : Blank x) (some_read : Bool) :
    wsLoop some_read (x ++ w) = wsLoop true w := by
  cases blank <;> rfl

theorem wsLoop_return (stray : w.head? ≠ some '\x0c') (some_read : Bool) :
    wsLoop some_read ('\r' :: w) = .failed w.tail := by
  unfold wsLoop
  split <;> simp_all

/-! ## The visible tokens of a message -/

/-- The passes end, and the parser is given these tokens. -/
def Shows (w : Str) (ts : List Token) : Prop :=
  ∃ events, Scans lexPass w events ∧ visible events = ts

variable {ts us : List Token}

theorem shows_iff :
    (∃ fuel events, fillBuffer fuel w = some events ∧ visible events = ts) ↔ Shows w ts := by
  constructor
  · rintro ⟨fuel, events, filled, same⟩
    exact ⟨events, scans_of_scan filled, same⟩
  · rintro ⟨events, run, same⟩
    exact ⟨_, events, scan_of_scans run, same⟩

theorem halts_iff_shows : Halts lexPass w ↔ ∃ ts, Shows w ts :=
  ⟨fun ⟨events, run⟩ => ⟨_, events, run, rfl⟩, fun ⟨_, events, run, _⟩ => ⟨events, run⟩⟩

theorem Shows.unique (shown : Shows w ts) (shown' : Shows w us) : ts = us := by
  obtain ⟨events, run, rfl⟩ := shown
  obtain ⟨events', run', rfl⟩ := shown'
  rw [run.unique run']

theorem shows_nil : Shows [] ts ↔ ts = [] := by
  constructor
  · rintro ⟨events, run, rfl⟩
    rw [run.at_end rfl]
    rfl
  · rintro rfl
    exact ⟨[], .finish rfl, rfl⟩

theorem visible_cons (e : Event) (events : List Event) :
    visible (e :: events) = visible [e] ++ visible events := by
  cases e with
  | error => rfl
  | token t =>
      simp only [visible]
      split <;> rfl

theorem shows_after {e : Event} {w' : Str} (pass : lexPass w = some (e, w')) :
    Shows w ts ↔ ∃ us, ts = visible [e] ++ us ∧ Shows w' us := by
  constructor
  · rintro ⟨events, run, rfl⟩
    obtain ⟨rest, rfl, next⟩ := run.after pass
    exact ⟨_, visible_cons e rest, rest, next, rfl⟩
  · rintro ⟨us, rfl, rest, next, rfl⟩
    exact ⟨e :: rest, .more pass next, visible_cons e rest⟩

theorem shows_token {text w' : Str} (pass : lexPass w = some (.token (.shown type text), w')) :
    Shows w ts ↔ ∃ us, ts = .shown type text :: us ∧ Shows w' us :=
  shows_after pass

theorem shows_silent {e : Event} {w' : Str} (silent : Silent e) (pass : lexPass w = some (e, w')) :
    Shows w ts ↔ Shows w' ts := by
  rw [shows_after pass, silent]
  simp

theorem shows_ws (blank : c ∈ blanks) :
    Shows (c :: w) ts ↔ Shows (wsRest (wsLoop true (c :: w))) ts := by
  obtain ⟨e, silent, pass⟩ := pass_ws (w := w) blank
  rw [shows_silent silent pass, wsLoop_blank blank]

theorem Blank.head (blank : Blank x) : ∃ c y, x = c :: y ∧ c ∈ blanks := by
  cases blank <;> exact ⟨_, _, rfl, by decide⟩

theorem shows_blank (blank : Blank x) : Shows (x ++ w) ts ↔ Shows w ts := by
  have whole : Shows (x ++ w) ts ↔ Shows (wsRest (wsLoop true w)) ts := by
    obtain ⟨c, y, rfl, isBlank⟩ := blank.head
    rw [List.cons_append, shows_ws isBlank, ← List.cons_append, wsLoop_append blank]
  rw [whole]
  cases w with
  | nil => rfl
  | cons d w =>
      by_cases more : d ∈ blanks
      · rw [shows_ws more]
      · have stop : wsLoop true (d :: w) = .matched () (d :: w) := by
          refine wsLoop_other ?_
          rintro c ⟨rfl⟩
          exact more
        rw [stop, wsRest]

/-- A carriage return without its form feed loses the two characters after it. -/
theorem shows_return (stray : w.head? ≠ some '\x0c') :
    Shows ('\r' :: w) ts ↔ Shows (w.drop 2) ts := by
  rw [shows_ws (by decide), wsLoop_return stray, wsRest]
  simp only [← List.drop_one, List.drop_drop]

/-! ## Messages that are read without an error -/

/-- The passes end without an error report, and the parser is given these tokens. -/
def Clean (w : Str) (ts : List Token) : Prop :=
  ∃ events, Scans lexPass w events ∧ .error ∉ events ∧ visible events = ts

theorem Clean.shows (clean : Clean w ts) : Shows w ts := by
  obtain ⟨events, run, -, same⟩ := clean
  exact ⟨events, run, same⟩

theorem clean_iff :
    (∃ fuel events, fillBuffer fuel w = some events ∧ .error ∉ events ∧ visible events = ts) ↔
      Clean w ts := by
  constructor
  · rintro ⟨fuel, events, filled, same⟩
    exact ⟨events, scans_of_scan filled, same⟩
  · rintro ⟨events, run, same⟩
    exact ⟨_, events, scan_of_scans run, same⟩

theorem clean_nil : Clean [] ts ↔ ts = [] := by
  constructor
  · exact fun clean => shows_nil.mp clean.shows
  · rintro rfl
    exact ⟨[], .finish rfl, List.not_mem_nil, rfl⟩

theorem clean_after {t : Token} {w' : Str} (pass : lexPass w = some (.token t, w')) :
    Clean w ts ↔ ∃ us, ts = visible [.token t] ++ us ∧ Clean w' us := by
  constructor
  · rintro ⟨events, run, noError, rfl⟩
    obtain ⟨rest, rfl, next⟩ := run.after pass
    rw [List.mem_cons, not_or] at noError
    exact ⟨_, visible_cons _ rest, rest, next, noError.2, rfl⟩
  · rintro ⟨us, rfl, rest, next, noError, rfl⟩
    exact ⟨.token t :: rest, .more pass next, by simp [noError], visible_cons _ rest⟩

theorem not_clean_of_error {w' : Str} (pass : lexPass w = some (.error, w')) : ¬ Clean w ts := by
  rintro ⟨events, run, noError, -⟩
  obtain ⟨rest, rfl, -⟩ := run.after pass
  exact noError List.mem_cons_self

theorem clean_token {text w' : Str} (pass : lexPass w = some (.token (.shown type text), w')) :
    Clean w ts ↔ ∃ us, ts = .shown type text :: us ∧ Clean w' us :=
  clean_after pass

theorem clean_ws (blank : c ∈ blanks) :
    Clean (c :: w) ts ↔ ∃ rest, wsLoop true (c :: w) = .matched () rest ∧ Clean rest ts := by
  cases result : wsLoop true (c :: w) with
  | matched _ rest =>
      rw [clean_after (pass_ws_matched blank ((wsLoop_blank blank false).trans result)),
        show visible [.token (emit .ws (c :: w) rest)] = [] from silent_ws _ _]
      simp
  | failed rest =>
      have pass := pass_ws_failed blank ((wsLoop_blank blank false).trans result)
      simp [not_clean_of_error pass]

theorem clean_blank (blank : Blank x) : Clean (x ++ w) ts ↔ Clean w ts := by
  have whole : Clean (x ++ w) ts ↔ ∃ rest, wsLoop true w = .matched () rest ∧ Clean rest ts := by
    obtain ⟨c, y, rfl, isBlank⟩ := blank.head
    rw [List.cons_append, clean_ws isBlank, ← List.cons_append, wsLoop_append blank]
  rw [whole]
  cases w with
  | nil =>
      constructor
      · rintro ⟨rest, ⟨rfl⟩, clean⟩
        exact clean
      · exact fun clean => ⟨[], rfl, clean⟩
  | cons d w =>
      by_cases more : d ∈ blanks
      · rw [clean_ws more]
      · have stop : wsLoop true (d :: w) = .matched () (d :: w) := by
          refine wsLoop_other ?_
          rintro c ⟨rfl⟩
          exact more
        constructor
        · rintro ⟨rest, matched, clean⟩
          rw [stop] at matched
          cases matched
          exact clean
        · exact fun clean => ⟨_, stop, clean⟩

end RepositoryManager.Lexer
