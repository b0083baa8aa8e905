import RepositoryManager.LexerReading

/-! # When lexing ends

A character of no token is predicted to be a number, and a number may have no digit.
So such a character at the start of a token is read for ever. It does no harm where
the recovery from another error throws it away: after a carriage return without its
form feed, and after the first wrong character of a header line.
-/

namespace RepositoryManager.Lexer

open ByteString Scanner

/-- `Goes w w'`: the message `w` begins with a mark, white space, a header line or a longest
    run of `TEXT` characters, and goes on with `w'`. What recovery throws away is left out. -/
inductive Goes : Str → Str → Prop where
  | mark {c w} (isMark : c ∈ marks) : Goes (c :: w) w
  | blank {x w} (isBlank : Blank x) : Goes (x ++ w) w
  | stray {w} (noFormFeed : w.head? ≠ some '\x0c') : Goes ('\r' :: w) (w.drop 2)
  | run {r w} (some_char : r ≠ []) (isRun : ∀ c ∈ r, Grammar.isTextChar c = true)
      (ended : Ended w) (unopened : ∀ x type, (x, type) ∈ openings → ¬ x <+: r ++ w) :
      Goes (r ++ w) w
  | header {x type w} (opening : (x, type) ∈ openings) : Goes (literal type ++ w) w
  | broken {x type u c v w} (opening : (x, type) ∈ openings) (goes : literal type = u ++ c :: v)
      (opened : x <+: u) (wrong : w.head? ≠ some c) : Goes (u ++ w) (w.drop 2)

/-- The message goes on in this way to its end. No token of it begins with a character that
    belongs to no token. -/
inductive Passable : Str → Prop where
  | empty : Passable []
  | more {w w'} (goes : Goes w w') (next : Passable w') : Passable w

/-! ## How a message goes on -/

variable {w w' x : Str} {type : TokenType}

theorem goes_run {r : Str} (some_char : r ≠ []) (isRun : ∀ c ∈ r, Grammar.isTextChar c = true)
    (ended : Ended w) : ∃ w', Goes (r ++ w) w' := by
  by_cases opened : ∃ x type, (x, type) ∈ openings ∧ x <+: r ++ w
  · obtain ⟨x, type, opening, begins⟩ := opened
    rcases leaves_word (opening_begins opening) begins with
      ⟨rest, whole⟩ | ⟨u, c, v, rest, goes, same, inside, wrong⟩
    · rw [← whole]
      exact ⟨rest, .header opening⟩
    · rw [same]
      exact ⟨_, .broken opening goes inside wrong⟩
  · exact ⟨w, .run some_char isRun ended fun x type opening begins =>
      opened ⟨x, type, opening, begins⟩⟩

/-- A message is empty, begins with a character of no token, or goes on. -/
theorem goes_cases (w : Str) :
    w = [] ∨ (∃ c rest, w = c :: rest ∧ Foreign c) ∨ ∃ w', Goes w w' := by
  cases w with
  | nil => exact .inl rfl
  | cons c rest =>
      refine .inr ?_
      by_cases isText : Grammar.isTextChar c = true
      · have whole := List.takeWhile_append_dropWhile (p := Grammar.isTextChar) (l := c :: rest)
        rw [← whole]
        refine .inr (goes_run ?_ ?_ ?_)
        · rw [List.takeWhile_cons, isText]
          exact List.cons_ne_nil _ _
        · exact fun d member => List.mem_takeWhile_imp member
        · intro d head
          have stop := List.head?_dropWhile_not Grammar.isTextChar (c :: rest)
          rw [head] at stop
          simpa using stop
      · by_cases isMark : c ∈ marks
        · exact .inr ⟨rest, .mark isMark⟩
        · by_cases isBlank : c ∈ blanks
          · simp only [blanks, List.mem_cons, List.not_mem_nil, or_false] at isBlank
            rcases isBlank with rfl | rfl | rfl | rfl
            · exact .inr ⟨rest, .blank .space⟩
            · exact .inr ⟨rest, .blank .tab⟩
            · exact .inr ⟨rest, .blank .lineFeed⟩
            · by_cases formFeed : rest.head? = some '\x0c'
              · obtain ⟨rest, rfl⟩ := List.head?_eq_some_iff.mp formFeed
                exact .inr ⟨rest, .blank .formFeed⟩
              · exact .inr ⟨_, .stray formFeed⟩
          · exact .inl ⟨c, rest, rfl, Bool.eq_false_iff.mpr isText, isMark, isBlank⟩

theorem Goes.shorter (goes : Goes w w') : w'.length < w.length := by
  cases goes with
  | mark => exact Nat.lt_succ_self _
  | blank isBlank =>
      obtain ⟨c, y, rfl, -⟩ := isBlank.head
      rw [List.length_append, List.length_cons]
      omega
  | stray =>
      rw [List.length_drop, List.length_cons]
      omega
  | run some_char =>
      have := List.length_pos_of_ne_nil some_char
      rw [List.length_append]
      omega
  | @header x type _ opening =>
      have := List.length_pos_of_ne_nil (opening_ne_nil opening)
      have := (opening_begins opening).length_le
      rw [List.length_append]
      omega
  | broken opening _ opened =>
      have := List.length_pos_of_ne_nil (opening_ne_nil opening)
      have := opened.length_le
      rw [List.length_append, List.length_drop]
      omega

/-! ## The passes over it -/

theorem unheaded_tail {r : Str} (heading : r ∈ headings) :
    r.tail ≠ [] ∧ (∀ c ∈ r.tail, Grammar.isTextChar c = true) ∧ r.tail ∉ headings := by
  have all : (headings.all fun h => !h.tail.isEmpty && h.tail.all Grammar.isTextChar &&
      !headings.contains h.tail) = true := by decide
  have here := List.all_eq_true.mp all r heading
  simpa [and_assoc] using here

/-- The characters of the visible tokens. -/
def shownText (ts : List Token) : Str := ts.flatMap Token.text

/-- Between `w` and `w'` the parser is given the tokens `ts`, none of them empty, and all
    their characters are characters of the part in between. -/
structure Between (w w' : Str) (ts : List Token) : Prop where
  shows : ∀ us, Shows w us ↔ ∃ vs, us = ts ++ vs ∧ Shows w' vs
  full : ∀ t ∈ ts, t.text ≠ []
  part : ∃ part, w = part ++ w' ∧ (shownText ts).Sublist part

theorem Between.silent {part : Str} (same : ∀ us, Shows (part ++ w') us ↔ Shows w' us) :
    Between (part ++ w') w' [] where
  shows us := by
    rw [same]
    simp
  full t member := absurd member List.not_mem_nil
  part := ⟨part, rfl, List.nil_sublist _⟩

theorem Between.token {text : Str} (some_char : text ≠ [])
    (pass : lexPass (text ++ w') = some (.token (.shown type text), w')) :
    Between (text ++ w') w' [.shown type text] where
  shows us := shows_token pass
  full t member := by
    rw [List.mem_singleton.mp member]
    exact some_char
  part := ⟨text, rfl, by simp [shownText, Token.shown]⟩

theorem between_run {r : Str} (some_char : r ≠ []) (isRun : ∀ c ∈ r, Grammar.isTextChar c = true)
    (ended : Ended w) (unopened : ∀ x type, (x, type) ∈ openings → ¬ x <+: r ++ w) :
    ∃ ts, Between (r ++ w) w ts := by
  by_cases headed : r ∈ headings ∧ w.head? = some ' '
  · obtain ⟨heading, blank⟩ := headed
    obtain ⟨rest, rfl⟩ := List.head?_eq_some_iff.mp blank
    obtain ⟨some_left, isLeft, plain⟩ := unheaded_tail heading
    have split : (r ++ ' ' :: rest).tail = r.tail ++ ' ' :: rest :=
      List.tail_append_of_ne_nil some_char
    have stuck := pass_unopened heading unopened
    rw [split] at stuck
    have left := pass_run some_left isLeft ended fun absurd => (plain absurd).elim
    refine ⟨[.shown (classify r.tail) r.tail], ?_, ?_, r, rfl, ?_⟩
    · intro us
      rw [shows_silent silent_error stuck, shows_token left]
      rfl
    · intro t member
      rw [List.mem_singleton.mp member]
      exact some_left
    · simpa [shownText, Token.shown] using List.tail_sublist r
  · have unheaded : Unheaded r w := fun heading blank => headed ⟨heading, blank⟩
    exact ⟨_, .token some_char (pass_run some_char isRun ended unheaded)⟩

theorem Goes.between (goes : Goes w w') : ∃ ts, Between w w' ts := by
  cases goes with
  | @mark c _ isMark =>
      have between : Between ([c] ++ w') w' _ := .token (List.cons_ne_nil c []) (pass_mark isMark)
      exact ⟨_, between⟩
  | blank isBlank => exact ⟨[], .silent fun _ => shows_blank isBlank⟩
  | @stray w noFormFeed =>
      refine ⟨[], ?_⟩
      have split : '\r' :: w = ('\r' :: w.take 2) ++ w.drop 2 := by simp
      rw [split]
      refine .silent fun us => ?_
      rw [← split]
      exact shows_return noFormFeed
  | run some_char isRun ended unopened => exact between_run some_char isRun ended unopened
  | @header x type _ opening =>
      exact ⟨_, .token (literal_ne_nil opening) (pass_header opening)⟩
  | @broken x type u c v w opening goes opened wrong =>
      refine ⟨[], ?_⟩
      have split : u ++ w = (u ++ w.take 2) ++ w.drop 2 := by simp
      rw [split]
      refine .silent fun us => ?_
      rw [← split]
      exact shows_silent silent_error (pass_broken opening goes opened wrong)

theorem Goes.halts (goes : Goes w w') : Halts lexPass w ↔ Halts lexPass w' := by
  obtain ⟨ts, between⟩ := goes.between
  rw [halts_iff_shows, halts_iff_shows]
  constructor
  · rintro ⟨us, shown⟩
    obtain ⟨vs, -, rest⟩ := (between.shows us).mp shown
    exact ⟨vs, rest⟩
  · rintro ⟨vs, rest⟩
    exact ⟨ts ++ vs, (between.shows _).mpr ⟨vs, rfl, rest⟩⟩

theorem passable_of_halts (halts : Halts lexPass w) : Passable w := by
  induction size : w.length using Nat.strongRecOn generalizing w with
  | ind n ih =>
      rcases goes_cases w with rfl | ⟨c, rest, rfl, foreign⟩ | ⟨w', goes⟩
      · exact .empty
      · exact absurd halts (not_halts_of_stuck (pass_foreign foreign))
      · exact .more goes (ih w'.length (size ▸ goes.shorter) (goes.halts.mp halts) rfl)

theorem passable_of_known (known : ∀ c ∈ w, ¬ Foreign c) : Passable w := by
  induction size : w.length using Nat.strongRecOn generalizing w with
  | ind n ih =>
      rcases goes_cases w with rfl | ⟨c, rest, rfl, foreign⟩ | ⟨w', goes⟩
      · exact .empty
      · exact absurd foreign (known c List.mem_cons_self)
      · obtain ⟨ts, between⟩ := goes.between
        obtain ⟨part, same, -⟩ := between.part
        refine .more goes (ih w'.length (size ▸ goes.shorter) (fun c member => known c ?_) rfl)
        rw [same]
        exact List.mem_append_right _ member

theorem halts_of_passable (passable : Passable w) : Halts lexPass w := by
  induction passable with
  | empty => exact halts_at_end rfl
  | more goes _ ih => exact goes.halts.mpr ih

/-- What a message shows the parser: no empty token, and no character twice. -/
theorem shows_text {ts : List Token} (shown : Shows w ts) :
    (∀ t ∈ ts, t.text ≠ []) ∧ (shownText ts).Sublist w := by
  induction passable_of_halts (halts_iff_shows.mpr ⟨ts, shown⟩) generalizing ts with
  | empty =>
      rw [shows_nil.mp shown]
      exact ⟨fun t member => absurd member List.not_mem_nil, List.nil_sublist _⟩
  | more goes _ ih =>
      obtain ⟨us, between⟩ := goes.between
      obtain ⟨vs, rfl, rest⟩ := (between.shows _).mp shown
      obtain ⟨part, rfl, inside⟩ := between.part
      obtain ⟨full, sublist⟩ := ih rest
      refine ⟨fun t member => (List.mem_append.mp member).elim (between.full t) (full t), ?_⟩
      rw [shownText, List.flatMap_append]
      exact inside.append sublist

/-- Lexing a message ends exactly if no token of it begins with a character of no token. -/
theorem lexing_ends_iff (w : Str) :
    (∃ fuel events, fillBuffer fuel w = some events) ↔ Passable w := by
  have ends : (∃ fuel events, fillBuffer fuel w = some events) ↔ Halts lexPass w := by
    constructor
    · rintro ⟨fuel, events, filled⟩
      exact ⟨events, scans_of_scan filled⟩
    · rintro ⟨events, run⟩
      exact ⟨_, events, scan_of_scans run⟩
  rw [ends]
  exact ⟨passable_of_halts, halts_of_passable⟩

/-- A message that is a single `#`. -/
theorem hash_never_lexed : ¬ ∃ fuel events, fillBuffer fuel ['#'] = some events := by
  rintro ⟨fuel, events, filled⟩
  have foreign : Foreign '#' := ⟨rfl, by decide, by decide⟩
  exact not_halts_of_stuck (pass_foreign foreign) ⟨events, scans_of_scan filled⟩

end RepositoryManager.Lexer
