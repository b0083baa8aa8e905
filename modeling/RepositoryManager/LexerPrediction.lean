import RepositoryManager.LexerStems

/-! # What the lexer predicts

The alternative that `mTokens` chooses, for every input that begins with a run of
`TEXT` characters, with the opening of a header line, or with another character.
-/

namespace RepositoryManager.Lexer

open ByteString CyclicDfa

/-! ## Moves along and off the stems -/

variable {u w x : Str} {s s' : Nat} {c : Char} {type : TokenType}

theorem stem_cases (stem : (u, s) ∈ stems) : openingOk u s = true ∨ stemOk u s = true := by
  have here := List.all_eq_true.mp tables_ok.stems _ stem
  rwa [Bool.or_eq_true] at here

theorem next_of_keyword (keyword : type ∈ keywords) (goes : literal type = u ++ c :: w) :
    c ∈ nexts u := by
  refine List.mem_filterMap.mpr ⟨literal type, ?_, ?_⟩
  · exact List.mem_append_left _ (List.mem_map_of_mem keyword)
  · rw [if_pos (List.isPrefixOf_iff_prefix.mpr ⟨_, goes.symm⟩), goes, List.drop_left]
    rfl

theorem next_of_opening (opening : (x, type) ∈ openings) (goes : x = u ++ c :: w) :
    c ∈ nexts u := by
  refine List.mem_filterMap.mpr ⟨x, ?_, ?_⟩
  · exact List.mem_append_right _ (List.mem_map_of_mem opening)
  · rw [if_pos (List.isPrefixOf_iff_prefix.mpr ⟨_, goes.symm⟩), goes, List.drop_left]
    rfl

theorem stemOk_iff : stemOk u s = true ↔
    (∀ y ∈ openings, y.1 ≠ u) ∧ entry cdfa4.special s < 0 ∧ entry cdfa4.accept s < 1 ∧
      0 ≤ entry cdfa4.min s ∧ leaves u (keywordOr u) (cdfa4.eotMove s) = true ∧
      rangeOk s (moveOk u) = true ∧
      (∀ c ∈ nexts u, (entry cdfa4.min s ≤ charCode c ∧ charCode c ≤ entry cdfa4.max s) ∧
        (Grammar.isTextChar c = true ∨ ' ' ∈ u ∨ (c = ' ' ∧ u ∈ headings))) ∧
      (keywordOr u = .text ∨ (entry cdfa4.min s ≤ 43 ∧ 122 ≤ entry cdfa4.max s)) := by
  simp only [stemOk, Bool.and_eq_true, Bool.or_eq_true, List.all_eq_true, decide_eq_true_eq,
    and_assoc, or_assoc]

theorem stem_next (stem : (u, s) ∈ stems) (next : c ∈ nexts u) :
    ∃ s', cdfa4.move s (charCode c) = .goto s' ∧ (u ++ [c], s') ∈ stems := by
  cases stem_cases stem with
  | inl complete =>
      simp only [openingOk, Bool.and_eq_true, List.isEmpty_iff] at complete
      rw [complete.1.1] at next
      cases next
  | inr part =>
      obtain ⟨-, -, -, -, -, range, listed, -⟩ := stemOk_iff.mp part
      have inRange := (listed c next).1
      have ok := move_listed range inRange.1 inRange.2
      unfold moveOk at ok
      rw [if_pos next] at ok
      cases moved : cdfa4.move s (charCode c) with
      | alt n => simp only [moved, Bool.false_eq_true] at ok
      | noViableAlt => simp only [moved, Bool.false_eq_true] at ok
      | goto s' =>
          simp only [moved, List.any_eq_true, Bool.and_eq_true, decide_eq_true_eq] at ok
          obtain ⟨y, member, rfl, same⟩ := ok
          refine ⟨y.2, rfl, ?_⟩
          rw [← same]
          exact member

/-- The part of a keyword or of an opening that is not all of the opening. -/
theorem stem_open (stem : (u, s) ∈ stems) (part : ∀ type, (u, type) ∉ openings) :
    stemOk u s = true := by
  cases stem_cases stem with
  | inr ok => exact ok
  | inl complete =>
      simp only [openingOk, Bool.and_eq_true, List.any_eq_true, decide_eq_true_eq] at complete
      obtain ⟨⟨-, y, member, rfl⟩, -⟩ := complete
      exact absurd member (part y.2)

theorem stem_leaves (stem : (u, s) ∈ stems) (part : ∀ type, (u, type) ∉ openings)
    (off : c ∉ nexts u) :
    leaves u (if Grammar.isTextChar c then .text else keywordOr u)
      (cdfa4.move s (charCode c)) = true := by
  obtain ⟨-, ordinary, undecided, -, eot, range, -, wide⟩ := stemOk_iff.mp (stem_open stem part)
  by_cases listed : entry cdfa4.min s ≤ charCode c ∧ charCode c ≤ entry cdfa4.max s
  · have ok := move_listed range listed.1 listed.2
    unfold moveOk at ok
    rwa [if_neg off] at ok
  · rw [move_unlisted ordinary undecided listed]
    by_cases isText : Grammar.isTextChar c = true
    · have code := textChar_code isText
      cases wide with
      | inl plain => rwa [if_pos isText, ← plain]
      | inr all => exact absurd ⟨by omega, by omega⟩ listed
    · rwa [if_neg isText]

theorem stem_leaves_end (stem : (u, s) ∈ stems) (part : ∀ type, (u, type) ∉ openings) :
    leaves u (keywordOr u) (cdfa4.move s (-1)) = true := by
  obtain ⟨-, ordinary, undecided, low, eot, -, -, -⟩ := stemOk_iff.mp (stem_open stem part)
  rw [move_unlisted ordinary undecided (by omega)]
  exact eot

theorem opening_accepts (stem : (u, s) ∈ stems) (opening : (u, type) ∈ openings) :
    accepting s type = true := by
  cases stem_cases stem with
  | inl complete =>
      rw [openingOk, Bool.and_eq_true] at complete
      have here := List.all_eq_true.mp complete.2 _ opening
      simpa using here
  | inr part => exact absurd rfl ((stemOk_iff.mp part).1 _ opening)

/-! ## Predictions -/

theorem move_accepting {c : Int} (accepts : accepting s type = true) :
    cdfa4.move s c = .alt (entry cdfa4.accept s) ∧
      alternatives[(entry cdfa4.accept s).toNat - 1]? = some type := by
  simp only [accepting, Bool.and_eq_true, decide_eq_true_eq] at accepts
  refine ⟨?_, accepts.2⟩
  rw [move, if_neg (by omega), if_pos (by omega)]

theorem settled : cdfa4.Settled :=
  settled_of_check (n := 121) ⟨rfl, rfl, rfl, rfl, rfl, rfl⟩ (by decide)

/-- From state `s` the prediction ends at the alternative of a token. -/
def Chooses (s : Nat) (w : Str) (type : TokenType) : Prop :=
  ∃ n, Predicts cdfa4 charCode s w (.alt n) ∧ alternatives[n.toNat - 1]? = some type

theorem chooses_accepting (accepts : accepting s type = true) : Chooses s w type :=
  ⟨_, .alt (move_accepting accepts).1, (move_accepting (c := 0) accepts).2⟩

theorem chooses_goto (first : cdfa4.move s (lookAhead charCode w) = .goto s')
    (next : Chooses s' w.tail type) : Chooses s w type := by
  obtain ⟨n, run, alternative⟩ := next
  exact ⟨n, .goto first run, alternative⟩

/-- Off the stems the next pass accepts, unless a blank has been read. -/
theorem chooses_of_leaves {v : Str} (inText : ' ' ∉ u)
    (left : leaves u type (cdfa4.move s (lookAhead charCode v)) = true) : Chooses s v type := by
  cases first : cdfa4.move s (lookAhead charCode v) with
  | alt n => simp only [first, leaves, Bool.false_eq_true] at left
  | noViableAlt =>
      rw [first] at left
      exact absurd (of_decide_eq_true left) inText
  | goto s' =>
      simp only [first, leaves, Bool.and_eq_true] at left
      exact chooses_goto first (chooses_accepting left.2)

theorem stuck_of_leaves {v : Str} (blank : ' ' ∈ u)
    (left : leaves u type (cdfa4.move s (lookAhead charCode v)) = true) :
    Predicts cdfa4 charCode s v .noViableAlt := by
  cases first : cdfa4.move s (lookAhead charCode v) with
  | alt n => simp only [first, leaves, Bool.false_eq_true] at left
  | noViableAlt => exact .noViableAlt first
  | goto s' => simp [first, leaves, blank] at left

/-! ### Along an opening -/

theorem stem_along {v v' : Str} (stem : (u, s) ∈ stems) (opening : (u ++ (v ++ v'), type) ∈ openings) :
    ∃ s', (u ++ v, s') ∈ stems ∧
      ∀ w p, Predicts cdfa4 charCode s' w p → Predicts cdfa4 charCode s (v ++ w) p := by
  induction v generalizing u s with
  | nil => exact ⟨s, by simpa using stem, fun w p run => run⟩
  | cons c v ih =>
      obtain ⟨s', first, next⟩ := stem_next stem (next_of_opening opening rfl)
      obtain ⟨s'', last, along⟩ := ih next (by simpa using opening)
      exact ⟨s'', by simpa using last, fun w p run => .goto first (along w p run)⟩

theorem stuck_after_blank (stem : (u, s) ∈ stems) (blank : ' ' ∈ u)
    (unopened : ∀ x type, (x, type) ∈ openings → ¬ x <+: u ++ w) :
    Predicts cdfa4 charCode s w .noViableAlt := by
  induction w generalizing u s with
  | nil =>
      have part : ∀ type, (u, type) ∉ openings := fun type opening =>
        unopened u type opening ⟨[], by simp⟩
      exact stuck_of_leaves blank (stem_leaves_end stem part)
  | cons c w ih =>
      have part : ∀ type, (u, type) ∉ openings := fun type opening =>
        unopened u type opening ⟨c :: w, rfl⟩
      by_cases next : c ∈ nexts u
      · obtain ⟨s', first, stem'⟩ := stem_next stem next
        refine .goto first (ih stem' (List.mem_append_left _ blank) ?_)
        intro x type opening begins
        exact unopened x type opening (by simpa using begins)
      · exact stuck_of_leaves blank (stem_leaves stem part next)

/-! ### Along a run of `TEXT` characters -/

/-- The input goes on with no `TEXT` character. -/
def Ended (rest : Str) : Prop := ∀ c, rest.head? = some c → Grammar.isTextChar c = false

/-- The run is not one that the blank after it makes the start of a header line. -/
def Unheaded (r rest : Str) : Prop := r ∈ headings → rest.head? ≠ some ' '

theorem openings_blank (opening : (x, type) ∈ openings) : ' ' ∈ x := by
  have all : (openings.all fun y => y.1.contains ' ') = true := by decide
  have here := List.all_eq_true.mp all _ opening
  simpa using here

theorem opening_ne_nil (opening : (x, type) ∈ openings) : x ≠ [] := by
  rintro rfl
  have blank := openings_blank opening
  cases blank

theorem keywordOr_text {r : Str} (none : ∀ t ∈ keywords, literal t ≠ r) :
    keywordOr r = .text := by
  have notFound : (keywords.find? fun t => literal t = r) = Option.none := by
    rw [List.find?_eq_none]
    intro t keyword
    simpa using none t keyword
  rw [keywordOr, notFound]
  rfl

theorem chooses_run {r rest : Str} (stem : (u, s) ∈ stems) (inText : ' ' ∉ u)
    (isRun : ∀ c ∈ r, Grammar.isTextChar c = true) (ended : Ended rest)
    (unheaded : Unheaded (u ++ r) rest) : Chooses s (r ++ rest) (keywordOr (u ++ r)) := by
  induction r generalizing u s with
  | nil =>
      have part : ∀ type, (u, type) ∉ openings := fun type opening =>
        inText (openings_blank opening)
      rw [List.append_nil] at unheaded ⊢
      cases rest with
      | nil => exact chooses_of_leaves inText (stem_leaves_end stem part)
      | cons c rest =>
          have noText := ended c rfl
          have off : c ∉ nexts u := by
            intro next
            obtain ⟨-, -, -, -, -, -, listed, -⟩ := stemOk_iff.mp (stem_open stem part)
            rcases (listed c next).2 with isText | blank | ⟨rfl, heading⟩
            · rw [isText] at noText
              cases noText
            · exact inText blank
            · exact unheaded heading rfl
          have left := stem_leaves stem part off
          rw [noText] at left
          exact chooses_of_leaves inText left
  | cons c r ih =>
      have isText := isRun c List.mem_cons_self
      by_cases next : c ∈ nexts u
      · obtain ⟨s', first, stem'⟩ := stem_next stem next
        have blank : ' ' ∉ u ++ [c] := by
          intro member
          cases List.mem_append.mp member with
          | inl before => exact inText before
          | inr here =>
              rw [← List.mem_singleton.mp here] at isText
              cases isText
        have rest := ih stem' blank (fun d member => isRun d (List.mem_cons_of_mem _ member))
          (by simpa using unheaded)
        exact chooses_goto first (by simpa using rest)
      · have part : ∀ type, (u, type) ∉ openings := fun type opening =>
          inText (openings_blank opening)
        have plain : keywordOr (u ++ c :: r) = .text :=
          keywordOr_text fun t keyword same => next (next_of_keyword keyword same)
        have left := stem_leaves stem part next
        rw [isText, if_pos rfl] at left
        rw [plain]
        exact chooses_of_leaves inText left

/-! ### From the start -/

theorem isTextChar_of_isDigit (digit : c.isDigit = true) : Grammar.isTextChar c = true := by
  simp only [Char.isDigit, Bool.and_eq_true, decide_eq_true_eq] at digit
  simp only [Grammar.isTextChar, Bool.or_eq_true, Bool.and_eq_true, decide_eq_true_eq]
  exact .inl (.inl (.inl (.inl (.inl (.inl (.inr digit))))))

theorem not_digit (noText : Grammar.isTextChar c = false) : c.isDigit = false := by
  rw [Bool.eq_false_iff]
  intro digit
  rw [isTextChar_of_isDigit digit] at noText
  cases noText

theorem start_moves (c : Char) : startOk c (cdfa4.move 0 (charCode c)) = true := by
  by_cases listed : 9 ≤ charCode c ∧ charCode c ≤ 122
  · exact move_listed tables_ok.start listed.1 listed.2
  · have ne : ∀ d, 9 ≤ charCode d ∧ charCode d ≤ 122 → c ≠ d := by
      rintro d code rfl
      exact listed code
    have notText : Grammar.isTextChar c = false := by
      rw [Bool.eq_false_iff]
      intro isText
      have code := textChar_code isText
      exact listed ⟨by omega, code.2⟩
    have notDigit := not_digit notText
    have off : c ∉ nexts [] := by
      have all : ((nexts []).all fun d => 9 ≤ charCode d ∧ charCode d ≤ 122) = true := by
        decide
      intro next
      exact listed (of_decide_eq_true (List.all_eq_true.mp all c next))
    have foreign : firstType c = .num := by
      simp only [firstType, ne '(' (by decide), ne ')' (by decide), ne ',' (by decide),
        ne '.' (by decide), ne ' ' (by decide), ne '\t' (by decide), ne '\n' (by decide),
        ne '\r' (by decide), notText, decide_false, Bool.or_self, Bool.false_eq_true, if_false]
    have moved : cdfa4.move 0 (charCode c) = .goto 11 :=
      (move_unlisted (s := 0) (by decide) (by decide) listed).trans
        (by decide)
    simp only [moved, startOk, off, notDigit, foreign, if_false, Bool.false_eq_true]
    decide

theorem digits_moves (c : Char) : digitsOk c (cdfa4.move 10 (charCode c)) = true := by
  by_cases listed : 43 ≤ charCode c ∧ charCode c ≤ 122
  · exact move_listed tables_ok.digits listed.1 listed.2
  · have notText : Grammar.isTextChar c = false := by
      rw [Bool.eq_false_iff]
      exact fun isText => listed (textChar_code isText)
    have notDigit := not_digit notText
    have moved : cdfa4.move 10 (charCode c) = .goto 11 :=
      (move_unlisted (s := 10) (by decide) (by decide) listed).trans
        (by decide)
    simp only [moved, digitsOk, notDigit, notText, if_false, Bool.false_eq_true]
    decide

theorem chooses_digits {r rest : Str} (isRun : ∀ c ∈ r, Grammar.isTextChar c = true)
    (ended : Ended rest) :
    Chooses 10 (r ++ rest) (if r.all Char.isDigit then .num else .text) := by
  induction r with
  | nil =>
      cases rest with
      | nil =>
          have first : cdfa4.move 10 (-1) = .goto 11 := by decide
          exact chooses_goto first (chooses_accepting (by decide))
      | cons c rest =>
          have noText := ended c rfl
          have noDigit := not_digit noText
          have moved := digits_moves c
          cases first : cdfa4.move 10 (charCode c) with
          | alt n => simp only [first, digitsOk, Bool.false_eq_true] at moved
          | noViableAlt => simp only [first, digitsOk, Bool.false_eq_true] at moved
          | goto s =>
              simp only [first, digitsOk, noDigit, noText, Bool.false_eq_true, if_false] at moved
              exact chooses_goto first (chooses_accepting moved)
  | cons c r ih =>
      have isText := isRun c List.mem_cons_self
      have moved := digits_moves c
      cases first : cdfa4.move 10 (charCode c) with
      | alt n => simp only [first, digitsOk, Bool.false_eq_true] at moved
      | noViableAlt => simp only [first, digitsOk, Bool.false_eq_true] at moved
      | goto s =>
          rw [List.all_cons]
          by_cases digit : c.isDigit = true
          · simp only [first, digitsOk, digit, if_true, decide_eq_true_eq] at moved
            rw [digit, Bool.true_and]
            exact chooses_goto (first.trans (by rw [moved]))
              (ih fun d member => isRun d (List.mem_cons_of_mem _ member))
          · simp only [first, digitsOk, digit, isText, if_true, Bool.false_eq_true,
              if_false] at moved
            rw [Bool.eq_false_iff.mpr digit, Bool.false_and]
            exact chooses_goto first (chooses_accepting moved)

theorem chooses_first (off : c ∉ nexts []) (noDigit : c.isDigit = false) :
    Chooses 0 (c :: w) (firstType c) := by
  have moved := start_moves c
  cases first : cdfa4.move 0 (charCode c) with
  | alt n => simp only [first, startOk, Bool.false_eq_true] at moved
  | noViableAlt => simp only [first, startOk, Bool.false_eq_true] at moved
  | goto s =>
      simp only [first, startOk, off, noDigit, Bool.false_eq_true, if_false] at moved
      exact chooses_goto first (chooses_accepting moved)

theorem start_stem (next : c ∈ nexts []) :
    ∃ s, cdfa4.move 0 (charCode c) = .goto s ∧ ([c], s) ∈ stems := by
  have moved := start_moves c
  cases first : cdfa4.move 0 (charCode c) with
  | alt n => simp only [first, startOk, Bool.false_eq_true] at moved
  | noViableAlt => simp only [first, startOk, Bool.false_eq_true] at moved
  | goto s =>
      simp only [first, startOk, next, if_true, List.any_eq_true, Bool.and_eq_true,
        decide_eq_true_eq] at moved
      obtain ⟨x, member, rfl, same⟩ := moved
      refine ⟨x.2, rfl, ?_⟩
      rw [← same]
      exact member

theorem start_nexts (next : c ∈ nexts []) :
    Grammar.isTextChar c = true ∧ c.isDigit = false := by
  have all : ((nexts []).all fun d => Grammar.isTextChar d && !d.isDigit) = true := by
    decide
  have here := List.all_eq_true.mp all c next
  rwa [Bool.and_eq_true, Bool.not_eq_true'] at here

theorem firstType_text (isText : Grammar.isTextChar c = true) : firstType c = .text := by
  have ne : ∀ d, Grammar.isTextChar d = false → c ≠ d := by
    rintro d noText rfl
    rw [isText] at noText
    cases noText
  simp only [firstType, ne '(' rfl, ne ')' rfl, ne ',' rfl, ne '.' rfl, ne ' ' rfl, ne '\t' rfl,
    ne '\n' rfl, ne '\r' rfl, isText, decide_false, Bool.or_self, Bool.false_eq_true, if_false,
    if_true]

theorem chooses_text {r rest : Str} (some_char : r ≠ [])
    (isRun : ∀ c ∈ r, Grammar.isTextChar c = true) (ended : Ended rest)
    (unheaded : Unheaded r rest) : Chooses 0 (r ++ rest) (classify r) := by
  cases r with
  | nil => exact absurd rfl some_char
  | cons c r =>
      have isText := isRun c List.mem_cons_self
      have isRest : ∀ d ∈ r, Grammar.isTextChar d = true := fun d member =>
        isRun d (List.mem_cons_of_mem _ member)
      by_cases next : c ∈ nexts []
      · obtain ⟨s, first, stem⟩ := start_stem next
        have plain : classify (c :: r) = keywordOr (c :: r) := by
          rw [classify, List.all_cons, (start_nexts next).2, Bool.false_and]
          rfl
        have noBlank : ' ' ∉ [c] := by
          intro member
          rw [← List.mem_singleton.mp member] at isText
          cases isText
        rw [plain]
        exact chooses_goto first (chooses_run stem noBlank isRest ended unheaded)
      · have noKeyword : keywordOr (c :: r) = .text :=
          keywordOr_text fun t keyword same => next (next_of_keyword keyword same)
        by_cases digit : c.isDigit = true
        · have first := start_moves c
          cases moved : cdfa4.move 0 (charCode c) with
          | alt n => simp only [moved, startOk, Bool.false_eq_true] at first
          | noViableAlt => simp only [moved, startOk, Bool.false_eq_true] at first
          | goto s =>
              simp only [moved, startOk, next, digit, if_false, if_true,
                decide_eq_true_eq] at first
              have rest := chooses_digits isRest ended
              have plain : classify (c :: r) = if r.all Char.isDigit then .num else .text := by
                rw [classify, List.all_cons, digit, Bool.true_and, noKeyword]
              rw [plain]
              exact chooses_goto (moved.trans (by rw [first])) rest
        · have plain : classify (c :: r) = .text := by
            rw [classify, List.all_cons, Bool.eq_false_iff.mpr digit, Bool.false_and, noKeyword]
            rfl
          have here := chooses_first (w := r ++ rest) next (Bool.eq_false_iff.mpr digit)
          rw [firstType_text isText] at here
          rw [plain]
          exact here

theorem start_along {v z : Str} (some_char : v ≠ []) (opening : (v ++ z, type) ∈ openings) :
    ∃ s, (v, s) ∈ stems ∧
      ∀ w p, Predicts cdfa4 charCode s w p → Predicts cdfa4 charCode 0 (v ++ w) p := by
  cases v with
  | nil => exact absurd rfl some_char
  | cons c v =>
      obtain ⟨s, first, stem⟩ := start_stem (next_of_opening (u := []) opening rfl)
      obtain ⟨s', last, along⟩ := stem_along stem opening
      exact ⟨s', last, fun w p run => .goto first (along w p run)⟩

theorem chooses_opening (opening : (x, type) ∈ openings) : Chooses 0 (x ++ w) type := by
  obtain ⟨s, stem, along⟩ := start_along (z := []) (opening_ne_nil opening)
    (by simpa using opening)
  obtain ⟨n, run, alternative⟩ := chooses_accepting (w := w) (opening_accepts stem opening)
  exact ⟨n, along w _ run, alternative⟩

/-- A heading and a blank that no opening begins with. -/
theorem stuck_unopened {r : Str} (heading : r ∈ headings)
    (unopened : ∀ x type, (x, type) ∈ openings → ¬ x <+: r ++ ' ' :: w) :
    Predicts cdfa4 charCode 0 (r ++ ' ' :: w) .noViableAlt := by
  have begins : (headings.all fun h => openings.any fun y => (h ++ [' ']).isPrefixOf y.1) = true := by
    decide
  have here := List.all_eq_true.mp begins r heading
  simp only [List.any_eq_true, List.isPrefixOf_iff_prefix] at here
  obtain ⟨y, opening, z, goes⟩ := here
  obtain ⟨s, stem, along⟩ := start_along (v := r ++ [' ']) (z := z) (by simp)
    (show (r ++ [' '] ++ z, y.2) ∈ openings by rw [goes]; exact opening)
  have run := along w _ (stuck_after_blank stem (by simp) (by simpa using unopened))
  simpa using run

end RepositoryManager.Lexer
