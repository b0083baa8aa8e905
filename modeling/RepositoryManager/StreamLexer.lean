import RepositoryManager.CharStream
import RepositoryManager.StreamParser
import RepositoryManager.SyntaxTree

/-! # The lexer on its stream

`RepositoryManagerLexer.c` and the parts of `antlr3lexer.c` and `antlr3cyclicdfa.c` that it
calls, on the character stream: what looks ahead marks the stream and rewinds it, what matches
consumes, and a token keeps where in the message it was. The tokens are those of the lexer on
texts, each with its place.
-/

namespace RepositoryManager

open ByteString
open Lexer hiding rule matchs wsLoop mWS mNUM mTEXT mTokens emit lexPass fillBuffer

/-- `ANTLR3_COMMON_TOKEN`, as far as `emit` fills it for this grammar. -/
structure CommonToken where
  type : TokenType
  channel : Nat
  start : Nat
  stop : Int
  line : Nat
  charPosition : Int
  lineStart : Nat
  deriving DecidableEq

namespace InputStream

/-! ## Prediction -/

/-- `_LA` as a number, for the tables of a decision. -/
def symbol (s : InputStream) : Int :=
  match s.LA 1 with
  | none => -1
  | some c => charCode c

/-- At most `fuel` passes of the loop of `antlr3dfapredict`. -/
def lookAheadFrom (d : CyclicDfa) : Nat → Nat → InputStream → CyclicDfa.Prediction × InputStream
  | 0, _, stream => (.running, stream)
  | fuel + 1, s, stream =>
      match d.move s stream.symbol with
      | .alt n => (.alt n, stream)
      | .noViableAlt => (.noViableAlt, stream)
      | .goto s' => lookAheadFrom d fuel s' stream.consume

/-- `antlr3dfapredict` -/
def predict (d : CyclicDfa) (s : InputStream) : CyclicDfa.Prediction × InputStream :=
  let (mark, marked) := s.mark
  let (answer, after) := lookAheadFrom d (s.left + 2) 0 marked
  (answer, after.rewind mark)

/-! ## The rules

A rule leaves a value, or the exception with which it gave up. -/

/-- `matchs`, and `matchc` for one character. -/
def matchs : Str → InputStream → Option Unit × InputStream
  | [], s => (some (), s)
  | c :: string, s => if s.LA 1 = some c then matchs string s.consume else (none, s.consume)

/-- The loop of `mWS`. -/
def wsLoop (cnt1 : Nat) (s : InputStream) : Option Unit × InputStream :=
  if s.LA 1 = some ' ' ∨ s.LA 1 = some '\t' ∨ s.LA 1 = some '\n' then wsLoop (cnt1 + 1) s.consume
  else if s.LA 1 = some '\r' then
    if s.consume.LA 1 = some '\x0c' then wsLoop (cnt1 + 1) s.consume.consume
    else (none, s.consume.consume)
  else if 1 ≤ cnt1 then (some (), s)
  else (none, s)
termination_by s.left
decreasing_by
  · rename_i blank
    rcases blank with ahead | ahead | ahead <;> exact consume_left ahead
  · rename_i first second
    exact (consume_left second).trans (consume_left first)

/-- The loop of `mNUM` and of `mTEXT`. -/
def consumeWhile (test : Char → Bool) (s : InputStream) : InputStream :=
  if (s.LA 1).any test then consumeWhile test s.consume else s
termination_by s.left
decreasing_by
  rename_i goesOn
  obtain ⟨c, ahead, -⟩ := (Option.any_eq_true _ _).mp goesOn
  exact consume_left ahead

def mWS : InputStream → Option Unit × InputStream := wsLoop 0

def mNUM (s : InputStream) : Option Unit × InputStream := (some (), s.consumeWhile Char.isDigit)

def mTEXT (s : InputStream) : Option Unit × InputStream :=
  (some (), s.consumeWhile Grammar.isTextChar)

def rule : TokenType → InputStream → Option Unit × InputStream
  | .ws => mWS
  | .num => mNUM
  | .text => mTEXT
  | type => matchs (literal type)

def mTokens (s : InputStream) : Option TokenType × InputStream :=
  let (answer, s) := predict cdfa4 s
  match answer with
  | .alt n =>
      match alternatives[n.toNat - 1]? with
      | some type =>
          let (matched, s) := rule type s
          (matched.map fun _ => type, s)
      | none => (none, s)
  | .noViableAlt => (none, s)
  | .running => (none, s)

/-! ## The tokens of a message -/

/-- `emit`, with the stream at the beginning of the token and after it. -/
def emit (type : TokenType) (s after : InputStream) : CommonToken where
  type
  channel := if type = .ws then hiddenChannel else defaultChannel
  start := s.index
  stop := after.index - 1
  line := s.line
  charPosition := s.charPositionInLine
  lineStart := after.currentLine

/-- One pass of the loop of `nextTokenStr`: a token, or an exception after which a character is
    skipped; at the end of the input there is none. -/
def nextTokenPass (s : InputStream) : Option (Option CommonToken × InputStream) :=
  match s.LA 1 with
  | none => none
  | some _ =>
      match mTokens s with
      | (some type, after) => some (some (emit type s after), after)
      | (none, after) => some (none, after.consume)

/-- `fillBuffer`, for at most `fuel` passes. -/
def fillBuffer : Nat → InputStream → Option (List CommonToken)
  | 0, _ => none
  | fuel + 1, s =>
      match s.nextTokenPass with
      | none => some []
      | some (none, s) => fillBuffer fuel s
      | some (some token, s) => (fillBuffer fuel s).map (token :: ·)

/-! ## What the lexer on texts does -/

variable {before ahead : Str} {s : InputStream}

/-- A rule on the stream ends as the one on texts does. -/
inductive Follows {τ : Type} (before ahead : Str) : Match τ → Option τ × InputStream → Prop where
  | matched {shown rest value s} (whole : ahead = shown ++ rest)
      (between : Between (before ++ shown) rest s) :
      Follows before ahead (.matched value rest) (some value, s)
  | failed {shown rest s} (whole : ahead = shown ++ rest)
      (between : Between (before ++ shown) rest s) : Follows before ahead (.failed rest) (none, s)

theorem Follows.behind {τ : Type} {shown rest : Str} {m : Match τ} {out : Option τ × InputStream}
    (follows : Follows (before ++ shown) rest m out) : Follows before (shown ++ rest) m out := by
  cases follows with
  | @matched further after value s whole between =>
      rw [List.append_assoc] at between
      exact .matched (by rw [whole, List.append_assoc]) between
  | @failed further after s whole between =>
      rw [List.append_assoc] at between
      exact .failed (by rw [whole, List.append_assoc]) between

theorem Follows.here {value : Unit} (between : Between before ahead s) :
    Follows before ahead (.matched value ahead) (some value, s) := by
  have nothing : ahead = [] ++ ahead := rfl
  exact .matched nothing (by rwa [List.append_nil])

theorem Follows.stop {τ : Type} (between : Between before ahead s) :
    Follows before ahead (.failed ahead : Match τ) (none, s) := by
  have nothing : ahead = [] ++ ahead := rfl
  exact .failed nothing (by rwa [List.append_nil])

theorem Follows.recover {τ : Type} (between : Between before ahead s) :
    Follows before ahead (.failed ahead.tail : Match τ) (none, s.consume) := by
  cases ahead with
  | nil =>
      rw [between.stay]
      exact .stop between
  | cons c ahead =>
      have one : c :: ahead = [c] ++ ahead := rfl
      exact .failed one between.consume

theorem symbol_between (between : Between before ahead s) :
    s.symbol = CyclicDfa.lookAhead charCode ahead := by
  rw [symbol, between.lookAhead]
  cases ahead <;> rfl

theorem lookAheadFrom_between (d : CyclicDfa) (fuel n : Nat) (between : Between before ahead s) :
    (lookAheadFrom d fuel n s).1 = d.predictFrom charCode fuel n ahead ∧
      ∃ state, (lookAheadFrom d fuel n s).2 = { s with toLexState := state } := by
  induction fuel generalizing n before ahead s with
  | zero => exact ⟨rfl, s.toLexState, rfl⟩
  | succ fuel ih =>
      rw [lookAheadFrom, CyclicDfa.predictFrom, symbol_between between]
      cases d.move n (CyclicDfa.lookAhead charCode ahead) with
      | alt answer => exact ⟨rfl, s.toLexState, rfl⟩
      | noViableAlt => exact ⟨rfl, s.toLexState, rfl⟩
      | goto n' =>
          dsimp only
          cases ahead with
          | nil =>
              rw [between.stay]
              exact ih n' between
          | cons c ahead =>
              obtain ⟨answer, state, gone⟩ := ih n' between.consume
              refine ⟨answer, state, ?_⟩
              rw [gone, consume_eq]

/-- The prediction is that for the text ahead, and the stream is where it was. -/
theorem predict_between (d : CyclicDfa) (between : Between before ahead s) :
    (predict d s).1 = d.predict charCode ahead ∧ Between before ahead (predict d s).2 := by
  obtain ⟨answer, state, gone⟩ := lookAheadFrom_between d (s.left + 2) 0 between.mark
  refine ⟨?_, between.rewind gone⟩
  rw [CyclicDfa.predict, ← between.left]
  exact answer

theorem matchs_between (string : Str) (between : Between before ahead s) :
    Follows before ahead (Lexer.matchs string ahead) (matchs string s) := by
  induction string generalizing before ahead s with
  | nil => exact .here between
  | cons c string ih =>
      rw [matchs, Lexer.matchs, between.lookAhead]
      split
      · next same =>
          obtain ⟨rest, rfl⟩ := List.head?_eq_some_iff.mp same
          exact (ih between.consume).behind
      · exact .recover between

theorem consumeWhile_between (test : Char → Bool) (between : Between before ahead s) :
    ∃ shown, ahead = shown ++ ahead.dropWhile test ∧
      Between (before ++ shown) (ahead.dropWhile test) (s.consumeWhile test) := by
  induction ahead generalizing before s with
  | nil =>
      rw [consumeWhile, between.lookAhead]
      exact ⟨[], rfl, by simpa using between⟩
  | cons c ahead ih =>
      rw [consumeWhile, between.lookAhead, List.dropWhile_cons, List.head?_cons, Option.any_some]
      cases test c with
      | true =>
          obtain ⟨shown, whole, after⟩ := ih between.consume
          refine ⟨c :: shown, congrArg (c :: ·) whole, ?_⟩
          rwa [List.append_assoc] at after
      | false => exact ⟨[], rfl, by simpa using between⟩

theorem wsLoop_stop {some_read : Bool} (other : ∀ c, ahead.head? = some c → c ∉ blanks) :
    Lexer.wsLoop some_read ahead = if some_read then .matched () ahead else .failed ahead := by
  unfold Lexer.wsLoop
  split
  case h_6 => rfl
  all_goals exact absurd (by simp [blanks]) (other _ rfl)

theorem wsLoop_between (cnt1 : Nat) (between : Between before ahead s) :
    Follows before ahead (Lexer.wsLoop (decide (1 ≤ cnt1)) ahead) (wsLoop cnt1 s) := by
  induction size : ahead.length using Nat.strongRecOn generalizing before ahead s cnt1 with
  | ind n ih =>
      have again : ∀ {shown rest : Str} {s' : InputStream}, Blank shown → ahead = shown ++ rest →
          Between (before ++ shown) rest s' →
          Follows before ahead (Lexer.wsLoop (decide (1 ≤ cnt1)) ahead) (wsLoop (cnt1 + 1) s') := by
        rintro shown rest s' blank rfl further
        have shorter : rest.length < n := by
          rw [← size, List.length_append]
          cases blank <;> simp
        rw [wsLoop_append blank]
        have next := ih rest.length shorter (cnt1 + 1) further rfl
        rw [decide_eq_true (Nat.le_add_left 1 cnt1)] at next
        exact next.behind
      rw [wsLoop, between.lookAhead]
      split
      · next blank =>
          rcases blank with first | first | first <;>
            obtain ⟨rest, rfl⟩ := List.head?_eq_some_iff.mp first
          · exact again .space rfl between.consume
          · exact again .tab rfl between.consume
          · exact again .lineFeed rfl between.consume
      · next noBlank =>
          split
          · next isReturn =>
              obtain ⟨rest, rfl⟩ := List.head?_eq_some_iff.mp isReturn
              rw [between.consume.lookAhead]
              split
              · next formFeed =>
                  obtain ⟨rest, rfl⟩ := List.head?_eq_some_iff.mp formFeed
                  have both := between.consume.consume
                  rw [List.append_assoc] at both
                  exact again .formFeed rfl both
              · next stray =>
                  rw [wsLoop_return stray]
                  exact (Follows.recover between.consume).behind
          · next noReturn =>
              rw [wsLoop_stop]
              · by_cases some_read : 1 ≤ cnt1
                · rw [if_pos some_read, if_pos (decide_eq_true some_read)]
                  exact .here between
                · rw [if_neg some_read, if_neg (by simpa using some_read)]
                  exact .stop between
              · intro c first isBlank
                simp only [blanks, List.mem_cons, List.not_mem_nil, or_false] at isBlank
                rcases isBlank with rfl | rfl | rfl | rfl
                · exact noBlank (.inl first)
                · exact noBlank (.inr (.inl first))
                · exact noBlank (.inr (.inr first))
                · exact noReturn first

theorem rule_between (type : TokenType) (between : Between before ahead s) :
    Follows before ahead (Lexer.rule type ahead) (rule type s) := by
  cases type with
  | ws => exact wsLoop_between 0 between
  | num =>
      obtain ⟨shown, whole, after⟩ := consumeWhile_between Char.isDigit between
      exact .matched whole after
  | text =>
      obtain ⟨shown, whole, after⟩ := consumeWhile_between Grammar.isTextChar between
      exact .matched whole after
  | _ => exact matchs_between _ between

theorem mTokens_between (between : Between before ahead s) :
    Follows before ahead (Lexer.mTokens ahead) (mTokens s) := by
  have prediction := predict_between cdfa4 between
  rw [mTokens, Lexer.mTokens, ← prediction.1]
  have back := prediction.2
  generalize predict cdfa4 s = predicted at back
  obtain ⟨answer, s⟩ := predicted
  cases answer with
  | noViableAlt => exact .stop back
  | running => exact .stop back
  | alt n =>
      dsimp only
      cases alternatives[n.toNat - 1]? with
      | none => exact .stop back
      | some type =>
          have follows := rule_between type back
          dsimp only
          generalize Lexer.rule type ahead = m, rule type s = out at follows
          cases follows with
          | matched whole between => exact .matched whole between
          | failed whole between => exact .failed whole between

/-! ## Where the tokens are -/

/-- A token of the lexer on texts, with some text behind it. -/
def placed (before : Str) (t : Token) : CommonToken where
  type := t.type
  channel := t.channel
  start := before.length
  stop := (before ++ t.text).length - 1
  line := (LexState.behind before).line
  charPosition := (LexState.behind before).charPositionInLine
  lineStart := (LexState.behind (before ++ t.text)).currentLine

/-- How the tokens of the lexer on texts lie in what is ahead, with some text behind it. -/
inductive Lies : Str → Str → List Event → List CommonToken → Prop where
  | finish (before ahead : Str) : Lies before ahead [] []
  | error {before shown rest : Str} {events : List Event} {tokens : List CommonToken}
      (next : Lies (before ++ shown) rest events tokens) :
      Lies before (shown ++ rest) (.error :: events) tokens
  | token {before rest : Str} {events : List Event} {tokens : List CommonToken} (t : Token)
      (next : Lies (before ++ t.text) rest events tokens) :
      Lies before (t.text ++ rest) (.token t :: events) (placed before t :: tokens)

/-- A pass of the loop on the stream, beside one on the text ahead of it. -/
inductive PassesWith (before ahead : Str) :
    Option (Event × Str) → Option (Option CommonToken × InputStream) → Prop where
  | finish : PassesWith before ahead none none
  | error {shown rest : Str} {s : InputStream} (whole : ahead = shown ++ rest)
      (between : Between (before ++ shown) rest s) :
      PassesWith before ahead (some (.error, rest)) (some (none, s))
  | token {t : Token} {rest : Str} {s : InputStream} (whole : ahead = t.text ++ rest)
      (between : Between (before ++ t.text) rest s) :
      PassesWith before ahead (some (.token t, rest)) (some (some (placed before t), s))

theorem emit_text {type : TokenType} {shown rest : Str} :
    (Lexer.emit type (shown ++ rest) rest).text = shown := by
  rw [Lexer.emit, List.length_append, Nat.add_sub_cancel_right, List.take_left]

theorem nextTokenPass_between (between : Between before ahead s) :
    PassesWith before ahead (Lexer.lexPass ahead) s.nextTokenPass := by
  rw [nextTokenPass, between.lookAhead]
  cases ahead with
  | nil => exact .finish
  | cons c ahead =>
      have follows := mTokens_between between
      rw [Lexer.lexPass, if_neg (List.cons_ne_nil c ahead), List.head?_cons]
      dsimp only
      generalize Lexer.mTokens (c :: ahead) = m, mTokens s = out at follows
      cases follows with
      | @failed shown rest after whole stands =>
          have skipped : Follows (before ++ shown) rest (.failed rest.tail : Match Unit)
              (none, after.consume) := .recover stands
          dsimp only
          generalize after.consume = further at skipped ⊢
          cases skipped with
          | failed more beyond =>
              rw [List.append_assoc] at beyond
              exact .error (by rw [whole, List.append_assoc, ← more]) beyond
      | @matched shown rest type after whole stands =>
          have text : (Lexer.emit type (c :: ahead) rest).text = shown := by rw [whole, emit_text]
          have same : emit type s after = placed before (Lexer.emit type (c :: ahead) rest) := by
            rw [emit, placed, text, CommonToken.mk.injEq]
            exact ⟨rfl, rfl, between.nextChar, congrArg (fun i : Nat => (i : Int) - 1) stands.nextChar,
              congrArg LexState.line between.place,
              congrArg LexState.charPositionInLine between.place,
              congrArg LexState.currentLine stands.place⟩
          dsimp only
          rw [same]
          refine .token (by rw [text]; exact whole) ?_
          rw [text]
          exact stands

theorem fillBuffer_between (fuel : Nat) (between : Between before ahead s) :
    (Lexer.fillBuffer fuel ahead = none ∧ fillBuffer fuel s = none) ∨
      ∃ events tokens, Lexer.fillBuffer fuel ahead = some events ∧ fillBuffer fuel s = some tokens ∧
        Lies before ahead events tokens := by
  induction fuel generalizing before ahead s with
  | zero => exact .inl ⟨rfl, rfl⟩
  | succ fuel ih =>
      have pass := nextTokenPass_between between
      rw [Lexer.fillBuffer, Scanner.scan, fillBuffer]
      generalize Lexer.lexPass ahead = onText, s.nextTokenPass = onStream at pass
      cases pass with
      | finish => exact .inr ⟨[], [], rfl, rfl, .finish before ahead⟩
      | error whole after =>
          rcases ih after with ⟨endless, endless'⟩ | ⟨events, tokens, filled, filled', lies⟩
          · exact .inl ⟨congrArg (Option.map _) endless, endless'⟩
          · exact .inr ⟨.error :: events, tokens, congrArg (Option.map _) filled, filled',
              whole ▸ .error lies⟩
      | token whole after =>
          rcases ih after with ⟨endless, endless'⟩ | ⟨events, tokens, filled, filled', lies⟩
          · exact .inl ⟨congrArg (Option.map _) endless, congrArg (Option.map _) endless'⟩
          · exact .inr ⟨_, _, congrArg (Option.map _) filled, congrArg (Option.map _) filled',
              whole ▸ .token _ lies⟩

/-! ## What is kept of a token -/

/-- A token with the text that the stream answers with for it. -/
def read (text : Str) (tok : CommonToken) : Token where
  type := tok.type
  channel := tok.channel
  text := (new text).substr tok.start tok.stop

/-- A token is where it says that it is. -/
structure Located (text : Str) (tok : CommonToken) : Prop where
  inside : tok.start ≤ tok.stop + 1 ∧ tok.stop < text.length
  line : tok.line = (text.take tok.start).count newlineChar + 1
  charPosition : tok.charPosition = (Lines.lastLine newlineChar (text.take tok.start)).length -
    if newlineChar ∈ text.take tok.start then 0 else 1
  lineStart : tok.lineStart = Lines.lineStart newlineChar (text.take (tok.stop + 1).toNat)
  column : tok.channel = defaultChannel →
    (tok.start : Int) = tok.lineStart + tok.charPosition + if tok.line = 1 then 1 else 0

theorem read_placed (t : Token) (rest : Str) :
    read (before ++ (t.text ++ rest)) (placed before t) = t := by
  have size : (((before ++ t.text).length : Int) - 1 - before.length + 1).toNat = t.text.length := by
    rw [List.length_append]
    omega
  unfold read placed substr new
  rw [size, List.drop_left, List.take_left]

theorem Lies.read {events : List Event} {tokens : List CommonToken}
    (lies : Lies before ahead events tokens) :
    tokens.map (InputStream.read (before ++ ahead)) = buffered events := by
  induction lies with
  | finish => rfl
  | error _ ih =>
      rw [List.append_assoc] at ih
      exact ih
  | token t _ ih =>
      rw [List.append_assoc] at ih
      rw [List.map_cons, read_placed, ih]
      rfl

theorem Lies.each {events : List Event} {tokens : List CommonToken}
    (lies : Lies before ahead events tokens) {tok : CommonToken} (member : tok ∈ tokens) :
    ∃ front t back, .token t ∈ events ∧ before ++ ahead = front ++ (t.text ++ back) ∧
      tok = placed front t ∧ before.length ≤ front.length := by
  induction lies with
  | finish => cases member
  | error _ ih =>
      obtain ⟨front, t, back, event, whole, same, further⟩ := ih member
      rw [List.append_assoc] at whole
      refine ⟨front, t, back, List.mem_cons_of_mem _ event, whole, same, ?_⟩
      rw [List.length_append] at further
      exact (Nat.le_add_right _ _).trans further
  | @token before rest events tokens first _ ih =>
      rcases List.mem_cons.mp member with rfl | later
      · exact ⟨before, first, rest, List.mem_cons_self, rfl, rfl, Nat.le_refl _⟩
      · obtain ⟨front, t, back, event, whole, same, further⟩ := ih later
        rw [List.append_assoc] at whole
        refine ⟨front, t, back, List.mem_cons_of_mem _ event, whole, same, ?_⟩
        rw [List.length_append] at further
        exact (Nat.le_add_right _ _).trans further

theorem Lies.ordered {events : List Event} {tokens : List CommonToken}
    (lies : Lies before ahead events tokens) :
    tokens.Pairwise fun tok later => tok.stop < later.start := by
  induction lies with
  | finish => exact .nil
  | error _ ih => exact ih
  | @token before rest events tokens t next ih =>
      refine .cons (fun later member => ?_) ih
      obtain ⟨front, u, back, -, -, rfl, further⟩ := next.each member
      show ((before ++ t.text).length : Int) - 1 < front.length
      omega

theorem newline_not_mem_text {t : Token} (token : FromGrammar t) : newlineChar ∉ t.text := by
  cases token with
  | @word type _ => cases type <;> decide
  | text t => exact fun member => absurd (t.inClass _ member) (by decide)
  | num n => exact fun member => absurd (n.inClass _ member) (by decide)

theorem located_placed (t : Token) (back : Str)
    (shown : t.channel = defaultChannel → newlineChar ∉ t.text) :
    Located (before ++ (t.text ++ back)) (placed before t) := by
  have front : (before ++ (t.text ++ back)).take (placed before t).start = before := List.take_left
  have stop : ((placed before t).stop + 1).toNat = (before ++ t.text).length := by
    simp only [placed]
    omega
  have behind : (before ++ (t.text ++ back)).take ((placed before t).stop + 1).toNat =
      before ++ t.text := by
    rw [stop, ← List.append_assoc, List.take_left]
  refine ⟨?_, ?_, ?_, ?_, fun visible => ?_⟩
  · simp only [placed, List.length_append]
    omega
  · rw [front]
    rfl
  · rw [front]
    rfl
  · rw [behind]
    rfl
  · have start : Lines.lineStart newlineChar before +
        (Lines.lastLine newlineChar before).length = before.length := Lines.lineStart_add before
    simp only [placed, LexState.behind, Lines.lineStart_append (shown visible), Lines.ended]
    by_cases inside : newlineChar ∈ before
    · have some_line := List.count_pos_iff.mpr inside
      rw [if_pos inside, if_neg (by omega)]
      omega
    · rw [if_neg inside, List.count_eq_zero.mpr inside, if_pos rfl]
      omega

theorem mem_visible {t : Token} {events : List Event} (member : .token t ∈ events)
    (shown : t.channel = defaultChannel) : t ∈ visible events := by
  induction events with
  | nil => cases member
  | cons e events ih =>
      rw [visible_cons]
      rcases List.mem_cons.mp member with rfl | later
      · rw [visible, if_pos shown]
        exact List.mem_append_left _ List.mem_cons_self
      · exact List.mem_append_right _ (ih later)

/-- The lexer on its stream has the tokens of the lexer on texts, in as many passes, and each
    is where it says that it is, in order and apart. -/
theorem stream_lex (text : Str) (fuel : Nat) :
    (fillBuffer fuel (new text)).map (List.map (read text)) =
        (Lexer.fillBuffer fuel text).map buffered ∧
      ∀ tokens, fillBuffer fuel (new text) = some tokens →
        (∀ tok ∈ tokens, Located text tok) ∧
        tokens.Pairwise fun tok later => tok.stop < later.start := by
  rcases fillBuffer_between fuel (between_new text) with
    ⟨endless, endless'⟩ | ⟨events, tokens, filled, filled', lies⟩
  · rw [endless, endless']
    exact ⟨rfl, by simp⟩
  · rw [filled, filled', Option.map_some, Option.map_some]
    refine ⟨congrArg some lies.read, fun tokens' same => ?_⟩
    cases same
    refine ⟨fun tok member => ?_, lies.ordered⟩
    obtain ⟨front, t, back, event, whole, rfl, -⟩ := lies.each member
    rw [List.nil_append] at whole
    rw [whole]
    refine located_placed t back fun visible => newline_not_mem_text ?_
    have shows : Shows text (Lexer.visible events) := ⟨events, Scanner.scans_of_scan filled, rfl⟩
    exact fromGrammar_of_shows shows t (mem_visible event visible)

end InputStream

/-- From the characters of a message to the tree: the lexer on its stream, and the parser on its
    own. -/
theorem front_end (p : Platform) (lexFuel walkFuel : Nat) (msg : Str) (tree : Tree) :
    (p.generated lexFuel walkFuel).antlr msg = some tree ↔
      ∃ tokens r, (InputStream.new msg).fillBuffer lexFuel = some tokens ∧
        Parses (tokens.map (InputStream.read msg)) tree r := by
  rcases InputStream.fillBuffer_between lexFuel (InputStream.between_new msg) with
    ⟨endless, endless'⟩ | ⟨events, tokens, filled, filled', lies⟩
  · have noTree : (p.generated lexFuel walkFuel).antlr msg = none := congrArg (Option.map _) endless
    rw [noTree, endless']
    simp
  · have texts : tokens.map (InputStream.read msg) = buffered events := lies.read
    rw [generated_parses p filled tree, filled', ← texts]
    simp

end RepositoryManager
