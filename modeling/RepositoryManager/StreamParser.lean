import RepositoryManager.ParserCode
import RepositoryManager.SyntaxErrors
import RepositoryManager.TokenStream

/-! # The parser on the token stream

`antlr3baserecognizer.c` and the generated rules over the stream itself: look-ahead by index,
hidden tokens between the others, prediction that consumes and rewinds, and loops without a
bound. For all tokens the parser comes to an end, with the tree and the errors that
`RecoveringParser` computes from the visible tokens.
-/

namespace RepositoryManager

open ByteString Lexer BaseRecognizer Sieve

/-- A recognizer on its stream. The index of the last error is -1 before there is one. -/
structure Recognizer where
  stream : TokenStream
  errorRecovery : Bool
  errorCount : Nat
  lastErrorIndex : Int

namespace Recognizer

def new (tokens : List Token) : Recognizer :=
  { stream := .fillBuffer tokens, errorRecovery := false, errorCount := 0, lastErrorIndex := -1 }

/-- `_LA`, which is `none` for `ANTLR3_TOKEN_EOF`. -/
def LA (r : Recognizer) (k : Int) : Option TokenType :=
  match r.stream.tokLT k with
  | .token t => some t.type
  | _ => none

/-- `getCurrentInputSymbol`, by the text that it adds to the tree. -/
def getCurrentInputSymbol (r : Recognizer) : List Str :=
  match r.stream.tokLT 1 with
  | .token t => [t.text]
  | _ => []

def consume (r : Recognizer) : Recognizer := { r with stream := r.stream.consume }

def reportError (r : Recognizer) : Recognizer :=
  if r.errorRecovery then r else { r with errorRecovery := true, errorCount := r.errorCount + 1 }

def mismatchIsUnwantedToken (type : TokenType) (r : Recognizer) : Bool := r.LA 2 = some type

def mismatchIsMissingToken (follow : FollowSet) (following : List FollowSet) (r : Recognizer) :
    Bool :=
  let viable := if follow.endOfRule then
      { combineFollows following with types := follow.types ++ (combineFollows following).types }
    else follow
  (r.LA 1).any (viable.types.contains ·) || viable.endOfRule

def recoverFromMismatchedToken (type : TokenType) (follow : FollowSet)
    (following : List FollowSet) (r : Recognizer) : Option (List Str) × Recognizer :=
  if r.mismatchIsUnwantedToken type then
    let r := r.consume.reportError
    (some r.getCurrentInputSymbol, r.consume)
  else if mismatchIsMissingToken follow following r then
    (some [missingText type], r.reportError)
  else (none, r)

/-- `match` -/
def matchToken (type : TokenType) (follow : FollowSet) (following : List FollowSet)
    (r : Recognizer) : Option (List Str) × Recognizer :=
  if r.LA 1 = some type then
    (some r.getCurrentInputSymbol, { r.consume with errorRecovery := false })
  else recoverFromMismatchedToken type follow following r

end Recognizer

theorem consume_later {s : TokenStream} {t : Token} (look : s.tokLT 1 = .token t) :
    s.consume.tokens.length - s.consume.p < s.tokens.length - s.p := by
  have inside : s.p < s.tokens.length := by
    by_contra outside
    have ended : s.tokLT 1 = .eof := by
      rw [TokenStream.tokLT, if_neg (by decide), if_pos (by omega)]
    rw [ended] at look
    cases look
  have later : s.p + 1 ≤ skip (onChannel s.channel) s.tokens (s.p + 1) := le_skip (s.p + 1)
  simp only [TokenStream.consume, if_pos inside, TokenStream.skipOffTokenChannels]
  omega

/-- Consumes tokens up to one of the set. -/
def consumeUntilSet (set : List TokenType) (s : TokenStream) : TokenStream :=
  match _look : s.tokLT 1 with
  | .token t => if set.contains t.type then s else consumeUntilSet set s.consume
  | _ => s
termination_by s.tokens.length - s.p
decreasing_by exact consume_later ‹_›

namespace Recognizer

def recover (following : List FollowSet) (r : Recognizer) : Recognizer :=
  let r := if r.lastErrorIndex = r.stream.tindex then r.consume else r
  { r with
    lastErrorIndex := r.stream.tindex
    stream := consumeUntilSet (combineFollows following).types r.stream }

/-- The end of a rule. -/
def leave (following : List FollowSet) : Option (List Str) × Recognizer → Recognizer
  | (some _, r) => r
  | (none, r) => r.reportError.recover following

/-- The next token is one of those that a loop goes on with. -/
def isAt (r : Recognizer) (types : List TokenType) : Bool := (r.LA 1).any (types.contains ·)

end Recognizer

/-- `_LA` as a number, for the tables of a decision. -/
def TokenStream.symbol (s : TokenStream) : Int :=
  match s.tokLT 1 with
  | .token t => Parser.typeCode t.type
  | _ => -1

/-- The loop of `antlr3dfapredict` from a state: its answer, and where it has got in the
    stream. -/
inductive LooksAhead (d : CyclicDfa) :
    Nat → TokenStream → CyclicDfa.Prediction → TokenStream → Prop where
  | alt {s : Nat} {stream : TokenStream} {n : Int} (last : d.move s stream.symbol = .alt n) :
      LooksAhead d s stream (.alt n) stream
  | noViableAlt {s : Nat} {stream : TokenStream}
      (last : d.move s stream.symbol = .noViableAlt) : LooksAhead d s stream .noViableAlt stream
  | goto {s s' : Nat} {stream after : TokenStream} {answer : CyclicDfa.Prediction}
      (first : d.move s stream.symbol = .goto s') (next : LooksAhead d s' stream.consume answer after) :
      LooksAhead d s stream answer after

/-- `antlr3dfapredict`, which marks the stream, looks ahead and rewinds. -/
def Predicted (d : CyclicDfa) (r : Recognizer) (answer : CyclicDfa.Prediction) (r' : Recognizer) :
    Prop :=
  ∃ after, LooksAhead d 0 r.stream answer after ∧
    r' = { r with stream := after.seek r.stream.tindex }

/-- Runs of the generated code: what it adds to the tree, or the exception it leaves, and the
    recognizer after it. -/
inductive Runs : Code → List FollowSet → Recognizer → Option (List Str) × Recognizer → Prop where
  | done {following r} : Runs .done following r (some [], r)
  | matchToken {type follow following r} :
      Runs (.matchToken type follow) following r (r.matchToken type follow following)
  | call {follow body following r out} (inside : Runs body (follow :: following) r out) :
      Runs (.call follow body) following r
        (some (out.1.getD [errorNodeText]), Recognizer.leave (follow :: following) out)
  | rewritten {texts body following r out} (inside : Runs body following r out) :
      Runs (.rewritten texts body) following r (out.1.map fun _ => texts, out.2)
  | seq {a b following r texts r' out} (first : Runs a following r (some texts, r'))
      (rest : Runs b following r' out) : Runs (.seq a b) following r (out.1.map (texts ++ ·), out.2)
  | raised {a b following r r'} (first : Runs a following r (none, r')) :
      Runs (.seq a b) following r (none, r')
  | loopEnd {types body following r} (stop : r.isAt types = false) :
      Runs (.star types body) following r (some [], r)
  | loopOn {types body following r out} (goesOn : r.isAt types = true)
      (pass : Runs (.seq body (.star types body)) following r out) :
      Runs (.star types body) following r out
  | plus {types body following r out} (goesOn : r.isAt types = true)
      (loop : Runs (.star types body) following r out) : Runs (.plus types body) following r out
  | earlyExit {types body following r} (stop : r.isAt types = false) :
      Runs (.plus types body) following r (none, r)
  | switchFirst {type body type' body' following r out} (next : r.LA 1 = some type)
      (inside : Runs body following r out) : Runs (.switch type body type' body') following r out
  | switchSecond {type body type' body' following r out} (other : r.LA 1 ≠ some type)
      (next : r.LA 1 = some type') (inside : Runs body' following r out) :
      Runs (.switch type body type' body') following r out
  | switchNone {type body type' body' following r} (other : r.LA 1 ≠ some type)
      (other' : r.LA 1 ≠ some type') : Runs (.switch type body type' body') following r (none, r)
  | predictFirst {d body body' following r r' out} (answer : Predicted d r (.alt 1) r')
      (inside : Runs body following r' out) : Runs (.predict d body body') following r out
  | predictSecond {d body body' following r r' out} (answer : Predicted d r (.alt 2) r')
      (inside : Runs body' following r' out) : Runs (.predict d body body') following r out
  | predictNone {d body body' following r r' prediction} (answer : Predicted d r prediction r')
      (other : prediction ≠ .alt 1) (other' : prediction ≠ .alt 2) :
      Runs (.predict d body body') following r (none, r')

/-! ## What a recognizer stands for -/

/-- The visible tokens from a position on. -/
abbrev aheadOf (tokens : List Token) (p : Nat) : List Token :=
  Sieve.ahead (onChannel defaultChannel) tokens p

/-- A position that is not behind the tokens and at which none is hidden. -/
structure Settles (tokens : List Token) (p : Nat) : Prop where
  rests : Rests (onChannel defaultChannel) tokens p
  inside : p ≤ tokens.length

/-- The stream over these tokens, at a position that settles. -/
structure Over (tokens : List Token) (s : TokenStream) : Prop where
  buffer : s.tokens = tokens
  channel : s.channel = defaultChannel
  settles : Settles tokens s.p

/-- The recognizer on the stream is where `s` says that it is. -/
structure Stands (tokens : List Token) (r : Recognizer) (s : State) : Prop where
  placed : Over tokens r.stream
  ahead : s.ahead = aheadOf tokens r.stream.p
  errorRecovery : s.errorRecovery = r.errorRecovery
  errorCount : s.errorCount = r.errorCount
  lastErrorIndex : r.lastErrorIndex = -1 ∧ s.lastErrorIndex = none ∨
    ∃ m : Nat, Settles tokens m ∧ r.lastErrorIndex = m ∧
      s.lastErrorIndex = some (aheadOf tokens m).length

variable {tokens : List Token} {r : Recognizer} {s : State} {stream : TokenStream}

theorem Over.look (placed : Over tokens stream) (n : Nat) :
    stream.tokLT (n + 1) = match (aheadOf tokens stream.p)[n]? with
      | some t => .token t
      | none => .eof := by
  obtain ⟨_, _, p⟩ := stream
  obtain ⟨rfl, rfl, rests, inside⟩ := placed
  have here : At _ defaultChannel p _ := ⟨rests, inside, rfl⟩
  have index : ((n : Int) + 1).toNat - 1 = n := by omega
  cases found : (aheadOf _ p)[n]? with
  | none =>
      rw [here.lt, TokenArray.lt, if_neg (by omega), ← List.getElem?_drop, ← here.ahead, index,
        found]
  | some t =>
      rw [here.lt, TokenArray.lt, if_neg (by omega), ← List.getElem?_drop, ← here.ahead, index,
        found]

theorem Over.consume (placed : Over tokens stream) :
    Over tokens stream.consume ∧ aheadOf tokens stream.consume.p = (aheadOf tokens stream.p).tail := by
  obtain ⟨_, _, p⟩ := stream
  obtain ⟨rfl, rfl, rests, inside⟩ := placed
  unfold TokenStream.consume
  split
  · next more => exact ⟨⟨rfl, rfl, rests_skip _, skip_le more⟩, rests.ahead_next⟩
  · next last =>
      have none : aheadOf _ p = [] := ahead_past (Nat.le_of_not_lt last)
      exact ⟨⟨rfl, rfl, rests, inside⟩, by simp only [none, List.tail_nil]⟩

theorem Stands.look (stands : Stands tokens r s) (n : Nat) :
    r.LA (n + 1) = (s.ahead[n]?).map Token.type := by
  rw [Recognizer.LA, stands.placed.look, stands.ahead]
  cases (aheadOf tokens r.stream.p)[n]? <;> rfl

theorem Stands.LA_one (stands : Stands tokens r s) : r.LA 1 = s.next := by
  rw [State.next, List.head?_eq_getElem?]
  exact stands.look 0

theorem Stands.at (stands : Stands tokens r s) (types : List TokenType) :
    r.isAt types = s.at types := by
  rw [Recognizer.isAt, State.at, stands.LA_one]

theorem Stands.current (stands : Stands tokens r s) :
    r.getCurrentInputSymbol = s.ahead.head?.toList.map Token.text := by
  have look := stands.placed.look 0
  rw [← stands.ahead, ← List.head?_eq_getElem?] at look
  rw [Recognizer.getCurrentInputSymbol]
  rw [show r.stream.tokLT 1 = _ from look]
  cases s.ahead.head? <;> rfl

theorem Stands.consume (stands : Stands tokens r s) :
    Stands tokens r.consume { s with ahead := s.ahead.tail } := by
  obtain ⟨placed, same⟩ := stands.placed.consume
  exact ⟨placed, by rw [stands.ahead]; exact same.symm, stands.errorRecovery, stands.errorCount,
    stands.lastErrorIndex⟩

theorem Stands.reportError (stands : Stands tokens r s) :
    Stands tokens r.reportError (reportError s) := by
  unfold Recognizer.reportError BaseRecognizer.reportError
  rw [stands.errorRecovery]
  split
  · exact stands
  · exact ⟨stands.placed, stands.ahead, rfl, congrArg (· + 1) stands.errorCount,
      stands.lastErrorIndex⟩

theorem Over.first (placed : Over tokens stream) : stream.tokLT 1 =
    match (aheadOf tokens stream.p).head? with
    | some t => .token t
    | none => .eof := by
  rw [List.head?_eq_getElem?]
  exact placed.look 0

theorem consumeUntilSet_over (set : List TokenType) (placed : Over tokens stream) :
    Over tokens (consumeUntilSet set stream) ∧ aheadOf tokens (consumeUntilSet set stream).p =
      (aheadOf tokens stream.p).dropWhile fun t => !set.contains t.type := by
  fun_induction consumeUntilSet set stream with
  | case1 stream t look member =>
      refine ⟨placed, ?_⟩
      rw [placed.first] at look
      cases whole : aheadOf tokens stream.p with
      | nil => simp [whole] at look
      | cons u us =>
          simp only [whole, List.head?_cons, Look.token.injEq] at look
          subst look
          rw [List.dropWhile_cons_of_neg (by simpa using member)]
  | case2 stream t look other ih =>
      obtain ⟨next, tail⟩ := placed.consume
      obtain ⟨after, left⟩ := ih next
      refine ⟨after, left.trans ?_⟩
      rw [placed.first] at look
      cases whole : aheadOf tokens stream.p with
      | nil => simp [whole] at look
      | cons u us =>
          simp only [whole, List.head?_cons, Look.token.injEq] at look
          subst look
          rw [tail, whole, List.tail_cons, List.dropWhile_cons_of_pos (by simpa using other)]
  | case3 stream ended =>
      refine ⟨placed, ?_⟩
      rw [placed.first] at ended
      cases whole : aheadOf tokens stream.p with
      | nil => rfl
      | cons u us => exact absurd (by rw [whole]; rfl) (ended u)

theorem Stands.recover (stands : Stands tokens r s) (following : List FollowSet) :
    Stands tokens (r.recover following) (BaseRecognizer.recover following s) := by
  have again : r.lastErrorIndex = r.stream.tindex ↔ s.lastErrorIndex = some s.ahead.length := by
    rw [stands.ahead]
    rcases stands.lastErrorIndex with ⟨none, none'⟩ | ⟨m, settles, last, last'⟩
    · rw [none, none']
      simp [TokenStream.tindex]
    · rw [last, last', Option.some_inj, TokenStream.tindex, Int.ofNat_inj]
      constructor
      · rintro rfl
        rfl
      · exact fun same => rests_inj settles.rests stands.placed.settles.rests settles.inside
          stands.placed.settles.inside same
  -- where the error is noted, and where the tokens of the follow set are looked for
  obtain ⟨r', s', noted, sameStream, sameState⟩ : ∃ r' s', Stands tokens r' s' ∧
      (if r.lastErrorIndex = r.stream.tindex then r.consume else r) = r' ∧
      { s with ahead := if s.lastErrorIndex = some s.ahead.length then s.ahead.tail else s.ahead } =
        s' := by
    by_cases same : r.lastErrorIndex = r.stream.tindex
    · exact ⟨_, _, stands.consume, if_pos same, by rw [if_pos (again.mp same)]⟩
    · exact ⟨_, _, stands, if_neg same, by rw [if_neg (mt again.mpr same)]⟩
  obtain ⟨placed, left⟩ := consumeUntilSet_over (combineFollows following).types noted.placed
  have stepped : r.recover following = { r' with
      lastErrorIndex := r'.stream.tindex
      stream := consumeUntilSet (combineFollows following).types r'.stream } := by
    rw [Recognizer.recover, sameStream]
  have stepped' : BaseRecognizer.recover following s = { s' with
      lastErrorIndex := some s'.ahead.length
      ahead := s'.ahead.dropWhile fun t => !(combineFollows following).types.contains t.type } := by
    rw [← sameState]
    rfl
  rw [stepped, stepped']
  refine ⟨placed, ?_, noted.errorRecovery, noted.errorCount, .inr ⟨r'.stream.p,
    noted.placed.settles, rfl, ?_⟩⟩
  · rw [noted.ahead]
    exact left.symm
  · rw [noted.ahead]

/-- The two runs have come to the same, with the same texts or the same exception. -/
def Agree (tokens : List Token) (out : Option (List Str) × Recognizer)
    (out' : Option (List Str) × State) : Prop :=
  out.1 = out'.1 ∧ Stands tokens out.2 out'.2

theorem Stands.missing (stands : Stands tokens r s) (follow : FollowSet)
    (following : List FollowSet) : Recognizer.mismatchIsMissingToken follow following r =
      BaseRecognizer.mismatchIsMissingToken follow following s := by
  rw [Recognizer.mismatchIsMissingToken, BaseRecognizer.mismatchIsMissingToken, stands.LA_one]

theorem Stands.matchToken (stands : Stands tokens r s) (type : TokenType) (follow : FollowSet)
    (following : List FollowSet) :
    Agree tokens (r.matchToken type follow following)
      (BaseRecognizer.matchToken type follow following s) := by
  have inserts : Agree tokens
      (if Recognizer.mismatchIsMissingToken follow following r then
        (some [missingText type], r.reportError) else (none, r))
      (insertMissing type follow following s) := by
    rw [insertMissing, stands.missing]
    split
    · exact ⟨rfl, stands.reportError⟩
    · exact ⟨rfl, stands⟩
  have second : r.LA 2 = (s.ahead[1]?).map Token.type := stands.look 1
  have mismatch : Agree tokens (r.recoverFromMismatchedToken type follow following)
      (BaseRecognizer.recoverFromMismatchedToken type follow following s) := by
    unfold Recognizer.recoverFromMismatchedToken Recognizer.mismatchIsUnwantedToken
    rw [second]
    split
    · next unwanted =>
        obtain ⟨u, t, ts, whole, same⟩ : ∃ u t ts, s.ahead = u :: t :: ts ∧ t.type = type := by
          cases whole : s.ahead with
          | nil => simp [whole] at unwanted
          | cons u us =>
              cases us with
              | nil => simp [whole] at unwanted
              | cons t ts => exact ⟨u, t, ts, rfl, by simpa [whole] using unwanted⟩
        have taken := stands.consume.reportError
        have text := taken.current
        have after := taken.consume
        have reported : BaseRecognizer.reportError { s with ahead := s.ahead.tail } =
            { BaseRecognizer.reportError s with ahead := t :: ts } := by
          unfold BaseRecognizer.reportError
          rw [whole]
          split <;> rfl
        rw [reported] at text after
        simp only [BaseRecognizer.recoverFromMismatchedToken, whole, if_pos same]
        exact ⟨congrArg some text, after⟩
    · next wanted =>
        have same : BaseRecognizer.recoverFromMismatchedToken type follow following s =
            insertMissing type follow following s := by
          unfold BaseRecognizer.recoverFromMismatchedToken
          split
          · next u t ts whole => rw [if_neg (by simpa [whole] using wanted)]
          · rfl
        exact same ▸ inserts
  unfold Recognizer.matchToken BaseRecognizer.matchToken
  rw [stands.LA_one, State.next]
  split
  · next here =>
      obtain ⟨t, ts, whole, same⟩ : ∃ t ts, s.ahead = t :: ts ∧ t.type = type := by
        cases whole : s.ahead with
        | nil => simp [whole] at here
        | cons t ts => exact ⟨t, ts, rfl, by simpa [whole] using here⟩
      have text := stands.current
      have taken := stands.consume
      simp only [whole, if_pos same]
      rw [whole] at text taken
      exact ⟨congrArg some text, taken.placed, taken.ahead, rfl, taken.errorCount,
        taken.lastErrorIndex⟩
  · next other =>
      split
      · next t ts whole =>
          rw [if_neg (by simpa [whole] using other)]
          exact mismatch
      · exact mismatch

theorem Agree.leave {out : Option (List Str) × Recognizer} {out' : Option (List Str) × State}
    (agree : Agree tokens out out') (following : List FollowSet) :
    Stands tokens (Recognizer.leave following out) (BaseRecognizer.leave following out') := by
  obtain ⟨texts, r⟩ := out
  obtain ⟨texts', s⟩ := out'
  obtain ⟨same, stands⟩ := agree
  cases same
  cases texts with
  | none => exact stands.reportError.recover following
  | some texts => exact stands

/-! ## Looking ahead -/

theorem Over.symbol (placed : Over tokens stream) : stream.symbol =
    CyclicDfa.lookAhead Parser.typeCode (Parser.typesOf (aheadOf tokens stream.p)) := by
  rw [TokenStream.symbol, placed.first]
  cases aheadOf tokens stream.p <;> rfl

theorem Over.looksAhead {d : CyclicDfa} (placed : Over tokens stream) (fuel s : Nat)
    (ends : d.predictFrom Parser.typeCode fuel s (Parser.typesOf (aheadOf tokens stream.p)) ≠
      .running) :
    ∃ after, Over tokens after ∧ LooksAhead d s stream
      (d.predictFrom Parser.typeCode fuel s (Parser.typesOf (aheadOf tokens stream.p))) after := by
  induction fuel generalizing s stream with
  | zero => exact absurd rfl ends
  | succ fuel ih =>
      rw [CyclicDfa.predictFrom] at ends ⊢
      cases here : d.move s (CyclicDfa.lookAhead Parser.typeCode
        (Parser.typesOf (aheadOf tokens stream.p))) with
      | alt n => exact ⟨stream, placed, .alt (by rw [placed.symbol, here])⟩
      | noViableAlt => exact ⟨stream, placed, .noViableAlt (by rw [placed.symbol, here])⟩
      | goto s' =>
          obtain ⟨next, tail⟩ := placed.consume
          have types : (Parser.typesOf (aheadOf tokens stream.p)).tail =
              Parser.typesOf (aheadOf tokens stream.consume.p) := by
            rw [tail, Parser.typesOf, Parser.typesOf, List.map_tail]
          simp only [here, types] at ends ⊢
          obtain ⟨after, placed', rest⟩ := ih next s' ends
          exact ⟨after, placed', .goto (by rw [placed.symbol, here]) rest⟩

theorem Stands.predicted {d : CyclicDfa} (settled : d.Settled) (stands : Stands tokens r s) :
    Predicted d r (d.predict Parser.typeCode (Parser.typesOf s.ahead)) r := by
  rw [stands.ahead]
  obtain ⟨after, placed, looks⟩ := stands.placed.looksAhead (d := d) _ 0
    (CyclicDfa.predictFrom_ne_running settled 0 _)
  refine ⟨after, looks, ?_⟩
  have same : after.seek r.stream.tindex = r.stream := by
    obtain ⟨_, _, p⟩ := after
    obtain ⟨⟨_, _, p'⟩, _, _, _⟩ := r
    obtain ⟨rfl, rfl, -⟩ := placed
    obtain ⟨⟨rfl, rfl, -⟩, -⟩ := stands
    rfl
  rw [same]

/-! ## The two runs agree -/

/-- The decision tables of the code. -/
def Code.decisions : Code → List CyclicDfa
  | .done => []
  | .matchToken _ _ => []
  | .call _ body => decisions body
  | .rewritten _ body => decisions body
  | .seq first rest => decisions first ++ decisions rest
  | .star _ body => decisions body
  | .plus _ body => decisions body
  | .switch _ body _ body' => decisions body ++ decisions body'
  | .predict d body body' => d :: (decisions body ++ decisions body')

/-- The code comes to an end on the stream, where the element does on the tokens ahead. -/
def Simulates (tokens : List Token) (c : Code) (e : Element) (following : List FollowSet)
    (r : Recognizer) (s : State) : Prop :=
  ∃ out, Runs c following r out ∧ Agree tokens out (e following s)

section

variable {following : List FollowSet} {c c' : Code} {e e' : Element} {types : List TokenType}

theorem seq_simulates (first : Simulates tokens c e following r s)
    (rest : ∀ texts r' s', e following s = (some texts, s') → Stands tokens r' s' →
      Simulates tokens c' e' following r' s') :
    Simulates tokens (.seq c c') (andThen e e') following r s := by
  obtain ⟨⟨texts, r'⟩, run, same, stands⟩ := first
  unfold Simulates andThen
  split
  · next texts' s' here =>
      rw [here] at same stands
      cases same
      obtain ⟨out, run', same', stands'⟩ := rest texts' r' s' here stands
      exact ⟨_, .seq run run', congrArg (Option.map (texts' ++ ·)) same', stands'⟩
  · next s' here =>
      rw [here] at same stands
      cases same
      exact ⟨_, .raised run, rfl, stands⟩

theorem star_simulates
    (body : ∀ r s, Stands tokens r s → Simulates tokens c e following r s)
    (advances : Advances types e) (fuel : Nat) (enough : s.passes < fuel)
    (stands : Stands tokens r s) :
    Simulates tokens (.star types c) (loop types e fuel) following r s := by
  induction fuel generalizing r s with
  | zero => omega
  | succ fuel ih =>
      unfold Simulates
      rw [loop_succ]
      split
      · next goesOn =>
          obtain ⟨out, run, agree⟩ : Simulates tokens (.seq c (.star types c))
              (andThen e (loop types e fuel)) following r s := by
            refine seq_simulates (body r s stands) fun texts r' s' here stands' => ?_
            have fewer := advances following s goesOn
            rw [here] at fewer
            have fewer : s'.passes < s.passes := fewer.resolve_right (by simp)
            exact ih (by omega) stands'
          exact ⟨out, .loopOn (by rw [stands.at, goesOn]) run, agree⟩
      · next stop => exact ⟨_, .loopEnd (by rw [stands.at]; simpa using stop), rfl, stands⟩

end

theorem Code.simulates (c : Code) (ok : c.wellFormed = true)
    (settled : ∀ d ∈ Code.decisions c, d.Settled) (following : List FollowSet)
    (stands : Stands tokens r s) : Simulates tokens c c.element following r s := by
  induction c generalizing following r s with
  | done => exact ⟨_, .done, rfl, stands⟩
  | matchToken type follow => exact ⟨_, .matchToken, stands.matchToken type follow following⟩
  | call follow body ih =>
      obtain ⟨out, run, agree⟩ := ih ok settled (follow :: following) stands
      exact ⟨_, .call run, congrArg (fun texts => some (texts.getD [errorNodeText])) agree.1,
        agree.leave _⟩
  | rewritten texts body ih =>
      obtain ⟨out, run, same, stands'⟩ := ih ok settled following stands
      exact ⟨_, .rewritten run, congrArg (Option.map fun _ => texts) same, stands'⟩
  | seq first rest ih ih' =>
      obtain ⟨ok, ok'⟩ := Bool.and_eq_true_iff.mp ok
      obtain ⟨settled, settled'⟩ := List.forall_mem_append.mp settled
      exact seq_simulates (ih ok settled following stands) fun _ _ _ _ stands' =>
        ih' ok' settled' following stands'
  | star types body ih =>
      obtain ⟨starts, ok⟩ := Bool.and_eq_true_iff.mp ok
      exact star_simulates (fun r s stands => ih ok settled following stands)
        (body.advances types starts) _ (Nat.lt_succ_self _) stands
  | plus types body ih =>
      obtain ⟨starts, ok⟩ := Bool.and_eq_true_iff.mp ok
      unfold Simulates
      simp only [Code.element, oneOrMore]
      split
      · next goesOn =>
          obtain ⟨out, run, agree⟩ := star_simulates
            (fun r s stands => ih ok settled following stands) (body.advances types starts) _
            (Nat.lt_succ_self _) stands
          exact ⟨out, .plus (by rw [stands.at, goesOn]) run, agree⟩
      · next stop => exact ⟨_, .earlyExit (by rw [stands.at]; simpa using stop), rfl, stands⟩
  | switch type body type' body' ih ih' =>
      obtain ⟨ok, ok'⟩ := Bool.and_eq_true_iff.mp ok
      obtain ⟨settled, settled'⟩ := List.forall_mem_append.mp settled
      unfold Simulates
      simp only [Code.element, ← stands.LA_one]
      split
      · next next =>
          obtain ⟨out, run, agree⟩ := ih ok settled following stands
          exact ⟨out, .switchFirst next run, agree⟩
      · next other =>
          split
          · next next =>
              obtain ⟨out, run, agree⟩ := ih' ok' settled' following stands
              exact ⟨out, .switchSecond other next run, agree⟩
          · next other' => exact ⟨_, .switchNone other other', rfl, stands⟩
  | predict d body body' ih ih' =>
      obtain ⟨ok, ok'⟩ := Bool.and_eq_true_iff.mp ok
      obtain ⟨settled, settled'⟩ := List.forall_mem_cons.mp settled
      obtain ⟨settled', settled''⟩ := List.forall_mem_append.mp settled'
      have answer := stands.predicted settled
      unfold Simulates
      simp only [Code.element]
      split
      · next first =>
          rw [first] at answer
          obtain ⟨out, run, agree⟩ := ih ok settled' following stands
          exact ⟨out, .predictFirst answer run, agree⟩
      · next second =>
          rw [second] at answer
          obtain ⟨out, run, agree⟩ := ih' ok' settled'' following stands
          exact ⟨out, .predictSecond answer run, agree⟩
      · next other other' => exact ⟨_, .predictNone answer other other', rfl, stands⟩

/-! ## There is one run -/

theorem LooksAhead.unique {d : CyclicDfa} {n : Nat} {answer answer' : CyclicDfa.Prediction}
    {after after' : TokenStream} (looks : LooksAhead d n stream answer after)
    (looks' : LooksAhead d n stream answer' after') : answer = answer' ∧ after = after' := by
  induction looks with
  | alt last =>
      cases looks' with
      | alt last' => exact ⟨by simpa [last] using last', rfl⟩
      | noViableAlt last' => simp [last] at last'
      | goto first _ => simp [last] at first
  | noViableAlt last =>
      cases looks' with
      | alt last' => simp [last] at last'
      | noViableAlt _ => exact ⟨rfl, rfl⟩
      | goto first _ => simp [last] at first
  | goto first _ ih =>
      cases looks' with
      | alt last => simp [last] at first
      | noViableAlt last => simp [last] at first
      | goto first' next =>
          rw [first] at first'
          cases first'
          exact ih next

theorem Predicted.unique {d : CyclicDfa} {answer answer' : CyclicDfa.Prediction}
    {r' r'' : Recognizer} (predicted : Predicted d r answer r')
    (predicted' : Predicted d r answer' r'') : answer = answer' ∧ r' = r'' := by
  obtain ⟨after, looks, rfl⟩ := predicted
  obtain ⟨after', looks', rfl⟩ := predicted'
  obtain ⟨same, rfl⟩ := looks.unique looks'
  exact ⟨same, rfl⟩

theorem Runs.unique {c : Code} {following : List FollowSet}
    {out out' : Option (List Str) × Recognizer} (run : Runs c following r out)
    (run' : Runs c following r out') : out = out' := by
  induction run generalizing out' with
  | done =>
      cases run'
      rfl
  | matchToken =>
      cases run'
      rfl
  | call _ ih =>
      cases run' with
      | call inside => rw [ih inside]
  | rewritten _ ih =>
      cases run' with
      | rewritten inside => rw [ih inside]
  | seq _ _ ih ih' =>
      cases run' with
      | seq first rest =>
          cases ih first
          rw [ih' rest]
      | raised first => cases ih first
  | raised _ ih =>
      cases run' with
      | seq first _ => cases ih first
      | raised first => exact ih first
  | loopEnd stop =>
      cases run' with
      | loopEnd _ => rfl
      | loopOn goesOn _ => simp [stop] at goesOn
  | loopOn goesOn _ ih =>
      cases run' with
      | loopEnd stop => simp [stop] at goesOn
      | loopOn _ pass => exact ih pass
  | plus goesOn _ ih =>
      cases run' with
      | plus _ loop => exact ih loop
      | earlyExit stop => simp [stop] at goesOn
  | earlyExit stop =>
      cases run' with
      | plus goesOn _ => simp [stop] at goesOn
      | earlyExit _ => rfl
  | switchFirst next _ ih =>
      cases run' with
      | switchFirst _ inside => exact ih inside
      | switchSecond other _ _ => exact absurd next other
      | switchNone other _ => exact absurd next other
  | switchSecond other next _ ih =>
      cases run' with
      | switchFirst next' _ => exact absurd next' other
      | switchSecond _ _ inside => exact ih inside
      | switchNone _ other' => exact absurd next other'
  | switchNone other other' =>
      cases run' with
      | switchFirst next _ => exact absurd next other
      | switchSecond _ next _ => exact absurd next other'
      | switchNone _ _ => rfl
  | predictFirst answer _ ih =>
      cases run' with
      | predictFirst answer' inside =>
          obtain ⟨-, rfl⟩ := answer.unique answer'
          exact ih inside
      | predictSecond answer' _ => cases (answer.unique answer').1
      | predictNone answer' other _ => exact absurd (answer.unique answer').1.symm other
  | predictSecond answer _ ih =>
      cases run' with
      | predictFirst answer' _ => cases (answer.unique answer').1
      | predictSecond answer' inside =>
          obtain ⟨-, rfl⟩ := answer.unique answer'
          exact ih inside
      | predictNone answer' _ other => exact absurd (answer.unique answer').1.symm other
  | predictNone answer other other' =>
      cases run' with
      | predictFirst answer' _ => exact absurd (answer.unique answer').1 other
      | predictSecond answer' _ => exact absurd (answer.unique answer').1 other'
      | predictNone answer' _ _ => rw [(answer.unique answer').2]

/-! ## The credential -/

/-- The rule `credential` on the stream of these tokens, called with no follow set pushed. -/
def Parses (tokens : List Token) (tree : Tree) (r : Recognizer) : Prop :=
  ∃ out, Runs RecoveringParser.credentialCode [] (.new tokens) out ∧
    tree = (match out.1 with
      | some children => { text := credentialS, children }
      | none => { text := errorNodeText, children := [] }) ∧
    r = Recognizer.leave [] out

theorem Stands.new (tokens : List Token) :
    Stands tokens (.new tokens) (.new (visibles tokens defaultChannel)) where
  placed := ⟨rfl, rfl, rests_skip 0, skip_le (Nat.zero_le _)⟩
  ahead := (ahead_skip 0).symm
  errorRecovery := rfl
  errorCount := rfl
  lastErrorIndex := .inl ⟨rfl, rfl⟩

/-- There is one run, with the tree that the visible tokens have, and it ends where the run
    on these tokens ends. -/
theorem parses_once (tokens : List Token) :
    ∃ r, Stands tokens r (RecoveringParser.parse (visibles tokens defaultChannel)).2 ∧
      ∀ tree r', Parses tokens tree r' ↔
        tree = (RecoveringParser.parse (visibles tokens defaultChannel)).1 ∧ r' = r := by
  have settled : ∀ d ∈ Code.decisions RecoveringParser.credentialCode, d.Settled := by
    intro d member
    have only : d ∈ [Parser.cdfa4] := member
    rw [List.mem_singleton.mp only]
    exact Parser.settled
  obtain ⟨out, run, agree⟩ := Code.simulates RecoveringParser.credentialCode credential_wellFormed
    settled [] (Stands.new tokens)
  rw [RecoveringParser.credential_element] at agree
  refine ⟨Recognizer.leave [] out, agree.leave [], fun tree r' => ?_⟩
  have same : (RecoveringParser.parse (visibles tokens defaultChannel)).1 =
      match out.1 with
      | some children => { text := credentialS, children }
      | none => { text := errorNodeText, children := [] } := by
    rw [agree.1]
    rfl
  rw [same]
  constructor
  · rintro ⟨out', run', rfl, rfl⟩
    rw [run'.unique run]
    exact ⟨rfl, rfl⟩
  · rintro ⟨rfl, rfl⟩
    exact ⟨out, run, rfl, rfl⟩

/-- Whatever the tokens, the parser comes to an end on their stream, in one way, with the tree
    and the errors that the visible tokens have. -/
theorem stream_parse (tokens : List Token) :
    ∃ r, (∀ tree r', Parses tokens tree r' ↔
        tree = (RecoveringParser.parse (visibles tokens defaultChannel)).1 ∧ r' = r) ∧
      r.errorCount = (RecoveringParser.parse (visibles tokens defaultChannel)).2.errorCount ∧
      aheadOf tokens r.stream.p =
        (RecoveringParser.parse (visibles tokens defaultChannel)).2.ahead := by
  obtain ⟨r, ends, once⟩ := parses_once tokens
  exact ⟨r, once, ends.errorCount.symm, ends.ahead.symm⟩

/-- The buffer of the stream, from the events of the lexer. -/
def buffered : List Event → List Token
  | [] => []
  | .token t :: events => t :: buffered events
  | .error :: events => buffered events

theorem visibles_buffered (events : List Event) :
    visibles (buffered events) defaultChannel = visible events := by
  induction events with
  | nil => rfl
  | cons event events ih =>
      cases event with
      | error => exact ih
      | token t =>
          rw [buffered, visible, visibles, List.filter_cons, onChannel]
          simp only [decide_eq_true_eq]
          rw [← ih]
          rfl

theorem generated_parses (p : Platform) {lexFuel walkFuel : Nat} {msg : Str}
    {events : List Event} (lexed : Lexer.fillBuffer lexFuel msg = some events) (tree : Tree) :
    (p.generated lexFuel walkFuel).antlr msg = some tree ↔ ∃ r, Parses (buffered events) tree r := by
  obtain ⟨r, -, once⟩ := parses_once (buffered events)
  have read : (p.generated lexFuel walkFuel).antlr msg =
      some (RecoveringParser.parse (visible events)).1 := congrArg (Option.map _) lexed
  simp only [once, visibles_buffered, read, Option.some_inj, exists_and_left, exists_eq, and_true]
  exact eq_comm

end RepositoryManager
