import RepositoryManager.Conversation
import RepositoryManager.SyntaxTree

/-! # The messages of the protocol

The grammar has rules for what the server and a client write to each other, which the server
does not call: it writes strings, and reads a request with `generateQuery`. Where the generated
lexer and the rule `request` find no error, `generateQuery` makes the query about the same
operation and text. Every reply of the server is a reply of the grammar; of its challenges the
generated lexer never comes to the end.
-/

namespace RepositoryManager

namespace Lexer

open ByteString Scanner

variable {w w' : Str} {ts : List Token} {t : Token}

/-! ## Messages that are read without an error -/

/-- What stands in front of the rest of a message is white space, or the text of one token. -/
inductive Cut (w w' : Str) (ts : List Token) : Prop where
  | space (gap : Gap) (whole : w = gap.chars ++ w') (rest : Clean w' ts) : Cut w w' ts
  | token {t us} (shown : ts = t :: us) (whole : w = t.text ++ w') (rest : Clean w' us) : Cut w w' ts

theorem cut_token {type : TokenType} {text : Str}
    (pass : lexPass (text ++ w') = some (.token (.shown type text), w'))
    (clean : Clean (text ++ w') ts) : Cut (text ++ w') w' ts := by
  obtain ⟨us, shown, rest⟩ := (clean_token pass).mp clean
  exact .token shown rfl rest

theorem Blank.gap {x : Str} (blank : Blank x) : ∀ c ∈ x, isSpace c = true := by
  cases blank <;> exact forall_mem_of_all (by decide)

theorem Goes.cut (goes : Goes w w') (clean : Clean w ts) : Cut w w' ts := by
  cases goes with
  | @mark c _ isMark =>
      have clean : Clean ([c] ++ w') ts := clean
      exact cut_token (pass_mark isMark) clean
  | blank isBlank => exact .space ⟨_, isBlank.gap⟩ rfl ((clean_blank isBlank).mp clean)
  | stray noFormFeed =>
      obtain ⟨rest, matched, -⟩ := (clean_ws (by decide)).mp clean
      rw [wsLoop_return noFormFeed] at matched
      cases matched
  | @run r _ some_char isRun ended unopened =>
      by_cases headed : r ∈ headings ∧ w'.head? = some ' '
      · obtain ⟨heading, blank⟩ := headed
        obtain ⟨rest, rfl⟩ := List.head?_eq_some_iff.mp blank
        exact absurd clean (not_clean_of_error (pass_unopened heading unopened))
      · have unheaded : Unheaded r w' := fun heading blank => headed ⟨heading, blank⟩
        exact cut_token (pass_run some_char isRun ended unheaded) clean
  | header opening => exact cut_token (pass_header opening) clean
  | broken opening goes opened wrong =>
      exact absurd clean (not_clean_of_error (pass_broken opening goes opened wrong))

theorem Clean.first (clean : Clean w (t :: ts)) :
    ∃ (gap : Gap) (w' : Str), w = gap.chars ++ (t.text ++ w') ∧ Clean w' ts := by
  have halts : Halts lexPass w := halts_iff_shows.mpr ⟨_, clean.shows⟩
  induction passable_of_halts halts with
  | empty => cases clean_nil.mp clean
  | @more w w' goes _ ih =>
      cases goes.cut clean with
      | space gap whole rest =>
          obtain ⟨gap', w'', later, rest⟩ := ih rest (goes.halts.mp halts)
          refine ⟨⟨gap.chars ++ gap'.chars, fun c member => ?_⟩, w'', ?_, rest⟩
          · exact (List.mem_append.mp member).elim (gap.white c) (gap'.white c)
          · rw [whole, later, List.append_assoc]
      | token shown whole rest =>
          cases shown
          exact ⟨⟨[], List.forall_mem_nil _⟩, w', whole, rest⟩

end Lexer

namespace Messages

open ByteString Scanner ProcessPool BaseRecognizer Grammar
open RecoveringParser hiding literal
open Lexer hiding rule

/-! ## The rules -/

def op : ParserRule := rule (call .eor RecoveringParser.text)

/-- `REQUEST_HEADER 'request' '(' op ',' text ')' REQUEST_END` -/
def requestAlternative : Element :=
  elements [matchToken .requestHeader (.only .request), matchToken .request (.only .openParen),
    matchToken .openParen (.only .text), call (.only .comma) op,
    matchToken .comma (.only .text), call (.only .closeParen) RecoveringParser.text,
    matchToken .closeParen (.only .requestEnd), matchToken .requestEnd .eor]

def request : ParserRule := rule requestAlternative

def result : ParserRule := rule (call .eor RecoveringParser.text)

def reply : ParserRule :=
  rule (elements [matchToken .replyHeader (.only .text), call (.only .replyEnd) result,
    matchToken .replyEnd .eor])

/-! ## A rule without an error -/

theorem sequence_types {types ts rest : List TokenType} :
    Parser.sequence (types.map Parser.matchType) ts = some rest ↔ ts = types ++ rest := by
  induction types generalizing ts with
  | nil => simp [Parser.sequence]
  | cons type types ih =>
      cases ts with
      | nil => simp [Parser.sequence, Parser.matchType]
      | cons t ts =>
          by_cases same : t = type
          · simp [Parser.sequence, Parser.matchType, same, ih]
          · simp [Parser.sequence, Parser.matchType, same]

/-- A rule that agrees with a strict one reports no error exactly where the strict one reads. -/
theorem quiet_iff {strict : Parser.Rule} {e : Element} (agrees : Agrees strict e)
    (tokens : List Token) : (rule e [] (.new tokens)).2.errorCount = 0 ↔
      ∃ rest, strict (Parser.typesOf tokens) = some rest := by
  have here := agrees.here [] (.new tokens) rfl
  constructor
  · intro quiet
    cases read : strict (Parser.typesOf tokens) with
    | some rest => exact ⟨rest, rfl⟩
    | none => exact absurd quiet (Nat.ne_of_gt ((here.fails read).leave []))
  · rintro ⟨rest, read⟩
    obtain ⟨texts, ahead, same, -⟩ := here.reads rest read
    rw [rule, same]
    rfl

def requestTypes : List TokenType :=
  [.requestHeader, .request, .openParen, .text, .comma, .text, .closeParen, .requestEnd]

theorem agrees_request :
    Agrees (Parser.sequence (requestTypes.map Parser.matchType)) requestAlternative :=
  agrees_cons agrees_match <| agrees_cons agrees_match <| agrees_cons agrees_match <|
    agrees_cons (agrees_call agrees_text) <| agrees_cons agrees_match <| agrees_cons agrees_text <|
    agrees_cons agrees_match <| agrees_cons agrees_match agrees_nil

/-- The tokens of a request. -/
def requestShown (op text : Text) : List Token :=
  [word .requestHeader, word .request, word .openParen, op.token, word .comma, text.token,
    word .closeParen, word .requestEnd]

theorem refills_request : Refills requestTypes fun x : Text × Text => requestShown x.1 x.2 := by
  have parts := refills_append (refills_word .requestHeader (by decide)) <|
    refills_append (refills_word .request (by decide)) <|
    refills_append (refills_word .openParen (by decide)) <| refills_append refills_text <|
    refills_append (refills_word .comma (by decide)) <| refills_append refills_text <|
    refills_append (refills_word .closeParen (by decide)) (refills_word .requestEnd (by decide))
  exact parts.of (fun x => (x.2.2.2.1, x.2.2.2.2.2.1)) rfl fun _ => rfl

theorem request_shown (op text : Text) (rest : List Token) :
    request [] (.new (requestShown op text ++ rest)) =
      ((requestShown op text).map Token.text, .new rest) := rfl

/-! ## Requests -/

theorem message_pieces (l : RequestLayout) (r : Request) (after : Str) :
    l.message r after = l.beforeHeader.chars ++ (beginClientRequestS ++
      (l.beforeRequest.chars ++ ("request".toList ++ (l.beforeOpen.chars ++ (['('] ++
      (l.beforeOp.chars ++ (r.op.chars ++ (l.beforeComma.chars ++ ([','] ++
      (l.beforeText.chars ++ (r.text.chars ++ (l.beforeClose.chars ++ ([')'] ++
      (l.beforeEnd.chars ++ (endClientRequestS ++ after))))))))))))))) := by
  unfold RequestLayout.message RequestLayout.front RequestLayout.body RequestLayout.argsText
  generalize beginClientRequestS = header, endClientRequestS = mark, "request".toList = name
  simp only [List.append_assoc, List.cons_append, List.nil_append]

theorem message_of_clean {msg : Str} {op text : Text} {rest : List Token}
    (clean : Clean msg (requestShown op text ++ rest)) :
    ∃ (l : RequestLayout) (r : Request) (after : Str),
      r.op = op ∧ r.text = text ∧ msg = l.message r after := by
  have full := (Lexer.shows_text clean.shows).1
  have someOp : op.chars ≠ [] := full op.token (by simp [requestShown])
  have someText : text.chars ≠ [] := full text.token (by simp [requestShown])
  obtain ⟨beforeHeader, _, rfl, fromRequest⟩ := clean.first
  obtain ⟨beforeRequest, _, rfl, fromOpen⟩ := fromRequest.first
  obtain ⟨beforeOpen, _, rfl, fromOp⟩ := fromOpen.first
  obtain ⟨beforeOp, _, rfl, fromComma⟩ := fromOp.first
  obtain ⟨beforeComma, _, rfl, fromText⟩ := fromComma.first
  obtain ⟨beforeText, _, rfl, fromClose⟩ := fromText.first
  obtain ⟨beforeClose, _, rfl, fromEnd⟩ := fromClose.first
  obtain ⟨beforeEnd, after, rfl, -⟩ := fromEnd.first
  refine ⟨⟨beforeHeader, beforeRequest, beforeOpen, beforeOp, beforeComma, beforeText, beforeClose,
    beforeEnd⟩, ⟨op, text, someOp, someText⟩, after, rfl, rfl, ?_⟩
  rw [message_pieces]
  rfl

/-- Where the generated lexer and parser read a request without an error, `generateQuery` reads
    the same one. -/
theorem request_readings_agree {msg : Str} {ts : List Token} (clean : Clean msg ts)
    (quiet : (request [] (.new ts)).2.errorCount = 0) :
    ∃ (r : Request) (rest : List Token), ts = requestShown r.op r.text ++ rest ∧
      request [] (.new ts) = ((requestShown r.op r.text).map Token.text, .new rest) ∧
      ∀ cred : Credential, ∃ query, generateQuery (some cred) msg = some query ∧
        packed query = packed ("allow(".toList ++ cred.keyDigest ++ ",".toList ++ r.op.chars ++
          ",".toList ++ r.text.chars ++ ").".toList) := by
  obtain ⟨types, read⟩ := (quiet_iff agrees_request ts).mp quiet
  obtain ⟨⟨op, text⟩, rest, rfl, -, -⟩ :=
    refills_request ts types (fromGrammar_of_shows clean.shows) (sequence_types.mp read)
  obtain ⟨l, r, after, rfl, rfl, rfl⟩ := message_of_clean clean
  refine ⟨r, rest, rfl, request_shown r.op r.text rest, fun cred => ?_⟩
  refine ⟨_, generateQuery_request cred l r after, ?_⟩
  have between : packed [','] = packed ",".toList := by decide
  unfold askedQuery allowQuery
  rw [List.intercalate_cons_cons, List.intercalate_singleton]
  simp only [packed_append, Gap.packed, between, List.append_assoc, List.nil_append]

theorem request_readings_agree_view :
    request [] (.new (requestShown viewFile.op viewFile.text)) =
      ((requestShown viewFile.op viewFile.text).map Token.text, .new []) ∧
    ∀ cred : Credential, ∃ query,
      generateQuery (some cred) (print (requestShown viewFile.op viewFile.text)) = some query ∧
      packed query = packed ("allow(".toList ++ cred.keyDigest ++ ",view,file).".toList) := by
  have tokens : ∀ t ∈ requestShown viewFile.op viewFile.text, FromGrammar t := by
    simp only [requestShown, List.mem_cons, List.not_mem_nil, or_false]
    rintro t (rfl | rfl | rfl | rfl | rfl | rfl | rfl | rfl)
    case inr.inr.inr.inl => exact .text _
    case inr.inr.inr.inr.inr.inl => exact .text _
    all_goals exact .word (by decide)
  have kept : ∀ t ∈ requestShown viewFile.op viewFile.text, Kept t := by
    simp only [requestShown, List.mem_cons, List.not_mem_nil, or_false]
    rintro t (rfl | rfl | rfl | rfl | rfl | rfl | rfl | rfl)
    case inr.inr.inr.inl => exact ⟨by decide, by decide⟩
    case inr.inr.inr.inr.inr.inl => exact ⟨by decide, by decide⟩
    all_goals trivial
  obtain ⟨r, rest, same, parsed, asked⟩ := request_readings_agree (clean_print tokens kept) rfl
  have noRest : rest = [] := by
    have lengths := congrArg List.length same
    simp only [List.length_append, requestShown, List.length_cons, List.length_nil] at lengths
    exact List.eq_nil_of_length_eq_zero (by omega)
  rw [noRest, List.append_nil] at same
  rw [← same, noRest] at parsed
  refine ⟨parsed, fun cred => ?_⟩
  obtain ⟨query, generated, isAllow⟩ := asked cred
  have texts := congrArg (List.map Token.text) same
  simp only [requestShown, List.map_cons, List.cons.injEq, and_true, true_and] at texts
  have isOp : "view".toList = r.op.chars := texts.1
  have isText : "file".toList = r.text.chars := texts.2
  refine ⟨query, generated, isAllow.trans ?_⟩
  rw [← isOp, ← isText]
  simp only [packed_append, List.append_assoc]
  rfl

/-! ## What the server writes -/

theorem challengeChar_foreign (n : Nat) : Foreign (challengeChar n) := by
  unfold challengeChar
  split
  · exact ⟨rfl, by decide, by decide⟩
  · split
    · exact ⟨rfl, by decide, by decide⟩
    · split
      · exact ⟨rfl, by decide, by decide⟩
      · exact ⟨rfl, by decide, by decide⟩

theorem generateChallenge_first (rand : Nat → Nat) (draws : Nat) :
    ∃ rest, (generateChallenge rand draws).1 = challengeChar (rand draws) :: rest := by
  have range : List.range maxChallengeBuf = 0 :: (List.range 31).map Nat.succ := by decide
  exact ⟨_, by rw [generateChallenge, range, List.map_cons, Nat.add_zero]⟩

/-- At the first character of a challenge the lexer goes no further. -/
theorem challenge_never_lexed (rand : Nat → Nat) (draws : Nat) :
    ¬ ∃ fuel events, fillBuffer fuel (challengeMsg (generateChallenge rand draws).1) =
      some events := by
  rintro ⟨fuel, events, filled⟩
  obtain ⟨rest, first⟩ := generateChallenge_first rand draws
  have whole : challengeMsg (generateChallenge rand draws).1 = beginChallengeS ++ (['\n'] ++
      (challengeChar (rand draws) :: (rest ++ "\n".toList ++ endChallengeS ++ "\n".toList))) := by
    unfold challengeMsg
    rw [first]
    generalize beginChallengeS = header, endChallengeS = mark
    simp
  have header : (lit15.take 26, TokenType.challengeHeader) ∈ openings := by decide
  have halts : Halts lexPass (challengeMsg (generateChallenge rand draws).1) :=
    ⟨events, scans_of_scan filled⟩
  rw [whole] at halts
  have behind : Halts lexPass (['\n'] ++ _) := (Goes.header header).halts.mp halts
  have inside := (Goes.blank .lineFeed).halts.mp behind
  exact not_halts_of_stuck (pass_foreign (challengeChar_foreign _)) inside

/-- The tokens of a reply. -/
def replyShown (decision : Text) : List Token :=
  [word .replyHeader, decision.token, word .replyEnd]

theorem reply_lexed (decision : Text) (kept : Ordinary decision.chars) :
    Clean (replyMsg decision.chars) (replyShown decision) := by
  have whole : replyMsg decision.chars = literal .replyHeader ++ ('\n' ::
      (decision.chars ++ '\n' :: (literal .replyEnd ++ ['\n']))) := by
    simp [replyMsg]
    rfl
  have header : FromGrammar (word .replyHeader) := .word (by decide)
  have mark : FromGrammar (word .replyEnd) := .word (by decide)
  rw [whole]
  refine clean_kept header trivial separated_newline ((clean_blank .lineFeed).mpr ?_)
  refine clean_kept (.text decision) kept separated_newline ((clean_blank .lineFeed).mpr ?_)
  refine clean_kept mark trivial separated_newline ?_
  exact (clean_blank (w := []) .lineFeed).mpr (clean_nil.mpr rfl)

theorem decision_inClass (b : Bool) :
    ∀ c ∈ (if b then grantS else denyS), isTextChar c = true := by
  cases b <;> exact forall_mem_of_all (by decide)

theorem decision_ordinary (b : Bool) : Ordinary (if b then grantS else denyS) := by
  cases b <;> exact ⟨by decide, by decide⟩

/-- What is decided about a request, as the text of a reply. -/
def decision (b : Bool) : Text := ⟨if b then grantS else denyS, decision_inClass b⟩

/-- In every run, what a process writes is the challenge, over which the generated lexer never
    comes to the end, or a decision, which the lexer and the rule `reply` read without an error. -/
theorem written_messages {p : Platform} {xsb : Str → Option Str → QueryEnd → Prop} {policy : Str}
    {socketInit : Bool} {file : World} {s : Pool Call Reply Mode World}
    (reach : (server p xsb).Reachable (startListening policy socketInit) file s)
    {proc : Process Call Reply Mode} (member : proc ∈ s.procs) :
    ∀ text ∈ written proc.history,
      (text = challengeMsg (generateChallenge p.prng.rand 0).1 ∧
        ¬ ∃ fuel events, fillBuffer fuel text = some events) ∨
      ∃ b, Clean text (replyShown (decision b)) ∧
        reply [] (.new (replyShown (decision b))) =
          ((replyShown (decision b)).map Token.text, .new []) := by
  obtain ⟨past, now, m, cut, talks, run⟩ := talks_reached reach member
  have converses := (talks.steps run).1
  rw [← cut] at converses
  intro text inside
  rcases converses.written_told with none | ⟨bs, texts⟩
  · rw [none] at inside
    cases inside
  · rw [texts] at inside
    rcases List.mem_cons.mp inside with rfl | isReply
    · exact .inl ⟨rfl, challenge_never_lexed p.prng.rand 0⟩
    · obtain ⟨b, -, rfl⟩ := List.mem_map.mp isReply
      exact .inr ⟨b, reply_lexed (decision b) (decision_ordinary b), rfl⟩

theorem written_messages_alice :
    ∃ (proc : Process Call Reply Mode), written proc.own ≠ [] ∧
      ∀ text ∈ written proc.history,
        (text = challengeMsg (generateChallenge villagePlatform.prng.rand 0).1 ∧
          ¬ ∃ fuel events, fillBuffer fuel text = some events) ∨
        ∃ b, Clean text (replyShown (decision b)) ∧
          reply [] (.new (replyShown (decision b))) =
            ((replyShown (decision b)).map Token.text, .new []) := by
  obtain ⟨s, proc, reach, member, own⟩ := alice_admitted
  refine ⟨proc, ?_, written_messages reach member⟩
  rw [own]
  exact List.cons_ne_nil _ _

end Messages

end RepositoryManager
