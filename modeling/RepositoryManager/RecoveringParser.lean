import RepositoryManager.AstWalker
import RepositoryManager.BaseRecognizer
import RepositoryManager.Derivations

/-! # The parser with its recovery

The rules of `RepositoryManagerParser.c` with their follow sets and their rewrites. A run
that counts no error reads what the rule of `Parser` reads, and a run in which that rule
fails counts one.
-/

namespace RepositoryManager.RecoveringParser

open ByteString BaseRecognizer
open Lexer (Token TokenType)

/-! ## The rules -/

def text : ParserRule := rule (matchToken .text .eor)

def num : ParserRule := rule (matchToken .num .eor)

def base64 : ParserRule := rule (oneOrMore [.text] (call ⟨[.text], true⟩ text))

def publicKey : ParserRule :=
  rule (elements [matchToken .publicKeyHeader (.only .text), call (.only .publicKeyEnd) base64,
    matchToken .publicKeyEnd .eor])

def signature : ParserRule :=
  rule (elements [matchToken .signatureHeader (.only .text), call (.only .signatureEnd) base64,
    matchToken .signatureEnd .eor])

def timeTuple : ParserRule :=
  rule (elements [matchToken .datime (.only .openParen), matchToken .openParen (.only .num),
    call (.only .comma) num, matchToken .comma (.only .num),
    call (.only .comma) num, matchToken .comma (.only .num),
    call (.only .comma) num, matchToken .comma (.only .num),
    call (.only .comma) num, matchToken .comma (.only .num),
    call (.only .comma) num, matchToken .comma (.only .num),
    call (.only .closeParen) num, matchToken .closeParen (.only .stop), matchToken .stop .eor])

/-- The rewrite has `START_TIME` and `STOP_TIME` where the two words stood. -/
def validity : ParserRule :=
  rule (elements [rewritten [] (matchToken .validityHeader (.only .notBefore)),
    rewritten [startTimeS] (matchToken .notBefore (.only .datime)),
    call (.only .notAfter) timeTuple,
    rewritten [stopTimeS] (matchToken .notAfter (.only .datime)),
    call (.only .validityEnd) timeTuple,
    rewritten [] (matchToken .validityEnd .eor)])

/-- `(',' text)*` -/
def moreTexts : Element :=
  zeroOrMore [.comma] (elements [matchToken .comma (.only .text),
    call ⟨[.closeParen, .comma], false⟩ text])

def predicate : ParserRule :=
  rule (elements [call (.only .openParen) text, matchToken .openParen (.only .text),
    call ⟨[.closeParen, .comma], false⟩ text, moreTexts, matchToken .closeParen .eor])

/-- `'says' '(' text ',' predicate ')'` -/
def saysThat : Element :=
  elements [matchToken .saysWord (.only .openParen), matchToken .openParen (.only .text),
    call (.only .comma) text, matchToken .comma (.only .text),
    call (.only .closeParen) predicate, matchToken .closeParen .eor]

def literal : ParserRule :=
  rule fun following s =>
    match s.next with
    | some .text => call .eor predicate following s
    | some .saysWord => saysThat following s
    | _ => (none, s)

/-- What a literal begins with. -/
def literalStart : FollowSet := ⟨[.text, .saysWord], false⟩

/-- `literal '.'` -/
def fact : Element := elements [call (.only .stop) literal, matchToken .stop .eor]

/-- `(',' literal)*` -/
def moreLiterals : Element :=
  zeroOrMore [.comma] (elements [matchToken .comma literalStart,
    call ⟨[.comma, .stop], false⟩ literal])

/-- `literal ':-' literal (',' literal)* '.'` -/
def implication : Element :=
  elements [call (.only .implies) literal, matchToken .implies literalStart,
    call ⟨[.comma, .stop], false⟩ literal, moreLiterals, matchToken .stop .eor]

def clause : ParserRule :=
  rule fun following s =>
    match Parser.cdfa4.predict Parser.typeCode (Parser.typesOf s.ahead) with
    | .alt 1 => fact following s
    | .alt 2 => implication following s
    | _ => (none, s)

/-- The rewrite has `CERT` and `CLAUSE` for the header and `END_CERT` for the footer. -/
def certificate : ParserRule :=
  rule (elements [rewritten [certS, clauseS] (matchToken .certHeader literalStart),
    oneOrMore [.text, .saysWord] (call ⟨[.text, .saysWord, .validityHeader], false⟩ clause),
    call (.only .publicKeyHeader) validity, call (.only .signatureHeader) publicKey,
    call (.only .certEnd) signature, rewritten [endCertS] (matchToken .certEnd .eor)])

/-- `CREDENTIAL_HEADER public_key certificate*`, none of which the rewrite replaces but the
    header. -/
def credentialFront : List Element :=
  [rewritten [] (matchToken .credentialHeader (.only .publicKeyHeader)),
    call ⟨[.certHeader, .credentialEnd], false⟩ publicKey,
    zeroOrMore [.certHeader] (call ⟨[.certHeader, .credentialEnd], false⟩ certificate)]

/-- The rewrite has `END` for the footer. -/
def credentialEnd : Element := rewritten [endS] (matchToken .credentialEnd .eor)

/-- The rule `credential`, called with no follow set pushed. -/
def credential (s : State) : Tree × State :=
  let out := elements (credentialFront ++ [credentialEnd]) [] s
  (match out.1 with
    | some children => { text := credentialS, children }
    | none => { text := errorNodeText, children := [] },
   leave [] out)

/-- The tree of the tokens on the default channel. -/
def parse (tokens : List Token) : Tree × State := credential (.new tokens)

/-! ## Runs without an error -/

/-- An error was counted, or an exception is on its way that will be. -/
def Failed (s : State) (out : Option (List Str) × State) : Prop :=
  s.errorCount < out.2.errorCount ∨
    out.1 = none ∧ out.2.errorRecovery = false ∧ s.errorCount = out.2.errorCount

/-- On the tokens ahead the element reads what `strict` reads, and fails where it fails. -/
structure AgreesAt (strict : Parser.Rule) (e : Element) (following : List FollowSet) (s : State) :
    Prop where
  reads : ∀ rest, strict (Parser.typesOf s.ahead) = some rest →
    ∃ texts ahead, e following s = (some texts, { s with ahead }) ∧ Parser.typesOf ahead = rest
  fails : strict (Parser.typesOf s.ahead) = none → Failed s (e following s)

theorem AgreesAt.congr {strict strict' : Parser.Rule} {e e' : Element}
    {following : List FollowSet} {s : State} (agrees : AgreesAt strict e following s)
    (sameStrict : strict' (Parser.typesOf s.ahead) = strict (Parser.typesOf s.ahead))
    (same : e' following s = e following s) : AgreesAt strict' e' following s := by
  constructor
  · intro rest read
    rw [same]
    exact agrees.reads rest (sameStrict.symm.trans read)
  · intro unread
    rw [same]
    exact agrees.fails (sameStrict.symm.trans unread)

theorem agreesAt_raise {strict : Parser.Rule} {e : Element} {following : List FollowSet} {s : State}
    (quiet : s.errorRecovery = false) (unread : strict (Parser.typesOf s.ahead) = none)
    (raised : e following s = (none, s)) : AgreesAt strict e following s := by
  constructor
  · intro rest read
    rw [unread] at read
    cases read
  · intro _
    rw [raised]
    exact .inr ⟨rfl, quiet, rfl⟩

/-- No element takes an error back. -/
def Counts (e : Element) : Prop := ∀ following s, s.errorCount ≤ (e following s).2.errorCount

structure Agrees (strict : Parser.Rule) (e : Element) : Prop where
  counts : Counts e
  here : ∀ following s, s.errorRecovery = false → AgreesAt strict e following s

variable {type : TokenType} {follow : FollowSet} {strict : Parser.Rule} {e : Element}

theorem reportError_count (s : State) : s.errorCount ≤ (reportError s).errorCount := by
  unfold reportError
  split
  · exact Nat.le_refl _
  · exact Nat.le_succ _

theorem reportError_counts {s : State} (quiet : s.errorRecovery = false) :
    s.errorCount < (reportError s).errorCount := by
  rw [reportError, if_neg (by simp [quiet])]
  exact Nat.lt_succ_self _

/-- A mismatch is an exception, or it is repaired and reported. -/
theorem recoverFromMismatchedToken_cases (following : List FollowSet) (s : State) :
    recoverFromMismatchedToken type follow following s = (none, s) ∨
      ∃ texts ahead, recoverFromMismatchedToken type follow following s =
        (some texts, { reportError s with ahead }) := by
  have inserts : insertMissing type follow following s = (none, s) ∨
      ∃ texts ahead, insertMissing type follow following s =
        (some texts, { reportError s with ahead }) := by
    unfold insertMissing
    split
    · exact .inr ⟨_, (reportError s).ahead, rfl⟩
    · exact .inl rfl
  unfold recoverFromMismatchedToken
  split
  · split
    · exact .inr ⟨_, _, rfl⟩
    · exact inserts
  · exact inserts

theorem mismatch_counts (following : List FollowSet) (s : State) :
    s.errorCount ≤ (recoverFromMismatchedToken type follow following s).2.errorCount := by
  rcases recoverFromMismatchedToken_cases following s with same | ⟨texts, ahead, same⟩
  · rw [same]
  · rw [same]
    exact reportError_count s

theorem mismatch_fails (following : List FollowSet) {s : State} (quiet : s.errorRecovery = false) :
    Failed s (recoverFromMismatchedToken type follow following s) := by
  rcases recoverFromMismatchedToken_cases following s with same | ⟨texts, ahead, same⟩
  · rw [same]
    exact .inr ⟨rfl, quiet, rfl⟩
  · rw [same]
    exact .inl (reportError_counts quiet)

theorem agrees_match : Agrees (Parser.matchType type) (matchToken type follow) where
  counts following s := by
    unfold matchToken
    split
    · split
      · exact Nat.le_refl _
      · exact mismatch_counts following s
    · exact mismatch_counts following s
  here following s quiet := by
    constructor
    · intro rest matched
      obtain ⟨t, ts, whole, rfl, rfl⟩ := List.map_eq_cons_iff.mp (Parser.matchType_some.mp matched)
      refine ⟨[t.text], ts, ?_, rfl⟩
      simp only [matchToken, whole, if_true, ← quiet]
    · intro unmatched
      unfold matchToken
      split
      · next t ts whole =>
          split
          · next same =>
              rw [whole, Parser.typesOf_cons, same, Parser.matchType_self] at unmatched
              cases unmatched
          · exact mismatch_fails following quiet
      · exact mismatch_fails following quiet

theorem agrees_rewritten (texts : List Str) (agrees : Agrees strict e) :
    Agrees strict (rewritten texts e) where
  counts := agrees.counts
  here following s quiet := by
    obtain ⟨reads, fails⟩ := agrees.here following s quiet
    constructor
    · intro rest read
      obtain ⟨_, ahead, same, types⟩ := reads rest read
      exact ⟨texts, ahead, by simp [rewritten, same], types⟩
    · intro unread
      refine (fails unread).imp_right fun ⟨raised, calm, same⟩ => ?_
      exact ⟨by simp [rewritten, raised], calm, same⟩

theorem agrees_nil : Agrees (Parser.sequence []) (elements []) where
  counts _ _ := Nat.le_refl _
  here _ s _ := ⟨fun _ read => ⟨[], s.ahead, rfl, Parser.sequence_nil.mp read⟩, nofun⟩

section Sequences

variable {stricts : List Parser.Rule} {es : List Element} {following : List FollowSet} {s : State}

theorem counts_cons (first : Counts e) (others : Counts (elements es)) :
    Counts (elements (e :: es)) := by
  intro following s
  have here := first following s
  rw [elements]
  split
  · next texts s' same =>
      rw [same] at here
      exact here.trans (others following s')
  · next s' same =>
      rw [same] at here
      exact here

theorem agreesAt_cons (first : AgreesAt strict e following s) (counts : Counts (elements es))
    (others : ∀ ahead, strict (Parser.typesOf s.ahead) = some (Parser.typesOf ahead) →
      AgreesAt (Parser.sequence stricts) (elements es) following { s with ahead }) :
    AgreesAt (Parser.sequence (strict :: stricts)) (elements (e :: es)) following s := by
  constructor
  · intro rest read
    obtain ⟨mid, here, later⟩ := Parser.sequence_some.mp read
    obtain ⟨texts, ahead, same, rfl⟩ := first.reads mid here
    obtain ⟨texts', ahead', same', types⟩ := (others ahead here).reads rest later
    refine ⟨texts ++ texts', ahead', ?_, types⟩
    simp [elements, same, same']
  · intro unread
    cases here : strict (Parser.typesOf s.ahead) with
    | none =>
        rw [elements]
        rcases first.fails here with counted | ⟨raised, calm, same⟩
        · split
          · next texts s' result =>
              rw [result] at counted
              exact .inl (counted.trans_le (counts following s'))
          · next s' result =>
              rw [result] at counted
              exact .inl counted
        · split
          · next result => simp [result] at raised
          · next s' result =>
              rw [result] at calm same
              exact .inr ⟨rfl, calm, same⟩
    | some mid =>
        obtain ⟨texts, ahead, same, rfl⟩ := first.reads mid here
        rw [Parser.sequence_cons here] at unread
        rw [elements, same]
        refine ((others ahead here).fails unread).imp_right fun ⟨raised, calm, uncounted⟩ => ?_
        exact ⟨by simp [raised], calm, uncounted⟩

theorem agrees_cons (first : Agrees strict e)
    (others : Agrees (Parser.sequence stricts) (elements es)) :
    Agrees (Parser.sequence (strict :: stricts)) (elements (e :: es)) where
  counts := counts_cons first.counts others.counts
  here following s quiet := agreesAt_cons (first.here following s quiet) others.counts
    fun ahead _ => others.here following { s with ahead } quiet

end Sequences

theorem leave_count (following : List FollowSet) (out : Option (List Str) × State) :
    out.2.errorCount ≤ (leave following out).errorCount := by
  obtain ⟨_ | texts, s⟩ := out
  · exact reportError_count s
  · exact Nat.le_refl _

theorem Failed.leave {s : State} {out : Option (List Str) × State} (failed : Failed s out)
    (following : List FollowSet) : s.errorCount < (leave following out).errorCount := by
  rcases failed with counted | ⟨raised, calm, same⟩
  · exact counted.trans_le (leave_count following out)
  · obtain ⟨_, s'⟩ := out
    cases raised
    exact same.trans_lt (reportError_counts calm)

theorem agrees_call (agrees : Agrees strict e) : Agrees strict (call follow (rule e)) where
  counts following s := (agrees.counts (follow :: following) s).trans (leave_count _ _)
  here following s quiet := by
    obtain ⟨reads, fails⟩ := agrees.here (follow :: following) s quiet
    constructor
    · intro rest read
      obtain ⟨texts, ahead, same, types⟩ := reads rest read
      exact ⟨texts, ahead, by simp only [call, rule, same]; rfl, types⟩
    · exact fun unread => .inl ((fails unread).leave _)

/-! ### Loops -/

theorem counts_loop {types : List TokenType} (counts : Counts e) (fuel : Nat) :
    Counts (loop types e fuel) := by
  induction fuel with
  | zero => exact fun _ _ => Nat.le_refl _
  | succ fuel ih =>
      intro following s
      rw [loop]
      split
      · exact counts_cons counts (counts_cons ih agrees_nil.counts) following s
      · exact Nat.le_refl _

/-- A loop goes on at one of these types. -/
def goesOn (types : List TokenType) (ts : List TokenType) : Bool := ts.head?.any (types.contains ·)

theorem at_eq (s : State) (types : List TokenType) :
    s.at types = goesOn types (Parser.typesOf s.ahead) := by
  rw [State.at, State.next, goesOn, Parser.typesOf, List.head?_map]

section Loops

variable {types : List TokenType} (strictLoop : Nat → Parser.Rule) (agrees : Agrees strict e)
  (unfolds : ∀ fuel ts, strictLoop (fuel + 1) ts =
    if goesOn types ts then (strict ts).bind (strictLoop fuel) else some ts)
  (shrinks : ∀ ts rest, strict ts = some rest → rest.length < ts.length)

include agrees unfolds shrinks

theorem agreesAt_loop (fuel bound : Nat) (following : List FollowSet) (s : State)
    (quiet : s.errorRecovery = false) (enough : s.ahead.length < fuel)
    (enough' : s.ahead.length < bound) :
    AgreesAt (strictLoop fuel) (loop types e bound) following s := by
  induction fuel generalizing s bound with
  | zero => omega
  | succ fuel ih =>
      obtain ⟨bound, rfl⟩ : ∃ b, bound = b + 1 := ⟨bound - 1, by omega⟩
      have pass : AgreesAt (Parser.sequence [strict, strictLoop fuel])
          (elements [e, loop types e bound]) following s := by
        refine agreesAt_cons (agrees.here following s quiet)
          (counts_cons (counts_loop agrees.counts bound) agrees_nil.counts) fun ahead read => ?_
        have shorter := shrinks _ _ read
        rw [Parser.typesOf, Parser.typesOf, List.length_map, List.length_map] at shorter
        exact agreesAt_cons (ih bound { s with ahead } quiet (by simp; omega) (by simp; omega))
          agrees_nil.counts fun ahead' _ =>
            agrees_nil.here following { s with ahead := ahead' } quiet
      cases on : goesOn types (Parser.typesOf s.ahead) with
      | true =>
          refine pass.congr ?_ ?_
          · rw [unfolds, on, if_pos rfl, Parser.sequence_pair]
          · rw [loop, at_eq, on, if_pos rfl]
      | false =>
          refine (agrees_nil.here following s quiet).congr ?_ ?_
          · rw [unfolds, on, if_neg Bool.false_ne_true, Parser.sequence]
          · rw [loop, at_eq, on, if_neg Bool.false_ne_true, elements]

theorem agrees_star : Agrees (fun ts => strictLoop (ts.length + 1) ts) (zeroOrMore types e) where
  counts following s := counts_loop agrees.counts _ following s
  here following s quiet := by
    have many : s.ahead.length < s.passes + 1 := by
      unfold State.passes
      omega
    have loops := agreesAt_loop strictLoop agrees unfolds shrinks (s.ahead.length + 1)
      (s.passes + 1) following s quiet (Nat.lt_succ_self _) many
    have size : (Parser.typesOf s.ahead).length = s.ahead.length := List.length_map _
    exact ⟨fun rest read => loops.reads rest (size ▸ read),
      fun unread => loops.fails (size ▸ unread)⟩

theorem agrees_plus :
    Agrees (fun ts => if goesOn types ts then strictLoop (ts.length + 1) ts else none)
      (oneOrMore types e) where
  counts following s := by
    unfold oneOrMore
    split
    · exact (agrees_star strictLoop agrees unfolds shrinks).counts following s
    · exact Nat.le_refl _
  here following s quiet := by
    cases on : goesOn types (Parser.typesOf s.ahead) with
    | true =>
        refine ((agrees_star strictLoop agrees unfolds shrinks).here following s quiet).congr ?_ ?_
        · rw [on, if_pos rfl]
        · rw [oneOrMore, at_eq, on, if_pos rfl]
    | false =>
        refine agreesAt_raise quiet ?_ ?_
        · rw [on, if_neg Bool.false_ne_true]
        · rw [oneOrMore, at_eq, on, if_neg Bool.false_ne_true]

end Loops

/-! ### The rules -/

theorem agrees_text : Agrees Parser.text (call follow text) := agrees_call agrees_match

theorem agrees_num : Agrees Parser.num (call follow num) := agrees_call agrees_match

theorem agrees_base64 : Agrees Parser.base64 (call follow base64) := by
  refine agrees_call ?_
  have same : Parser.base64 =
      fun ts => if goesOn [.text] ts then Parser.textLoop true ts else none := by
    funext ts
    rcases ts with _ | ⟨_ | _, ts⟩ <;> rfl
  rw [same]
  refine agrees_plus (fun _ => Parser.textLoop true) agrees_text ?_ ?_
  · intro _ ts
    rcases ts with _ | ⟨_ | _, ts⟩ <;> rfl
  · intro ts rest read
    rw [Parser.matchType_some.mp read]
    exact Nat.lt_succ_self _

theorem agrees_publicKey : Agrees Parser.publicKey (call follow publicKey) :=
  agrees_call <| agrees_cons agrees_match <| agrees_cons agrees_base64 <|
    agrees_cons agrees_match agrees_nil

theorem agrees_signature : Agrees Parser.signature (call follow signature) :=
  agrees_call <| agrees_cons agrees_match <| agrees_cons agrees_base64 <|
    agrees_cons agrees_match agrees_nil

theorem agrees_timeTuple : Agrees Parser.timeTuple (call follow timeTuple) :=
  agrees_call <| agrees_cons agrees_match <| agrees_cons agrees_match <|
    agrees_cons agrees_num <| agrees_cons agrees_match <|
    agrees_cons agrees_num <| agrees_cons agrees_match <|
    agrees_cons agrees_num <| agrees_cons agrees_match <|
    agrees_cons agrees_num <| agrees_cons agrees_match <|
    agrees_cons agrees_num <| agrees_cons agrees_match <|
    agrees_cons agrees_num <| agrees_cons agrees_match <| agrees_cons agrees_match agrees_nil

theorem agrees_validity : Agrees Parser.validity (call follow validity) :=
  agrees_call <| agrees_cons (agrees_rewritten _ agrees_match) <|
    agrees_cons (agrees_rewritten _ agrees_match) <| agrees_cons agrees_timeTuple <|
    agrees_cons (agrees_rewritten _ agrees_match) <| agrees_cons agrees_timeTuple <|
    agrees_cons (agrees_rewritten _ agrees_match) agrees_nil

theorem agrees_moreTexts : Agrees Parser.argLoop moreTexts := by
  refine agrees_star (fun _ => Parser.argLoop)
    (agrees_cons agrees_match (agrees_cons agrees_text agrees_nil)) ?_ ?_
  · intro _ ts
    rcases ts with _ | ⟨t, ts⟩
    · rfl
    · cases t with
      | comma => rcases ts with _ | ⟨_ | _, ts⟩ <;> rfl
      | _ => rfl
  · intro ts rest read
    simp only [Parser.text, Parser.sequence_some, Parser.sequence_nil,
      Parser.matchType_some] at read
    obtain ⟨_, rfl, _, rfl, rfl⟩ := read
    exact Nat.lt_succ_of_lt (Nat.lt_succ_self _)

theorem agrees_predicate : Agrees Parser.predicate (call follow predicate) :=
  agrees_call <| agrees_cons agrees_text <| agrees_cons agrees_match <| agrees_cons agrees_text <|
    agrees_cons agrees_moreTexts <| agrees_cons agrees_match agrees_nil

theorem literal_cases (ts : List TokenType) :
    (ts.head? = some .text ∧ Parser.literal ts = Parser.predicate ts) ∨
    (ts.head? = some .saysWord ∧ Parser.literal ts =
      Parser.sequence [Parser.matchType .saysWord, Parser.matchType .openParen, Parser.text,
        Parser.matchType .comma, Parser.predicate, Parser.matchType .closeParen] ts) ∨
    (ts.head? ≠ some .text ∧ ts.head? ≠ some .saysWord ∧ Parser.literal ts = none) := by
  unfold Parser.literal
  split
  · exact .inl ⟨rfl, rfl⟩
  · exact .inr (.inl ⟨rfl, rfl⟩)
  · next noText noSays =>
      refine .inr (.inr ⟨fun head => ?_, fun head => ?_, rfl⟩)
      · exact noText _ (List.eq_cons_of_mem_head? head)
      · exact noSays _ (List.eq_cons_of_mem_head? head)

theorem agrees_saysThat :
    Agrees (Parser.sequence [Parser.matchType .saysWord, Parser.matchType .openParen, Parser.text,
      Parser.matchType .comma, Parser.predicate, Parser.matchType .closeParen]) saysThat :=
  agrees_cons agrees_match <| agrees_cons agrees_match <| agrees_cons agrees_text <|
    agrees_cons agrees_match <| agrees_cons agrees_predicate <| agrees_cons agrees_match agrees_nil

theorem agrees_literal : Agrees Parser.literal (call follow literal) := by
  refine agrees_call ⟨fun following s => ?_, fun following s quiet => ?_⟩
  · split
    · exact agrees_predicate.counts following s
    · exact agrees_saysThat.counts following s
    · exact Nat.le_refl _
  · have next : (Parser.typesOf s.ahead).head? = s.next := List.head?_map
    rcases literal_cases (Parser.typesOf s.ahead) with
      ⟨head, same⟩ | ⟨head, same⟩ | ⟨noText, noSays, same⟩
    · exact (agrees_predicate.here following s quiet).congr same (by simp only [← next, head]; rfl)
    · exact (agrees_saysThat.here following s quiet).congr same (by simp only [← next, head])
    · refine agreesAt_raise quiet same ?_
      rw [next] at noText noSays
      split
      · contradiction
      · contradiction
      · rfl

theorem agrees_moreLiterals : Agrees Parser.moreLiterals moreLiterals := by
  refine agrees_star Parser.literalLoop
    (agrees_cons agrees_match (agrees_cons agrees_literal agrees_nil)) ?_ ?_
  · intro fuel ts
    rw [Parser.sequence_pair]
    rcases ts with _ | ⟨_ | _, ts⟩ <;> rfl
  · intro ts rest read
    simp only [Parser.sequence_some, Parser.sequence_nil, Parser.matchType_some] at read
    obtain ⟨_, rfl, _, first, rfl⟩ := read
    obtain ⟨l, rfl⟩ := Parser.literal_some first
    simp only [List.length_cons, List.length_append]
    omega

theorem agrees_fact :
    Agrees (Parser.sequence [Parser.literal, Parser.matchType .stop]) fact :=
  agrees_cons agrees_literal <| agrees_cons agrees_match agrees_nil

theorem agrees_implication :
    Agrees (Parser.sequence [Parser.literal, Parser.matchType .implies, Parser.literal,
      Parser.moreLiterals, Parser.matchType .stop]) implication :=
  agrees_cons agrees_literal <| agrees_cons agrees_match <| agrees_cons agrees_literal <|
    agrees_cons agrees_moreLiterals <| agrees_cons agrees_match agrees_nil

theorem agrees_clause : Agrees Parser.clause (call follow clause) := by
  refine agrees_call ⟨fun following s => ?_, fun following s quiet => ?_⟩
  · split
    · exact agrees_fact.counts following s
    · exact agrees_implication.counts following s
    · exact Nat.le_refl _
  · cases predicted : Parser.cdfa4.predict Parser.typeCode (Parser.typesOf s.ahead) with
    | alt n =>
        by_cases first : n = 1
        · subst first
          refine (agrees_fact.here following s quiet).congr ?_ ?_
          · simp only [Parser.clause, predicted]
          · simp only [predicted]
        · by_cases second : n = 2
          · subst second
            refine (agrees_implication.here following s quiet).congr ?_ ?_
            · simp only [Parser.clause, predicted]
            · simp only [predicted]
          · refine agreesAt_raise quiet ?_ ?_
            · simp [Parser.clause, predicted, first, second]
            · simp [predicted, first, second]
    | noViableAlt =>
        refine agreesAt_raise quiet ?_ ?_
        · simp only [Parser.clause, predicted]
        · simp only [predicted]
    | running =>
        refine agreesAt_raise quiet ?_ ?_
        · simp only [Parser.clause, predicted]
        · simp only [predicted]

theorem agrees_clauses :
    Agrees Parser.clauses (oneOrMore [.text, .saysWord]
      (call ⟨[.text, .saysWord, .validityHeader], false⟩ clause)) := by
  have same : Parser.clauses = fun ts =>
      if goesOn [.text, .saysWord] ts then Parser.clauseLoop (ts.length + 1) true ts else none := by
    funext ts
    rcases ts with _ | ⟨_ | _, ts⟩ <;> rfl
  rw [same]
  refine agrees_plus (fun fuel => Parser.clauseLoop fuel true) agrees_clause ?_ ?_
  · intro fuel ts
    rcases ts with _ | ⟨_ | _, ts⟩ <;> rfl
  · intro ts rest read
    obtain ⟨c, rfl⟩ := Parser.clause_some read
    obtain ⟨t, types, shown, -⟩ := Parser.clause_head c
    rw [shown, List.cons_append, List.length_cons, List.length_append]
    omega

theorem agrees_certificate : Agrees Parser.certificate (call follow certificate) :=
  agrees_call <| agrees_cons (agrees_rewritten _ agrees_match) <| agrees_cons agrees_clauses <|
    agrees_cons agrees_validity <| agrees_cons agrees_publicKey <| agrees_cons agrees_signature <|
    agrees_cons (agrees_rewritten _ agrees_match) agrees_nil

theorem agrees_certificates :
    Agrees Parser.certificates
      (zeroOrMore [.certHeader] (call ⟨[.certHeader, .credentialEnd], false⟩ certificate)) := by
  refine agrees_star Parser.certificateLoop agrees_certificate ?_ ?_
  · intro fuel ts
    rcases ts with _ | ⟨_ | _, ts⟩ <;> rfl
  · intro ts rest read
    obtain ⟨c, -, rfl⟩ := Parser.certificate_some read
    have some_type : 0 < (Parser.typesOf c.shown).length := by
      simp [Parser.typesOf, Grammar.Certificate.shown]
    rw [List.length_append]
    omega

theorem agrees_credential :
    Agrees Parser.credential (elements (credentialFront ++ [credentialEnd])) :=
  agrees_cons (agrees_rewritten _ agrees_match) <| agrees_cons agrees_publicKey <|
    agrees_cons agrees_certificates <| agrees_cons (agrees_rewritten _ agrees_match) agrees_nil

/-! ## The whole parse -/

theorem parse_accepts {tokens : List Token} (derives : Parser.Derives tokens) :
    (parse tokens).1.text = credentialS ∧ (parse tokens).2.errorCount = 0 := by
  obtain ⟨rest, read⟩ := Parser.derives_iff.mp derives
  obtain ⟨texts, ahead, same, -⟩ := (agrees_credential.here [] (.new tokens) rfl).reads rest read
  rw [parse, credential, same]
  exact ⟨rfl, rfl⟩

/-- The parser reports no error exactly on what begins with the tokens of a credential. -/
theorem parse_errors (tokens : List Token) :
    (parse tokens).2.errorCount = 0 ↔ Parser.Derives tokens := by
  refine ⟨fun clean => ?_, fun derives => (parse_accepts derives).2⟩
  rw [Parser.derives_iff]
  cases read : Parser.credential (Parser.typesOf tokens) with
  | some rest => exact ⟨rest, rfl⟩
  | none =>
      have failed := (agrees_credential.here [] (.new tokens) rfl).fails read
      exact absurd clean (Nat.ne_of_gt (failed.leave []))

end RepositoryManager.RecoveringParser
