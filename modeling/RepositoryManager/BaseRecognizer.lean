import RepositoryManager.Parser

/-! # Rules that recover

`antlr3baserecognizer.c`, as the rules of `RepositoryManagerParser.c` use it: `match`
with its repair of one superfluous or missing token, the report of an error, and the
resynchronisation at the end of a rule that has failed. A rule leaves the texts of the
nodes that it adds to the tree.
-/

namespace RepositoryManager.BaseRecognizer

open ByteString Lexer

/-- The tokens of a follow set, and whether the end of the rule (`EOR`) is one of them. -/
structure FollowSet where
  types : List TokenType
  endOfRule : Bool

/-- The follow sets of one literal each, and of the end of a rule. -/
def FollowSet.only (type : TokenType) : FollowSet := ⟨[type], false⟩

def FollowSet.eor : FollowSet := ⟨[], true⟩

/-- The tokens that are ahead and the shared state of the recognizer. An index in the token
    stream is given by the number of tokens ahead of it. -/
structure State where
  ahead : List Token
  errorRecovery : Bool
  errorCount : Nat
  lastErrorIndex : Option Nat
  deriving DecidableEq

/-- A new recognizer on a token stream. -/
def State.new (tokens : List Token) : State :=
  { ahead := tokens, errorRecovery := false, errorCount := 0, lastErrorIndex := none }

/-- `_LA(1)`, which is `none` at the end of the input. -/
def State.next (s : State) : Option TokenType := s.ahead.head?.map Token.type

/-- What stands in a rule, below the follow sets that were pushed: the texts that it adds
    to the tree, or `none` for an exception. -/
abbrev Element := List FollowSet → State → Option (List Str) × State

/-- A rule returns to its caller in any case. -/
abbrev ParserRule := List FollowSet → State → List Str × State

/-- `combineFollows`, which is never called for the exact set. -/
def combineFollows (following : List FollowSet) : FollowSet :=
  { types := following.flatMap FollowSet.types
    endOfRule := following.any FollowSet.endOfRule }

def reportError (s : State) : State :=
  if s.errorRecovery then s else { s with errorRecovery := true, errorCount := s.errorCount + 1 }

/-- `RepositoryManagerParserTokenNames` -/
def tokenName : TokenType → Str
  | .openParen => "'('".toList
  | .closeParen => "')'".toList
  | .comma => "','".toList
  | .stop => "'.'".toList
  | .implies => "':-'".toList
  | .datime => "'datime'".toList
  | .request => "'request'".toList
  | .saysWord => "'says'".toList
  | .ws => "WS".toList
  | .num => "NUM".toList
  | .text => "TEXT".toList
  | .credentialHeader => "CREDENTIAL_HEADER".toList
  | .credentialEnd => "CREDENTIAL_END".toList
  | .publicKeyHeader => "PUBLIC_KEY_HEADER".toList
  | .publicKeyEnd => "PUBLIC_KEY_END".toList
  | .signatureHeader => "SIGNATURE_HEADER".toList
  | .signatureEnd => "SIGNATURE_END".toList
  | .validityHeader => "VALIDITY_HEADER".toList
  | .validityEnd => "VALIDITY_END".toList
  | .certHeader => "CERT_HEADER".toList
  | .certEnd => "CERT_END".toList
  | .challengeHeader => "CHALLENGE_HEADER".toList
  | .challengeEnd => "CHALLENGE_END".toList
  | .responseHeader => "RESPONSE_HEADER".toList
  | .responseEnd => "RESPONSE_END".toList
  | .requestHeader => "REQUEST_HEADER".toList
  | .requestEnd => "REQUEST_END".toList
  | .replyHeader => "REPLY_HEADER".toList
  | .replyEnd => "REPLY_END".toList
  | .notBefore => "NOT_BEFORE".toList
  | .notAfter => "NOT_AFTER".toList

/-- The text of the token that `getMissingSymbol` makes. -/
def missingText (type : TokenType) : Str := "<missing ".toList ++ tokenName type ++ ">".toList

/-- `errorNode` -/
def errorNodeText : Str := "Tree Error Node".toList

/-- The next token could come after the one that was expected. An `EOR` that is left in the
    set stands for any token. -/
def mismatchIsMissingToken (follow : FollowSet) (following : List FollowSet) (s : State) : Bool :=
  let viable := if follow.endOfRule then
      { combineFollows following with types := follow.types ++ (combineFollows following).types }
    else follow
  s.next.any (viable.types.contains ·) || viable.endOfRule

/-- The second repair of `recoverFromMismatchedToken`, and its failure. -/
def insertMissing (type : TokenType) (follow : FollowSet) : Element := fun following s =>
  if mismatchIsMissingToken follow following s then (some [missingText type], reportError s)
  else (none, s)

/-- Deletes the next token if the one behind it is expected. -/
def recoverFromMismatchedToken (type : TokenType) (follow : FollowSet) : Element :=
  fun following s =>
    match s.ahead with
    | _ :: t :: ts =>
        if t.type = type then (some [t.text], { reportError s with ahead := ts })
        else insertMissing type follow following s
    | _ => insertMissing type follow following s

/-- `match`, for a token whose text becomes a node of the tree. -/
def matchToken (type : TokenType) (follow : FollowSet) : Element := fun following s =>
  match s.ahead with
  | t :: ts =>
      if t.type = type then (some [t.text], { s with ahead := ts, errorRecovery := false })
      else recoverFromMismatchedToken type follow following s
  | [] => recoverFromMismatchedToken type follow following s

/-- `recover` with `consumeUntilSet`. -/
def recover (following : List FollowSet) (s : State) : State :=
  let ahead := if s.lastErrorIndex = some s.ahead.length then s.ahead.tail else s.ahead
  { s with
    lastErrorIndex := some ahead.length
    ahead := ahead.dropWhile fun t => !(combineFollows following).types.contains t.type }

/-! ## Rules -/

/-- An element in whose place the rewrite of the rule has other nodes. -/
def rewritten (texts : List Str) (e : Element) : Element := fun following s =>
  ((e following s).1.map fun _ => texts, (e following s).2)

/-- An exception leaves the elements after it out. -/
def elements : List Element → Element
  | [], _, s => (some [], s)
  | e :: es, following, s =>
      match e following s with
      | (some texts, s) =>
          ((elements es following s).1.map (texts ++ ·), (elements es following s).2)
      | (none, s) => (none, s)

/-- The end of a rule, where an exception is reported and tokens are consumed up to one that
    can follow. -/
def leave (following : List FollowSet) : Option (List Str) × State → State
  | (some _, s) => s
  | (none, s) => recover following (reportError s)

/-- After an exception an error node is the tree of the rule. -/
def rule (alternative : Element) : ParserRule := fun following s =>
  ((alternative following s).1.getD [errorNodeText], leave following (alternative following s))

/-- `FOLLOWPUSH`, the call of a rule, and `FOLLOWPOP`. -/
def call (follow : FollowSet) (r : ParserRule) : Element := fun following s =>
  (some (r (follow :: following) s).1, (r (follow :: following) s).2)

/-- The next token is one of those that a loop goes on with. -/
def State.at (s : State) (types : List TokenType) : Bool := s.next.any (types.contains ·)

/-- A loop, for at most `fuel` passes. -/
def loop (types : List TokenType) (e : Element) : Nat → Element
  | 0, _, s => (some [], s)
  | fuel + 1, following, s =>
      if s.at types then elements [e, loop types e fuel] following s else (some [], s)

/-- A bound on the passes of a loop: each takes a token or sets the error index to the token
    at which it failed. -/
def State.passes (s : State) : Nat :=
  2 * s.ahead.length + if s.lastErrorIndex = some s.ahead.length then 0 else 1

/-- `(e)*` -/
def zeroOrMore (types : List TokenType) (e : Element) : Element := fun following s =>
  loop types e (s.passes + 1) following s

/-- `(e)+`, which exits early with an exception if there is no pass. -/
def oneOrMore (types : List TokenType) (e : Element) : Element := fun following s =>
  if s.at types then zeroOrMore types e following s else (none, s)

end RepositoryManager.BaseRecognizer
