import RepositoryManager.Grammar
import RepositoryManager.LexerTables
import RepositoryManager.Lib.Scanner

/-! # The lexer

`RepositoryManagerLexer.c`, generated from `RepositoryManager.g`, and the parts of
`antlr3lexer.c` and `antlr3tokenstream.c` that drive it. The input is what is left
of the message.
-/

namespace RepositoryManager.Lexer

open ByteString

/-- The token types, in the order of the alternatives of `Tokens`. The first eight are
    `T__39` to `T__46`: `(`, `)`, `,`, `.`, `:-` and the three words of the grammar. -/
inductive TokenType where
  | openParen | closeParen | comma | stop | implies | datime | request | saysWord
  | ws | num | text
  | credentialHeader | credentialEnd | publicKeyHeader | publicKeyEnd
  | signatureHeader | signatureEnd | validityHeader | validityEnd
  | certHeader | certEnd | challengeHeader | challengeEnd | responseHeader | responseEnd
  | requestHeader | requestEnd | replyHeader | replyEnd
  | notBefore | notAfter
  deriving DecidableEq

/-- The alternatives of `mTokens`, from 1 on. -/
def alternatives : List TokenType :=
  [.openParen, .closeParen, .comma, .stop, .implies, .datime, .request, .saysWord, .ws, .num, .text,
   .credentialHeader, .credentialEnd, .publicKeyHeader, .publicKeyEnd, .signatureHeader,
   .signatureEnd, .validityHeader, .validityEnd, .certHeader, .certEnd, .challengeHeader,
   .challengeEnd, .responseHeader, .responseEnd, .requestHeader, .requestEnd, .replyHeader,
   .replyEnd, .notBefore, .notAfter]

/-- The characters that a rule made of one literal matches, `lit_1` to `lit_24`. -/
def literal : TokenType → Str
  | .openParen => ['(']
  | .closeParen => [')']
  | .comma => [',']
  | .stop => ['.']
  | .implies => lit1
  | .datime => lit2
  | .request => lit3
  | .saysWord => lit4
  | .ws | .num | .text => []
  | .credentialHeader => lit5
  | .credentialEnd => lit6
  | .publicKeyHeader => lit7
  | .publicKeyEnd => lit8
  | .signatureHeader => lit9
  | .signatureEnd => lit10
  | .validityHeader => lit11
  | .validityEnd => lit12
  | .certHeader => lit13
  | .certEnd => lit14
  | .challengeHeader => lit15
  | .challengeEnd => lit16
  | .responseHeader => lit17
  | .responseEnd => lit18
  | .requestHeader => lit19
  | .requestEnd => lit20
  | .replyHeader => lit21
  | .replyEnd => lit22
  | .notBefore => lit23
  | .notAfter => lit24

/-- A token, or a rule that gave up with an exception, and the input after it. -/
inductive Match (τ : Type) where
  | matched (value : τ) (rest : Str)
  | failed (rest : Str)

/-! ## The rules -/

/-- `matchs`, and `matchc` for one character. At a character that does not match, `recover`
    consumes it. -/
def matchs : Str → Str → Match Unit
  | [], w => .matched () w
  | c :: s, w => if w.head? = some c then matchs s w.tail else .failed w.tail

/-- The loop of `mWS`; `some_read` is `cnt1 >= 1`. The grammar has `'\r' '\u000C'` for a
    line end: a carriage return that no form feed follows makes `matchc` recover. -/
def wsLoop (some_read : Bool) : Str → Match Unit
  | ' ' :: w => wsLoop true w
  | '\t' :: w => wsLoop true w
  | '\n' :: w => wsLoop true w
  | '\r' :: '\x0c' :: w => wsLoop true w
  | '\r' :: w => .failed w.tail
  | w => if some_read then .matched () w else .failed w

def mWS (w : Str) : Match Unit := wsLoop false w

/-- `('0'..'9')*`, which matches no character at all if there is no digit. -/
def mNUM (w : Str) : Match Unit := .matched () (w.dropWhile Char.isDigit)

def mTEXT (w : Str) : Match Unit := .matched () (w.dropWhile Grammar.isTextChar)

/-- The rule of an alternative. -/
def rule : TokenType → Str → Match Unit
  | .ws => mWS
  | .num => mNUM
  | .text => mTEXT
  | type => matchs (literal type)

/-- The code of a character that `_LA` answers with. -/
def charCode (c : Char) : Int := c.toNat

/-- Predicts an alternative and calls its rule. -/
def mTokens (w : Str) : Match TokenType :=
  match cdfa4.predict charCode w with
  | .alt n =>
      match alternatives[n.toNat - 1]? with
      | some type =>
          match rule type w with
          | .matched _ rest => .matched type rest
          | .failed rest => .failed rest
      | none => .failed w
  | .noViableAlt => .failed w
  | .running => .failed w

/-! ## The tokens of a message -/

structure Token where
  type : TokenType
  channel : Nat
  text : Str
  deriving DecidableEq

def defaultChannel : Nat := 0

/-- The channel of `mWS`. -/
def hiddenChannel : Nat := 99

/-- A token on the channel that the parser reads. -/
def Token.shown (type : TokenType) (text : Str) : Token := ⟨type, defaultChannel, text⟩

/-- What one call of `mTokens` leads to: a token, or an error report. -/
inductive Event where
  | token (t : Token)
  | error
  deriving DecidableEq

/-- `emit`: the token from `w` up to `rest`. -/
def emit (type : TokenType) (w rest : Str) : Token :=
  { type := type
    channel := if type = .ws then hiddenChannel else defaultChannel
    text := w.take (w.length - rest.length) }

/-- One pass of the loop of `nextToken`: the test for the end of the input, the call of
    `mTokens`, and `emit`, or `reportError` and `recover`, which consumes a character. -/
def lexPass (w : Str) : Option (Event × Str) :=
  if w = [] then none
  else match mTokens w with
    | .matched type rest => some (.token (emit type w rest), rest)
    | .failed rest => some (.error, rest.tail)

/-- `fillBuffer` calls `nextToken` until the end of the input, and `nextToken` calls
    `mTokens` until there is a token; this is the loop of both, for at most `fuel` passes. -/
def fillBuffer (fuel : Nat) (w : Str) : Option (List Event) := Scanner.scan lexPass fuel w

/-- The tokens that the parser reads. -/
def visible : List Event → List Token
  | [] => []
  | .token t :: events => if t.channel = defaultChannel then t :: visible events else visible events
  | .error :: events => visible events

end RepositoryManager.Lexer
