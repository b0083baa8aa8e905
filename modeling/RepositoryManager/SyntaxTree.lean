import RepositoryManager.Printing
import RepositoryManager.RecoveringParser

/-! # The tree of a credential

What the rules add to the tree on the tokens of a derivation. Read in front of anything,
the tokens of a credential leave the child list of `Grammar`, with every marker that the
rewrites put in it, and the walker finds the credential again.
-/

namespace RepositoryManager.RecoveringParser

open ByteString BaseRecognizer Grammar
open Lexer (Token TokenType)

/-- In front of tokens that do not begin with one of `ends`, at which a loop would go on, the
    element takes the tokens `shown` and leaves `texts`. -/
def Leaves (ends : List TokenType) (e : Element) (shown : List Token) (texts : List Str) : Prop :=
  ∀ following s rest, s.errorRecovery = false → s.ahead = shown ++ rest →
    goesOn ends (Parser.typesOf rest) = false → e following s = (some texts, { s with ahead := rest })

variable {ends ends' : List TokenType} {e : Element} {es : List Element} {a b : List Token}
  {t u : List Str}

/-! ## Elements -/

theorem Leaves.of_eq (leaves : Leaves ends e a t) (shown : a = b) (texts : t = u) :
    Leaves ends e b u := by
  subst shown texts
  exact leaves

theorem goesOn_nil (ts : List TokenType) : goesOn [] ts = false := by
  cases ts <;> rfl

theorem leaves_match {type : TokenType} {follow : FollowSet} {x : Token} (same : x.type = type) :
    Leaves [] (matchToken type follow) [x] [x.text] := by
  intro following s rest quiet ahead _
  simp only [matchToken, ahead, List.singleton_append, same, if_true, ← quiet]

theorem leaves_rewritten (texts : List Str) (leaves : Leaves ends e a t) :
    Leaves ends (rewritten texts e) a texts := by
  intro following s rest quiet ahead apart
  simp [rewritten, leaves following s rest quiet ahead apart]

theorem leaves_nil : Leaves ends (elements []) [] [] := by
  intro following s rest quiet ahead _
  rw [List.nil_append] at ahead
  subst ahead
  rfl

theorem leaves_cons (first : Leaves ends e a t) (others : Leaves ends' (elements es) b u)
    (apart : ∀ rest, goesOn ends' (Parser.typesOf rest) = false →
      goesOn ends (Parser.typesOf (b ++ rest)) = false) :
    Leaves ends' (elements (e :: es)) (a ++ b) (t ++ u) := by
  intro following s rest quiet ahead behind
  rw [List.append_assoc] at ahead
  have here := first following s (b ++ rest) quiet ahead (apart rest behind)
  have later := others following { s with ahead := b ++ rest } rest quiet rfl behind
  simp only [elements, here, later, Option.map_some]

theorem leaves_next (first : Leaves [] e a t) (others : Leaves ends (elements es) b u) :
    Leaves ends (elements (e :: es)) (a ++ b) (t ++ u) :=
  leaves_cons first others fun _ _ => goesOn_nil _

theorem leaves_until {x : Token} (stop : x.type ∉ ends) (first : Leaves ends e a t)
    (others : Leaves [] (elements es) (x :: b) u) :
    Leaves [] (elements (e :: es)) (a ++ x :: b) (t ++ u) :=
  leaves_cons first others fun rest _ => by simp [goesOn, Parser.typesOf, stop]

theorem leaves_call {follow : FollowSet} (leaves : Leaves ends e a t) :
    Leaves ends (call follow (rule e)) a t := by
  intro following s rest quiet ahead apart
  simp only [call, rule, leaves (follow :: following) s rest quiet ahead apart]
  rfl

section Loops

variable {X : Type} {types : List TokenType} {shown : X → List Token} {texts : X → List Str}
  {items : List X} (each : ∀ x ∈ items, Leaves [] e (shown x) (texts x))
  (starts : ∀ x rest, goesOn types (Parser.typesOf (shown x ++ rest)) = true)

include each starts

theorem leaves_loop (fuel : Nat) (enough : items.length ≤ fuel) :
    Leaves types (loop types e fuel) (items.flatMap shown) (items.flatMap texts) := by
  induction items generalizing fuel with
  | nil =>
      intro following s rest quiet ahead apart
      rw [List.flatMap_nil, List.nil_append] at ahead
      subst ahead
      cases fuel with
      | zero => rfl
      | succ fuel =>
          rw [loop, at_eq, apart, if_neg Bool.false_ne_true]
          rfl
  | cons x items ih =>
      intro following s rest quiet ahead apart
      obtain ⟨fuel, rfl⟩ : ∃ f, fuel = f + 1 := ⟨fuel - 1, by simp at enough; omega⟩
      have others := ih (fun y member => each y (List.mem_cons_of_mem _ member)) fuel
        (by simpa using enough)
      have pass := leaves_next (each x List.mem_cons_self)
        (leaves_cons others leaves_nil fun _ behind => behind)
      rw [List.append_nil, List.append_nil] at pass
      have goes : s.at types = true := by
        rw [at_eq, ahead, List.flatMap_cons, List.append_assoc]
        exact starts x _
      rw [loop, goes, if_pos rfl]
      exact pass following s rest quiet ahead apart

theorem leaves_zeroOrMore :
    Leaves types (zeroOrMore types e) (items.flatMap shown) (items.flatMap texts) := by
  intro following s rest quiet ahead apart
  refine leaves_loop each starts (s.passes + 1) ?_ following s rest quiet ahead apart
  have nonempty : ∀ x, 1 ≤ (shown x).length := by
    intro x
    have first := starts x []
    cases none : shown x with
    | nil => simp [none, goesOn, Parser.typesOf] at first
    | cons => simp
  have many : items.length ≤ (items.flatMap shown).length := by
    clear each ahead
    induction items with
    | nil => exact Nat.le_refl _
    | cons x items ih =>
        have here := nonempty x
        simp only [List.length_cons, List.flatMap_cons, List.length_append]
        omega
  have whole : s.ahead.length = (items.flatMap shown).length + rest.length := by
    rw [ahead, List.length_append]
  unfold State.passes
  omega

theorem leaves_oneOrMore (some_item : items ≠ []) :
    Leaves types (oneOrMore types e) (items.flatMap shown) (items.flatMap texts) := by
  intro following s rest quiet ahead apart
  have goes : s.at types = true := by
    obtain ⟨x, others, rfl⟩ := List.exists_cons_of_ne_nil some_item
    rw [at_eq, ahead, List.flatMap_cons, List.append_assoc]
    exact starts x _
  rw [oneOrMore, goes, if_pos rfl]
  exact leaves_zeroOrMore each starts following s rest quiet ahead apart

end Loops

/-! ## Keys and times -/

theorem leaves_text {follow : FollowSet} (x : Text) :
    Leaves [] (call follow text) [x.token] [x.chars] :=
  leaves_call (leaves_match rfl)

theorem leaves_num {follow : FollowSet} (n : Grammar.Num) :
    Leaves [] (call follow num) [n.token] [n.chars] :=
  leaves_call (leaves_match rfl)

theorem leaves_word {follow : FollowSet} (type : TokenType) :
    Leaves [] (matchToken type follow) [word type] [Lexer.literal type] :=
  leaves_match rfl

theorem leaves_base64 {follow : FollowSet} {lines : List Text} (some_line : lines ≠ []) :
    Leaves [.text] (call follow base64) (lines.map Text.token) (lines.map Text.chars) := by
  have loop : Leaves [.text] (oneOrMore [.text] (call ⟨[.text], true⟩ text))
      (lines.flatMap fun x => [x.token]) (lines.flatMap fun x => [x.chars]) :=
    leaves_oneOrMore (fun x _ => leaves_text x) (fun _ _ => rfl) some_line
  rw [← List.map_eq_flatMap, ← List.map_eq_flatMap] at loop
  exact leaves_call loop

theorem leaves_publicKey {follow : FollowSet} {key : List Text} (some_line : key ≠ []) :
    Leaves [] (call follow publicKey) (publicKeyShown key) (publicKeyChildren key) := by
  refine leaves_call (Leaves.of_eq (leaves_next (leaves_word .publicKeyHeader) <|
    leaves_until ?_ (leaves_base64 some_line) <|
    leaves_next (leaves_word .publicKeyEnd) leaves_nil) rfl rfl)
  decide

theorem leaves_signature {follow : FollowSet} {lines : List Text} (some_line : lines ≠ []) :
    Leaves [] (call follow signature) (signatureShown lines) (signatureChildren lines) := by
  refine leaves_call (Leaves.of_eq (leaves_next (leaves_word .signatureHeader) <|
    leaves_until ?_ (leaves_base64 some_line) <|
    leaves_next (leaves_word .signatureEnd) leaves_nil) rfl rfl)
  decide

theorem leaves_timeTuple {follow : FollowSet} (x : TimeTuple) :
    Leaves [] (call follow timeTuple) x.shown x.tokens :=
  leaves_call <| leaves_next (leaves_word _) <| leaves_next (leaves_word _) <|
    leaves_next (leaves_num x.year) <| leaves_next (leaves_word _) <|
    leaves_next (leaves_num x.month) <| leaves_next (leaves_word _) <|
    leaves_next (leaves_num x.day) <| leaves_next (leaves_word _) <|
    leaves_next (leaves_num x.hour) <| leaves_next (leaves_word _) <|
    leaves_next (leaves_num x.minute) <| leaves_next (leaves_word _) <|
    leaves_next (leaves_num x.second) <| leaves_next (leaves_word _) <|
    leaves_next (leaves_word _) leaves_nil

theorem leaves_validity {follow : FollowSet} (start stop : TimeTuple) :
    Leaves [] (call follow validity) (validityShown start stop) (validityChildren start stop) := by
  refine leaves_call (Leaves.of_eq
    (leaves_next (leaves_rewritten [] (leaves_word .validityHeader)) <|
    leaves_next (leaves_rewritten [startTimeS] (leaves_word .notBefore)) <|
    leaves_next (leaves_timeTuple start) <|
    leaves_next (leaves_rewritten [stopTimeS] (leaves_word .notAfter)) <|
    leaves_next (leaves_timeTuple stop) <|
    leaves_next (leaves_rewritten [] (leaves_word .validityEnd)) leaves_nil) ?_ ?_)
  · simp [validityShown]
  · simp [validityChildren]

/-! ## Clauses -/

theorem leaves_moreTexts (args : List Text) :
    Leaves [.comma] moreTexts (args.flatMap fun a => [word .comma, a.token])
      (args.flatMap fun a => [[','], a.chars]) :=
  leaves_zeroOrMore
    (fun x _ => leaves_next (leaves_word .comma) (leaves_next (leaves_text x) leaves_nil))
    fun _ _ => rfl

theorem leaves_predicate {follow : FollowSet} (p : Predicate) :
    Leaves [] (call follow predicate) p.shown p.tokens := by
  refine leaves_call (Leaves.of_eq (leaves_next (leaves_text p.name) <|
    leaves_next (leaves_word .openParen) <| leaves_next (leaves_text p.arg) <|
    leaves_until ?_ (leaves_moreTexts p.args) <| leaves_next (leaves_word .closeParen) leaves_nil)
    ?_ ?_)
  · decide
  · simp [Predicate.shown]
  · simp [Predicate.tokens, Lexer.literal]

theorem leaves_literal {follow : FollowSet} (l : Literal) :
    Leaves [] (call follow literal) l.shown l.tokens := by
  refine leaves_call fun following s rest quiet ahead apart => ?_
  cases l with
  | predicate p =>
      have next : s.next = some .text := by
        rw [State.next, ahead]
        rfl
      simp only [next]
      exact leaves_predicate p following s rest quiet ahead apart
  | saysThat speaker p =>
      have next : s.next = some .saysWord := by
        rw [State.next, ahead]
        rfl
      simp only [next]
      refine Leaves.of_eq (e := saysThat) (leaves_next (leaves_word .saysWord) <|
        leaves_next (leaves_word .openParen) <| leaves_next (leaves_text speaker) <|
        leaves_next (leaves_word .comma) <| leaves_next (leaves_predicate p) <|
        leaves_next (leaves_word .closeParen) leaves_nil) ?_ ?_ following s rest quiet ahead apart
      · simp [Literal.shown]
      · simp only [Literal.tokens, List.append_assoc, List.append_nil]
        rfl

theorem leaves_moreLiterals (more : List Literal) :
    Leaves [.comma] moreLiterals (more.flatMap fun l => word .comma :: l.shown)
      (more.flatMap fun l => [','] :: l.tokens) := by
  refine leaves_zeroOrMore (fun l _ => ?_) fun _ _ => rfl
  exact Leaves.of_eq (leaves_next (leaves_word .comma) (leaves_next (leaves_literal l) leaves_nil))
    (by simp) (by simp [Lexer.literal])

theorem leaves_fact (head : Literal) :
    Leaves [] fact (Clause.fact head).shown (Clause.fact head).tokens :=
  leaves_next (leaves_literal head) (leaves_next (leaves_word .stop) leaves_nil)

theorem leaves_implication (head first : Literal) (more : List Literal) :
    Leaves [] implication (Clause.rule head first more).shown
      (Clause.rule head first more).tokens := by
  refine Leaves.of_eq (leaves_next (leaves_literal head) <|
    leaves_next (leaves_word .implies) <| leaves_next (leaves_literal first) <|
    leaves_until ?_ (leaves_moreLiterals more) <| leaves_next (leaves_word .stop) leaves_nil) ?_ ?_
  · decide
  · simp [Clause.shown]
  · simp only [Clause.tokens, List.append_assoc, List.append_nil]
    rfl

theorem leaves_clause {follow : FollowSet} (c : Clause) :
    Leaves [] (call follow clause) c.shown c.tokens := by
  refine leaves_call fun following s rest quiet ahead apart => ?_
  cases c with
  | fact head =>
      have types : Parser.typesOf s.ahead =
          Parser.typesOf head.shown ++ .stop :: Parser.typesOf rest := by
        rw [ahead, Clause.shown, Parser.typesOf_append, Parser.typesOf_append, List.append_assoc]
        rfl
      simp only [types, Parser.predict_fact]
      exact leaves_fact head following s rest quiet ahead apart
  | rule head first more =>
      have types : Parser.typesOf s.ahead = Parser.typesOf head.shown ++ .implies ::
          (Parser.typesOf first.shown ++ (Parser.moreTypes more ++ .stop :: Parser.typesOf rest)) := by
        rw [ahead, Clause.shown]
        simp only [Parser.typesOf_append, List.append_assoc]
        rfl
      simp only [types, Parser.predict_rule]
      exact leaves_implication head first more following s rest quiet ahead apart

theorem leaves_clauses {clauses : List Clause} (some_clause : clauses ≠ []) :
    Leaves [.text, .saysWord] (oneOrMore [.text, .saysWord]
        (call ⟨[.text, .saysWord, .validityHeader], false⟩ clause))
      (clauses.flatMap Clause.shown) (clauses.flatMap Clause.tokens) := by
  refine leaves_oneOrMore (fun c _ => leaves_clause c) (fun c rest => ?_) some_clause
  obtain ⟨type, types, same, first⟩ := Parser.clause_head c
  rw [Parser.typesOf_append, same]
  rcases first with rfl | rfl <;> rfl

/-! ## Credentials -/

theorem leaves_certificate {follow : FollowSet} {c : Grammar.Certificate} (some_line : c.key ≠ [])
    (some_signature : c.signature ≠ []) :
    Leaves [] (call follow certificate) c.shown c.children := by
  refine leaves_call (Leaves.of_eq
    (leaves_next (leaves_rewritten [certS, clauseS] (leaves_word .certHeader)) <|
    leaves_cons (leaves_clauses c.someClause) (leaves_next (leaves_validity c.start c.stop) <|
    leaves_next (leaves_publicKey some_line) <| leaves_next (leaves_signature some_signature) <|
    leaves_next (leaves_rewritten [endCertS] (leaves_word .certEnd)) leaves_nil) ?_) ?_ ?_)
  · exact fun _ _ => rfl
  · simp [Grammar.Certificate.shown]
  · simp [Grammar.Certificate.children]

theorem leaves_certificates {certs : List Grammar.Certificate}
    (lines : ∀ cert ∈ certs, cert.key ≠ [] ∧ cert.signature ≠ []) :
    Leaves [.certHeader]
      (zeroOrMore [.certHeader] (call ⟨[.certHeader, .credentialEnd], false⟩ certificate))
      (certs.flatMap Grammar.Certificate.shown) (certs.flatMap Grammar.Certificate.children) :=
  leaves_zeroOrMore
    (fun cert member => leaves_certificate (lines cert member).1 (lines cert member).2)
    fun _ _ => rfl

/-- The tokens of a derived credential, in front of anything, give the child list that the
    rewrites make of it, and no error. -/
theorem parse_shown {c : Grammar.Credential} (derived : Parser.Derived c) (rest : List Token) :
    parse (c.shown ++ rest) = ({ text := credentialS, children := c.children }, .new rest) := by
  have leaves : Leaves [] (elements (credentialFront ++ [credentialEnd])) c.shown c.children := by
    refine Leaves.of_eq
      (leaves_next (leaves_rewritten [] (leaves_word .credentialHeader)) <|
      leaves_next (leaves_publicKey derived.key) <|
      leaves_until ?_ (leaves_certificates derived.certificates) <|
      leaves_next (leaves_rewritten [endS] (leaves_word .credentialEnd)) leaves_nil) ?_ ?_
    · decide
    · simp [Grammar.Credential.shown]
    · simp [Grammar.Credential.children]
  have read := leaves [] (.new (c.shown ++ rest)) rest rfl rfl (goesOn_nil _)
  simp only [parse, credential, read]
  rfl

end RepositoryManager.RecoveringParser

namespace RepositoryManager

open ByteString Scanner Lexer Grammar RecoveringParser

/-! ## The tokens of a message -/

theorem matchs_some {s w rest : Str} (matched : matchs s w = .matched () rest) : w = s ++ rest := by
  induction s generalizing w with
  | nil =>
      cases matched
      rfl
  | cons c s ih =>
      rw [matchs] at matched
      split at matched
      · next first =>
          obtain ⟨w, rfl⟩ := List.head?_eq_some_iff.mp first
          exact congrArg (c :: ·) (ih matched)
      · cases matched

theorem rule_of_mTokens {type : TokenType} {w rest : Str} (matched : mTokens w = .matched type rest) :
    Lexer.rule type w = .matched () rest := by
  unfold mTokens at matched
  split at matched
  · split at matched
    · split at matched
      · next called =>
          cases matched
          exact called
      · cases matched
    · cases matched
  · cases matched
  · cases matched

theorem fromGrammar_of_pass {w rest : Str} {t : Token} (pass : lexPass w = some (.token t, rest))
    (shown : t.channel = defaultChannel) : FromGrammar t := by
  have matched : ∃ type, Lexer.rule type w = .matched () rest ∧ t = emit type w rest := by
    unfold lexPass at pass
    split at pass
    · cases pass
    · split at pass
      · next called =>
          cases pass
          exact ⟨_, rule_of_mTokens called, rfl⟩
      · cases pass
  obtain ⟨type, matched, rfl⟩ := matched
  have literals : ∀ {s : Str}, w = s ++ rest → type ≠ .ws → emit type w rest = .shown type s := by
    rintro s rfl visible
    exact emit_shown visible
  cases type with
  | ws => exact absurd shown (by decide : hiddenChannel ≠ defaultChannel)
  | num =>
      cases matched
      rw [literals (List.takeWhile_append_dropWhile (p := Char.isDigit)).symm (by decide)]
      exact .num ⟨_, fun c member => List.mem_takeWhile_imp member⟩
  | text =>
      cases matched
      rw [literals (List.takeWhile_append_dropWhile (p := isTextChar)).symm (by decide)]
      exact .text ⟨_, fun c member => List.mem_takeWhile_imp member⟩
  | _ =>
      rw [literals (matchs_some matched) (by decide)]
      exact .word (by decide)

theorem fromGrammar_of_shows {msg : Str} {ts : List Token} (shows : Shows msg ts) :
    ∀ t ∈ ts, FromGrammar t := by
  obtain ⟨events, run, rfl⟩ := shows
  induction run with
  | finish => exact List.forall_mem_nil _
  | @more w rest e events first _ ih =>
      cases e with
      | error => exact ih
      | token t =>
          rw [visible]
          split
          · next shown => exact List.forall_mem_cons.mpr ⟨fromGrammar_of_pass first shown, ih⟩
          · exact ih

/-! ## The credential in the tokens -/

def Lexed (ts : List Token) : Prop := ∀ t ∈ ts, FromGrammar t

/-- Tokens with the types of a phrase are a phrase: the one of `shown` that has their texts. -/
def Refills {X : Type} (types : List TokenType) (shown : X → List Token) : Prop :=
  ∀ us rest, Lexed us → Parser.typesOf us = types ++ rest →
    ∃ x vs, us = shown x ++ vs ∧ Lexed vs ∧ Parser.typesOf vs = rest

variable {X Y : Type} {types types' : List TokenType} {f : X → List Token} {g : Y → List Token}

theorem Refills.of (refills : Refills types f) (make : X → Y) (sameTypes : types = types')
    (same : ∀ x, f x = g (make x)) : Refills types' g := by
  subst sameTypes
  intro us rest known here
  obtain ⟨x, vs, rfl, known, later⟩ := refills us rest known here
  exact ⟨make x, vs, by rw [same], known, later⟩

theorem refills_nil : Refills [] fun _ : Unit => [] :=
  fun us _ known same => ⟨(), us, rfl, known, same⟩

theorem refills_append (first : Refills types f) (second : Refills types' g) :
    Refills (types ++ types') fun xy : X × Y => f xy.1 ++ g xy.2 := by
  intro us rest known same
  rw [List.append_assoc] at same
  obtain ⟨x, vs, rfl, known, same⟩ := first us _ known same
  obtain ⟨y, ws, rfl, known, same⟩ := second vs _ known same
  exact ⟨(x, y), ws, (List.append_assoc _ _ _).symm, known, same⟩

theorem refills_list {form : X → List TokenType} (xs : List X)
    (each : ∀ x ∈ xs, Refills (form x) g) :
    Refills (xs.flatMap form) fun ys : { ys : List Y // ys.length = xs.length } =>
      ys.val.flatMap g := by
  induction xs with
  | nil => exact refills_nil.of (fun _ => ⟨[], rfl⟩) rfl fun _ => rfl
  | cons x xs ih =>
      have others := ih fun x member => each x (List.mem_cons_of_mem _ member)
      refine (refills_append (each x List.mem_cons_self) others).of
        (fun yz => ⟨yz.1 :: yz.2.val, congrArg (· + 1) yz.2.property⟩) rfl fun _ => rfl

theorem refills_token {type : TokenType}
    (read : ∀ t, FromGrammar t → t.type = type → ∃ x, [t] = f x) : Refills [type] f := by
  intro us rest known same
  obtain ⟨t, vs, rfl, here, later⟩ := List.map_eq_cons_iff.mp same
  obtain ⟨first, others⟩ := List.forall_mem_cons.mp known
  obtain ⟨x, shown⟩ := read t first here
  exact ⟨x, vs, by rw [← shown]; rfl, others, later⟩

theorem refills_word (type : TokenType) (isLiteral : type ∉ [.ws, .num, .text]) :
    Refills [type] fun _ : Unit => [word type] := by
  refine refills_token fun t token same => ⟨(), ?_⟩
  cases token with
  | word => cases same; rfl
  | text x => subst same; exact absurd (by simp [Text.token, Token.shown]) isLiteral
  | num n => subst same; exact absurd (by simp [Num.token, Token.shown]) isLiteral

theorem refills_text : Refills [.text] fun x : Text => [x.token] := by
  refine refills_token fun t token same => ?_
  cases token with
  | @word type isLiteral =>
      have same : type = .text := same
      exact absurd (by simp [same]) isLiteral
  | text x => exact ⟨x, rfl⟩
  | num n => cases same

theorem refills_num : Refills [.num] fun n : Grammar.Num => [n.token] := by
  refine refills_token fun t token same => ?_
  cases token with
  | @word type isLiteral =>
      have same : type = .num := same
      exact absurd (by simp [same]) isLiteral
  | text x => cases same
  | num n => exact ⟨n, rfl⟩

theorem refills_lines (header footer : TokenType) (isHeader : header ∉ [.ws, .num, .text])
    (isFooter : footer ∉ [.ws, .num, .text]) {lines : List Text} (some_line : lines ≠ []) :
    Refills (Parser.typesOf (word header :: lines.map Text.token ++ [word footer]))
      fun lines : { lines : List Text // lines ≠ [] } =>
        word header :: lines.val.map Text.token ++ [word footer] := by
  have parts := refills_append (refills_word header isHeader) <|
    refills_append (refills_list lines fun _ _ => refills_text) <| refills_word footer isFooter
  refine parts.of (fun x => ⟨x.2.1.val, ?_⟩) ?_ fun x => ?_
  · rw [← List.length_pos_iff, x.2.1.property]
    exact List.length_pos_iff.mpr some_line
  · simp [Parser.typesOf, word, Token.shown, Text.token, ← List.map_eq_flatMap, Function.comp_def]
  · simp [← List.map_eq_flatMap]

theorem refills_timeTuple (x : TimeTuple) : Refills (Parser.typesOf x.shown) TimeTuple.shown := by
  have number (type : TokenType) (isLiteral : type ∉ [.ws, .num, .text]) :=
    refills_append refills_num (refills_word type isLiteral)
  have parts := refills_append (refills_word .datime (by decide)) <|
    refills_append (refills_word .openParen (by decide)) <|
    refills_append (number .comma (by decide)) <| refills_append (number .comma (by decide)) <|
    refills_append (number .comma (by decide)) <| refills_append (number .comma (by decide)) <|
    refills_append (number .comma (by decide)) <| refills_append (number .closeParen (by decide)) <|
    refills_word .stop (by decide)
  exact parts.of (fun ⟨_, _, (year, _), (month, _), (day, _), (hour, _), (minute, _), (second, _),
    _⟩ => ⟨year, month, day, hour, minute, second⟩) rfl fun _ => rfl

theorem refills_validity (start stop : TimeTuple) :
    Refills (Parser.typesOf (validityShown start stop))
      fun x : TimeTuple × TimeTuple => validityShown x.1 x.2 := by
  have parts := refills_append (refills_word .validityHeader (by decide)) <|
    refills_append (refills_word .notBefore (by decide)) <|
    refills_append (refills_timeTuple start) <|
    refills_append (refills_word .notAfter (by decide)) <|
    refills_append (refills_timeTuple stop) <| refills_word .validityEnd (by decide)
  exact parts.of (fun x => (x.2.2.1, x.2.2.2.2.1)) rfl fun _ => rfl

theorem refills_predicate (p : Predicate) : Refills (Parser.typesOf p.shown) Predicate.shown := by
  have more := refills_list p.args fun _ _ =>
    refills_append (refills_word .comma (by decide)) refills_text
  have parts := refills_append refills_text <|
    refills_append (refills_word .openParen (by decide)) <| refills_append refills_text <|
    refills_append more <| refills_word .closeParen (by decide)
  refine parts.of (fun ⟨name, _, arg, args, _⟩ => ⟨name, arg, args.val.map Prod.snd⟩) ?_ fun x => ?_
  · simp [Predicate.shown, Parser.typesOf, List.map_flatMap, word, Token.shown, Text.token]
  · simp [Predicate.shown, List.flatMap_map]

theorem refills_literal (l : Literal) : Refills (Parser.typesOf l.shown) Literal.shown := by
  cases l with
  | predicate p => exact (refills_predicate p).of .predicate rfl fun _ => rfl
  | saysThat speaker p =>
      have parts := refills_append (refills_word .saysWord (by decide)) <|
        refills_append (refills_word .openParen (by decide)) <|
        refills_append refills_text <| refills_append (refills_word .comma (by decide)) <|
        refills_append (refills_predicate p) <| refills_word .closeParen (by decide)
      refine parts.of (fun ⟨_, _, speaker, _, p, _⟩ => .saysThat speaker p) ?_ fun x => ?_
      · simp [Literal.shown, Parser.typesOf, word, Token.shown, Text.token]
      · simp [Literal.shown]

theorem refills_clause (c : Clause) : Refills (Parser.typesOf c.shown) Clause.shown := by
  cases c with
  | fact head =>
      refine (refills_append (refills_literal head) (refills_word .stop (by decide))).of
        (fun x => .fact x.1) ?_ fun _ => rfl
      rw [Clause.shown, Parser.typesOf_append]
      rfl
  | rule head first more =>
      have others := refills_list more fun l _ =>
        refills_append (refills_word .comma (by decide)) (refills_literal l)
      have parts := refills_append (refills_literal head) <|
        refills_append (refills_word .implies (by decide)) <|
        refills_append (refills_literal first) <| refills_append others <|
        refills_word .stop (by decide)
      refine parts.of (fun x => .rule x.1 x.2.2.1 (x.2.2.2.1.val.map Prod.snd)) ?_ fun x => ?_
      · simp [Clause.shown, Parser.typesOf, List.map_flatMap, word, Token.shown]
      · simp [Clause.shown, List.flatMap_map]

theorem refills_certificate {c : Grammar.Certificate} (some_key : c.key ≠ [])
    (some_signature : c.signature ≠ []) :
    Refills (Parser.typesOf c.shown)
      fun c : { c : Grammar.Certificate // c.key ≠ [] ∧ c.signature ≠ [] } => c.val.shown := by
  have parts := refills_append (refills_word .certHeader (by decide)) <|
    refills_append (refills_list c.clauses fun clause _ => refills_clause clause) <|
    refills_append (refills_validity c.start c.stop) <|
    refills_append (refills_lines .publicKeyHeader .publicKeyEnd (by decide)
      (by decide) some_key) <|
    refills_append (refills_lines .signatureHeader .signatureEnd (by decide)
      (by decide) some_signature) <| refills_word .certEnd (by decide)
  refine parts.of (fun ⟨_, clauses, times, key, signature, _⟩ => ⟨⟨clauses.val, times.1, times.2,
    key.val, signature.val, ?_⟩, key.property, signature.property⟩) ?_ fun x => ?_
  · rw [← List.length_pos_iff, clauses.property]
    exact List.length_pos_iff.mpr c.someClause
  · simp [Grammar.Certificate.shown, publicKeyShown, signatureShown, Parser.typesOf,
      List.map_flatMap, word, Token.shown]
  · simp [Grammar.Certificate.shown, publicKeyShown, signatureShown]

theorem refills_credential {c : Grammar.Credential} (derived : Parser.Derived c) :
    Refills (Parser.typesOf c.shown)
      fun c : { c : Grammar.Credential // Parser.Derived c } => c.val.shown := by
  have certs := refills_list c.certificates fun cert member =>
    refills_certificate (derived.certificates cert member).1 (derived.certificates cert member).2
  have parts := refills_append (refills_word .credentialHeader (by decide)) <|
    refills_append (refills_lines .publicKeyHeader .publicKeyEnd (by decide)
      (by decide) derived.key) <|
    refills_append certs <| refills_word .credentialEnd (by decide)
  refine parts.of (fun ⟨_, key, certs, _⟩ => ⟨⟨key.val, certs.val.map Subtype.val⟩, key.property,
    ?_⟩) ?_ fun x => ?_
  · intro cert member
    obtain ⟨inner, -, rfl⟩ := List.mem_map.mp member
    exact inner.property
  · simp [Grammar.Credential.shown, publicKeyShown, Parser.typesOf, List.map_flatMap, word,
      Token.shown]
  · simp [Grammar.Credential.shown, publicKeyShown]

theorem derives_iff {ts : List Token} (lexed : Lexed ts) :
    Parser.Derives ts ↔ ∃ c rest, Parser.Derived c ∧ ts = c.shown ++ rest := by
  constructor
  · rintro ⟨form, derived, types, same⟩
    obtain ⟨c, rest, rfl, -, -⟩ := refills_credential derived ts types lexed same.symm
    exact ⟨c.val, rest, c.property, rfl⟩
  · rintro ⟨c, rest, derived, rfl⟩
    exact ⟨c, derived, by rw [Parser.typesOf_append]; exact List.prefix_append _ _⟩

/-- The parser reports no error on the tokens of a message exactly if they begin with those of
    a credential of the grammar, and then its tree is the rewrite of this credential. -/
theorem unreported_iff {msg : Str} {ts : List Token} (shows : Shows msg ts) :
    ((parse ts).2.errorCount = 0 ↔ ∃ c rest, Parser.Derived c ∧ ts = c.shown ++ rest) ∧
      ∀ c rest, Parser.Derived c → ts = c.shown ++ rest →
        parse ts = ({ text := credentialS, children := c.children }, .new rest) := by
  constructor
  · rw [parse_errors, derives_iff (fromGrammar_of_shows shows)]
  · rintro c rest derived rfl
    exact parse_shown derived rest

theorem bob_shown : Shows (print AstWalker.bobCredential.shown) AstWalker.bobCredential.shown := by
  have printable : Printable AstWalker.bobCredential := by
    unfold Printable Ordinary
    constructor <;> decide
  have kept := (kept_iff_printable AstWalker.bobCredential).mpr printable
  exact (clean_print (credential_tokens _) kept).shows

theorem unreported_iff_bob :
    ((parse AstWalker.bobCredential.shown).2.errorCount = 0 ↔
      ∃ c rest, Parser.Derived c ∧ AstWalker.bobCredential.shown = c.shown ++ rest) ∧
    ∀ c rest, Parser.Derived c → AstWalker.bobCredential.shown = c.shown ++ rest →
      parse AstWalker.bobCredential.shown =
        ({ text := credentialS, children := c.children }, .new rest) :=
  unreported_iff bob_shown

end RepositoryManager
