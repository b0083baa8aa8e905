import RepositoryManager.BaseTree
import RepositoryManager.ParserCode

/-! # Building the tree

The rules of `RepositoryManagerParser.c` with the trees that they build. A rule adds its tokens
and the trees of the rules it calls to a nil node, or collects them in streams, from which its
rewrite builds the tree. For any tokens the tree of `credential` is the flat tree that
`RecoveringParser` gives.
-/

namespace RepositoryManager.TreeBuilding

open ByteString BaseRecognizer BaseTree ElementStream
open Lexer (Token TokenType)

/-- A part of a rule, with what the rule collects. -/
abbrev Builder (F : Type) := List FollowSet → State → F → Option F × State

/-- A rule with its tree, which may be a null pointer. -/
abbrev TreeRule := List FollowSet → State → Option BaseTree × State

def errorNode : BaseTree := createTypeText errorNodeText

section

variable {F : Type}

/-- `MATCHT`, and what is done with the text of the token. -/
def matchT (type : TokenType) (follow : FollowSet) (on : Str → F → F) : Builder F :=
  fun following s f =>
    ((matchToken type follow following s).1.map fun texts => on texts.flatten f,
      (matchToken type follow following s).2)

/-- The call of a rule, and what is done with its tree. -/
def callT (follow : FollowSet) (r : TreeRule) (on : Option BaseTree → F → F) : Builder F :=
  fun following s f =>
    (some (on (r (follow :: following) s).1 f), (r (follow :: following) s).2)

def doneT : Builder F := fun _ s f => (some f, s)

def thenT (b b' : Builder F) : Builder F := fun following s f =>
  match b following s f with
  | (some f, s) => b' following s f
  | (none, s) => (none, s)

def sequenceT : List (Builder F) → Builder F
  | [] => doneT
  | b :: bs => thenT b (sequenceT bs)

/-- A loop, for at most `fuel` passes. -/
def loopT (types : List TokenType) (b : Builder F) : Nat → Builder F
  | 0 => doneT
  | fuel + 1 => fun following s f =>
      if s.at types then thenT b (loopT types b fuel) following s f else (some f, s)

def zeroOrMoreT (types : List TokenType) (b : Builder F) : Builder F := fun following s f =>
  loopT types b (s.passes + 1) following s f

def oneOrMoreT (types : List TokenType) (b : Builder F) : Builder F := fun following s f =>
  if s.at types then zeroOrMoreT types b following s f else (none, s)

/-- The end of a rule that has raised an exception. -/
def failed (following : List FollowSet) (s : State) : Option BaseTree × State :=
  (some errorNode, recover following (reportError s))

/-- A rule without a rewrite. -/
def plain (b : Builder BaseTree) : TreeRule := fun following s =>
  match b following s (.nilNode []) with
  | (some root, s) => (rulePostProcessing (some root), s)
  | (none, s) => failed following s

/-- A rule with a rewrite, which may raise `RewriteEarlyExit`. -/
def rewriting (b : Builder F) (streams : F) (rewrite : F → BaseTree × Bool) : TreeRule :=
  fun following s =>
    match b following s streams with
    | (some f, s) =>
        if (rewrite f).2 then failed following s
        else (rulePostProcessing (some (rewrite f).1), s)
    | (none, s) => failed following s

end

/-- The code of a rule without a rewrite, with what it adds to the root. -/
def build : Code → Builder BaseTree
  | .done => doneT
  | .matchToken type follow =>
      matchT type follow fun text root => root.addChild (some (createTypeText text))
  | .call follow body => callT follow (plain (build body)) fun t root => root.addChild t
  | .rewritten _ body => build body
  | .seq first rest => thenT (build first) (build rest)
  | .star types body => zeroOrMoreT types (build body)
  | .plus types body => oneOrMoreT types (build body)
  | .switch type body type' body' => fun following s root =>
      if s.next = some type then build body following s root
      else if s.next = some type' then build body' following s root
      else (none, s)
  | .predict d body body' => fun following s root =>
      match d.predict Parser.typeCode (Parser.typesOf s.ahead) with
      | .alt 1 => build body following s root
      | .alt 2 => build body' following s root
      | _ => (none, s)

/-! ## The rules with a rewrite -/

/-- The loop of `-> (START_TIME time_tuple STOP_TIME time_tuple)+`. -/
def validityLoop (root : BaseTree) (timeTuple : ElementStream) : BaseTree :=
  if _more : timeTuple.hasNext then
    let start := timeTuple.nextTree
    let stop := start.2.nextTree
    let root := (root.addChild (some (createTypeText startTimeS))).addChild start.1
    validityLoop ((root.addChild (some (createTypeText stopTimeS))).addChild stop.1) stop.2
  else root
termination_by timeTuple.left
decreasing_by exact (left_nextTree_le _).trans_lt (left_nextTree_lt ‹_›)

def validityRewrite (timeTuple : ElementStream) : BaseTree × Bool :=
  if timeTuple.hasNext then (validityLoop (.nilNode []) timeTuple, false) else (.nilNode [], true)

/-- The streams of the tokens are never read. -/
def validityTree : TreeRule :=
  rewriting (sequenceT [matchT .validityHeader (.only .notBefore) fun _ s => s,
    matchT .notBefore (.only .datime) fun _ s => s,
    callT (.only .notAfter) (plain (build RecoveringParser.timeTupleCode)) fun t s => s.add t,
    matchT .notAfter (.only .datime) fun _ s => s,
    callT (.only .validityEnd) (plain (build RecoveringParser.timeTupleCode)) fun t s => s.add t,
    matchT .validityEnd .eor fun _ s => s]) .empty validityRewrite

structure CertificateStreams where
  clause : ElementStream
  validity : ElementStream
  publicKey : ElementStream
  signature : ElementStream

/-- The loop of `-> (CERT CLAUSE clause+ validity public_key signature END_CERT)+`. Without a
    clause it raises its exception and goes on. -/
def certificateLoop (root : BaseTree) (early : Bool) (s : CertificateStreams) :
    BaseTree × Bool :=
  if _more : s.validity.hasNext || s.publicKey.hasNext || s.signature.hasNext then
    let root := (root.addChild (some (createTypeText certS))).addChild
      (some (createTypeText clauseS))
    let clauses := if s.clause.hasNext then
        ((appendAll root s.clause).1, (appendAll root s.clause).2.reset, early)
      else (root, s.clause, true)
    let root := (clauses.1.addChild s.validity.nextTree.1).addChild s.publicKey.nextTree.1
    let root := (root.addChild s.signature.nextTree.1).addChild (some (createTypeText endCertS))
    certificateLoop root clauses.2.2
      ⟨clauses.2.1, s.validity.nextTree.2, s.publicKey.nextTree.2, s.signature.nextTree.2⟩
  else (root, early)
termination_by s.validity.left + s.publicKey.left + s.signature.left
decreasing_by
  have validity := left_nextTree_le s.validity
  have publicKey := left_nextTree_le s.publicKey
  have signature := left_nextTree_le s.signature
  rcases Bool.or_eq_true_iff.mp _more with more | more
  · rcases Bool.or_eq_true_iff.mp more with more | more
    · have := left_nextTree_lt more
      omega
    · have := left_nextTree_lt more
      omega
  · have := left_nextTree_lt more
    omega

def certificateRewrite (s : CertificateStreams) : BaseTree × Bool :=
  if s.validity.hasNext && s.publicKey.hasNext && s.signature.hasNext then
    certificateLoop (.nilNode []) false s
  else (.nilNode [], true)

def certificateTree : TreeRule :=
  rewriting (sequenceT [matchT .certHeader RecoveringParser.literalStart fun _ s => s,
    oneOrMoreT [.text, .saysWord] (callT ⟨[.text, .saysWord, .validityHeader], false⟩
      (plain (build RecoveringParser.clauseCode)) fun t s => { s with clause := s.clause.add t }),
    callT (.only .publicKeyHeader) validityTree
      fun t s => { s with validity := s.validity.add t },
    callT (.only .signatureHeader) (plain (build RecoveringParser.publicKeyCode))
      fun t s => { s with publicKey := s.publicKey.add t },
    callT (.only .certEnd) (plain (build RecoveringParser.signatureCode))
      fun t s => { s with signature := s.signature.add t },
    matchT .certEnd .eor fun _ s => s]) ⟨.empty, .empty, .empty, .empty⟩ certificateRewrite

structure CredentialStreams where
  publicKey : ElementStream
  certificate : ElementStream

/-- `-> ^(CREDENTIAL public_key certificate* END)` -/
def credentialRewrite (s : CredentialStreams) : BaseTree × Bool :=
  let root := becomeRoot (some (createTypeText credentialS)) (some (.nilNode []))
  ((BaseTree.nilNode []).addChild <| root.map fun root =>
    (appendAll (root.addChild s.publicKey.nextTree.1) s.certificate).1.addChild
      (some (createTypeText endS)), false)

def credentialParts : Builder CredentialStreams :=
  sequenceT [matchT .credentialHeader (.only .publicKeyHeader) fun _ s => s,
    callT ⟨[.certHeader, .credentialEnd], false⟩ (plain (build RecoveringParser.publicKeyCode))
      fun t s => { s with publicKey := s.publicKey.add t },
    zeroOrMoreT [.certHeader] (callT ⟨[.certHeader, .credentialEnd], false⟩ certificateTree
      fun t s => { s with certificate := s.certificate.add t }),
    matchT .credentialEnd .eor fun _ s => s]

def credentialTree : TreeRule :=
  rewriting credentialParts ⟨.empty, .empty⟩ credentialRewrite

/-! ## What is built -/

/-- From what it collects after `R`, the builder comes to `Q`, where the element comes to its
    texts. -/
def Builds {F : Type} (R : F → List Str → Prop) (b : Builder F) (e : Element)
    (Q : F → List Str → Prop) : Prop :=
  ∀ following s f seen, R f seen →
    (b following s f).2 = (e following s).2 ∧
      Option.Rel (fun f' texts => Q f' (seen ++ texts)) (b following s f).1 (e following s).1

/-- The rule leaves texts, and the tree is the list of them. -/
def Yields (r : TreeRule) (p : ParserRule) : Prop :=
  ∀ following s, r following s = (listTree (p following s).1, (p following s).2)

section

variable {F : Type} {R Q T : F → List Str → Prop} {b b' : Builder F} {e e' : Element}
  {types : List TokenType}

theorem matchToken_one (type : TokenType) (follow : FollowSet) (following : List FollowSet)
    (s : State) : (matchToken type follow following s).1 = none ∨
      ∃ x, (matchToken type follow following s).1 = some [x] := by
  have inserts : (insertMissing type follow following s).1 = none ∨
      ∃ x, (insertMissing type follow following s).1 = some [x] := by
    unfold insertMissing
    split
    · exact .inr ⟨_, rfl⟩
    · exact .inl rfl
  have mismatch : (recoverFromMismatchedToken type follow following s).1 = none ∨
      ∃ x, (recoverFromMismatchedToken type follow following s).1 = some [x] := by
    unfold recoverFromMismatchedToken
    split
    · split
      · exact .inr ⟨_, rfl⟩
      · exact inserts
    · exact inserts
  unfold matchToken
  split
  · split
    · exact .inr ⟨_, rfl⟩
    · exact mismatch
  · exact mismatch

theorem builds_matchT {type : TokenType} {follow : FollowSet} {on : Str → F → F}
    (keeps : ∀ f seen x, R f seen → Q (on x f) (seen ++ [x])) :
    Builds R (matchT type follow on) (matchToken type follow) Q := by
  intro following s f seen before
  refine ⟨rfl, ?_⟩
  rcases matchToken_one type follow following s with raised | ⟨x, matched⟩
  · simp only [matchT, raised]
    exact .none
  · simp only [matchT, matched]
    refine .some ?_
    show Q (on [x].flatten f) (seen ++ [x])
    rw [List.flatten_singleton]
    exact keeps f seen x before

theorem builds_rewritten {type : TokenType} {follow : FollowSet} {on : Str → F → F}
    {texts : List Str} (keeps : ∀ f seen x, R f seen → Q (on x f) (seen ++ texts)) :
    Builds R (matchT type follow on) (rewritten texts (matchToken type follow)) Q := by
  intro following s f seen before
  refine ⟨rfl, ?_⟩
  rcases matchToken_one type follow following s with raised | ⟨x, matched⟩
  · simp only [matchT, rewritten, raised]
    exact .none
  · simp only [matchT, rewritten, matched]
    refine .some ?_
    exact keeps f seen _ before

theorem builds_callT {follow : FollowSet} {r : TreeRule} {p : ParserRule}
    {on : Option BaseTree → F → F} (yields : Yields r p)
    (keeps : ∀ f seen following s, R f seen →
      Q (on (listTree (p following s).1) f) (seen ++ (p following s).1)) :
    Builds R (callT follow r on) (call follow p) Q := by
  intro following s f seen before
  unfold callT call
  rw [yields]
  exact ⟨rfl, .some (keeps f seen _ s before)⟩

theorem builds_doneT : Builds R doneT (elements []) R := by
  intro following s f seen before
  refine ⟨rfl, .some ?_⟩
  rw [List.append_nil]
  exact before

theorem builds_thenT (first : Builds R b e Q) (rest : Builds Q b' e' T) :
    Builds R (thenT b b') (andThen e e') T := by
  intro following s f seen before
  obtain ⟨same, related⟩ := first following s f seen before
  generalize made : b following s f = out at same related
  generalize read : e following s = out' at same related
  obtain ⟨got, s'⟩ := out
  obtain ⟨texts, s''⟩ := out'
  obtain rfl : s' = s'' := same
  cases related with
  | none =>
      simp only [thenT, andThen, made, read]
      exact ⟨trivial, .none⟩
  | @some f' texts after =>
      obtain ⟨same, related⟩ := rest following s' f' _ after
      simp only [thenT, andThen, made, read]
      refine ⟨same, ?_⟩
      generalize (b' following s' f').1 = got at related
      generalize (e' following s').1 = more at related
      cases related with
      | none => exact .none
      | some last => exact .some (by rwa [List.append_assoc] at last)

theorem builds_sequence {bs : List (Builder F)} {es : List Element} (first : Builds R b e Q)
    (rest : Builds Q (sequenceT bs) (elements es) T) :
    Builds R (sequenceT (b :: bs)) (elements (e :: es)) T :=
  builds_thenT first rest

theorem builds_loop (pass : Builds R b e R) (fuel : Nat) :
    Builds R (loopT types b fuel) (loop types e fuel) R := by
  induction fuel with
  | zero => exact builds_doneT
  | succ fuel ih =>
      intro following s f seen before
      simp only [loopT, loop_succ]
      split
      · exact builds_thenT pass ih following s f seen before
      · refine ⟨rfl, .some ?_⟩
        rw [List.append_nil]
        exact before

theorem builds_zeroOrMoreT (pass : Builds R b e R) :
    Builds R (zeroOrMoreT types b) (zeroOrMore types e) R :=
  fun following s f seen before => builds_loop pass _ following s f seen before

theorem builds_oneOrMoreT (first : Builds R b e Q) (pass : Builds Q b e Q) :
    Builds R (oneOrMoreT types b) (oneOrMore types e) Q := by
  intro following s f seen before
  simp only [oneOrMoreT, oneOrMore, zeroOrMoreT, zeroOrMore]
  split
  · next goesOn =>
      simp only [loopT, loop_succ, if_pos goesOn]
      exact builds_thenT first (builds_loop pass _) following s f seen before
  · exact ⟨rfl, .none⟩

end

/-- A rule yields its texts if its rewrite makes the list of what was collected. -/
theorem rewriting_yields {F : Type} {R Q : F → List Str → Prop} {b : Builder F} {e : Element}
    {streams : F} {rewrite : F → BaseTree × Bool} (first : R streams [])
    (builds : Builds R b e Q)
    (made : ∀ f texts, Q f texts → rewrite f = (.nilNode (texts.map createTypeText), false)) :
    Yields (rewriting b streams rewrite) (rule e) := by
  intro following s
  obtain ⟨same, related⟩ := builds following s streams [] first
  unfold rewriting rule
  generalize b following s streams = out at same related
  generalize e following s = out' at same related
  obtain ⟨got, s'⟩ := out
  obtain ⟨texts, s''⟩ := out'
  obtain rfl : s' = s'' := same
  cases related with
  | none => rfl
  | @some f texts after =>
      simp only [made f _ after]
      rfl

/-- The root holds these texts. -/
def Root (root : BaseTree) (texts : List Str) : Prop :=
  root = .nilNode (texts.map createTypeText)

theorem plain_yields {b : Builder BaseTree} {e : Element} (builds : Builds Root b e Root) :
    Yields (plain b) (rule e) := by
  have same : plain b = rewriting b (.nilNode []) fun root => (root, false) := by
    funext following s
    unfold plain rewriting
    rcases b following s (.nilNode []) with ⟨_ | root, s'⟩ <;> rfl
  rw [same]
  exact rewriting_yields rfl builds fun root texts holds => by rw [holds]

theorem Root.add {root : BaseTree} {seen : List Str} (holds : Root root seen) (texts : List Str) :
    Root (root.addChild (listTree texts)) (seen ++ texts) := by
  unfold Root at holds ⊢
  rw [addChild_listTree, holds, List.map_append]
  rfl

/-! ## Rules without a rewrite -/

/-- No part of the code is rewritten. -/
def Unchanged : Code → Bool
  | .done => true
  | .matchToken _ _ => true
  | .call _ body => Unchanged body
  | .rewritten _ _ => false
  | .seq first rest => Unchanged first && Unchanged rest
  | .star _ body => Unchanged body
  | .plus _ body => Unchanged body
  | .switch _ body _ body' => Unchanged body && Unchanged body'
  | .predict _ body body' => Unchanged body && Unchanged body'

theorem builds_code (c : Code) (unchanged : Unchanged c = true) :
    Builds Root (build c) c.element Root := by
  induction c with
  | done => exact builds_doneT
  | matchToken type follow => exact builds_matchT fun root seen x holds => holds.add [x]
  | call follow body ih =>
      exact builds_callT (plain_yields (ih unchanged)) fun root seen _ _ holds => holds.add _
  | rewritten texts body ih => cases unchanged
  | seq first rest ih ih' =>
      obtain ⟨unchanged, unchanged'⟩ := Bool.and_eq_true_iff.mp unchanged
      exact builds_thenT (ih unchanged) (ih' unchanged')
  | star types body ih => exact builds_zeroOrMoreT (ih unchanged)
  | plus types body ih => exact builds_oneOrMoreT (ih unchanged) (ih unchanged)
  | switch type body type' body' ih ih' =>
      obtain ⟨unchanged, unchanged'⟩ := Bool.and_eq_true_iff.mp unchanged
      intro following s root seen holds
      simp only [build, Code.element]
      split
      · exact ih unchanged following s root seen holds
      · split
        · exact ih' unchanged' following s root seen holds
        · exact ⟨rfl, .none⟩
  | predict d body body' ih ih' =>
      obtain ⟨unchanged, unchanged'⟩ := Bool.and_eq_true_iff.mp unchanged
      intro following s root seen holds
      simp only [build, Code.element]
      generalize d.predict Parser.typeCode (Parser.typesOf s.ahead) = answer
      by_cases first : answer = .alt 1
      · subst first
        exact ih unchanged following s root seen holds
      · by_cases second : answer = .alt 2
        · subst second
          exact ih' unchanged' following s root seen holds
        · simp only
          exact ⟨rfl, .none⟩

theorem code_yields {c : Code} (unchanged : Unchanged c = true) {p : ParserRule}
    (same : rule c.element = p) : Yields (plain (build c)) p :=
  same ▸ plain_yields (builds_code c unchanged)

/-! ### Texts that are not missing -/

/-- The code adds a text wherever it does not raise an exception. -/
def Adds : Code → Bool
  | .done => false
  | .matchToken _ _ => true
  | .call _ body => Adds body
  | .rewritten texts _ => !texts.isEmpty
  | .seq first rest => Adds first || Adds rest
  | .star _ _ => false
  | .plus _ body => Adds body
  | .switch _ body _ body' => Adds body && Adds body'
  | .predict _ body body' => Adds body && Adds body'

theorem rule_texts {e : Element}
    (adds : ∀ following s texts, (e following s).1 = some texts → texts ≠ [])
    (following : List FollowSet) (s : State) : (rule e following s).1 ≠ [] := by
  unfold rule
  cases read : (e following s).1 with
  | none => exact List.cons_ne_nil _ _
  | some texts => exact adds following s texts read

theorem andThen_texts {e e' : Element} {following : List FollowSet} {s : State} {texts : List Str}
    (read : (andThen e e' following s).1 = some texts) : ∃ front back s',
      (e following s).1 = some front ∧ (e' following s').1 = some back ∧ texts = front ++ back := by
  unfold andThen at read
  split at read
  · next front s' first =>
      obtain ⟨back, second, rfl⟩ := Option.map_eq_some_iff.mp read
      exact ⟨front, back, s', by rw [first], second, rfl⟩
  · cases read

theorem code_texts (c : Code) (adds : Adds c = true) (following : List FollowSet) (s : State)
    (texts : List Str) (read : (c.element following s).1 = some texts) : texts ≠ [] := by
  induction c generalizing following s texts with
  | done => cases adds
  | matchToken type follow =>
      rcases matchToken_one type follow following s with raised | ⟨x, matched⟩
      · cases raised.symm.trans read
      · cases matched.symm.trans read
        exact List.cons_ne_nil _ _
  | call follow body ih =>
      cases read
      exact rule_texts (ih adds) _ s
  | rewritten instead body ih =>
      obtain ⟨_, -, rfl⟩ := Option.map_eq_some_iff.mp read
      simpa [Adds] using adds
  | seq first rest ih ih' =>
      obtain ⟨front, back, s', here, later, rfl⟩ := andThen_texts read
      rcases Bool.or_eq_true_iff.mp adds with adds | adds
      · exact List.append_ne_nil_of_left_ne_nil (ih adds _ _ _ here) _
      · exact List.append_ne_nil_of_right_ne_nil _ (ih' adds _ _ _ later)
  | star types body ih => cases adds
  | plus types body ih =>
      simp only [Code.element, oneOrMore] at read
      split at read
      · next goesOn =>
          rw [zeroOrMore, loop_succ, if_pos goesOn] at read
          obtain ⟨front, back, s', here, -, rfl⟩ := andThen_texts read
          exact List.append_ne_nil_of_left_ne_nil (ih adds _ _ _ here) _
      · cases read
  | switch type body type' body' ih ih' =>
      obtain ⟨adds, adds'⟩ := Bool.and_eq_true_iff.mp adds
      simp only [Code.element] at read
      split at read
      · exact ih adds _ _ _ read
      · split at read
        · exact ih' adds' _ _ _ read
        · cases read
  | predict d body body' ih ih' =>
      obtain ⟨adds, adds'⟩ := Bool.and_eq_true_iff.mp adds
      simp only [Code.element] at read
      split at read
      · exact ih adds _ _ _ read
      · exact ih' adds' _ _ _ read
      · cases read

/-! ## Rewrites -/

theorem nilNode_addChild (cs : List BaseTree) (texts : List Str) :
    (BaseTree.nilNode cs).addChild (listTree texts) = .nilNode (cs ++ texts.map createTypeText) :=
  addChild_listTree _ texts

theorem nilNode_addText (cs : List BaseTree) (text : Str) :
    (BaseTree.nilNode cs).addChild (some (createTypeText text)) =
      .nilNode (cs ++ [createTypeText text]) := rfl

theorem of_one {texts : List Str} {t : BaseTree} (made : listTree texts = some t) :
    ElementStream.of [texts] = ⟨[t], 0, false⟩ := by
  simp [ElementStream.of, made]

theorem one_nextTree (t : BaseTree) : nextTree ⟨[t], 0, false⟩ = (some t, ⟨[t], 1, false⟩) :=
  nextTree_at [] rfl

/-! ### validity -/

/-- The stream of `time_tuple` after these texts. -/
def Times (lists : List (List Str)) (texts : List Str) (s : ElementStream) (seen : List Str) : Prop :=
  s = ElementStream.of lists ∧ seen = texts

theorem validityRewrite_of {start stop : List Str} (some_start : start ≠ []) (some_stop : stop ≠ []) :
    validityRewrite (ElementStream.of [start, stop]) =
      (.nilNode ((startTimeS :: start ++ stopTimeS :: stop).map createTypeText), false) := by
  obtain ⟨t, first⟩ := Option.isSome_iff_exists.mp (listTree_isSome some_start)
  obtain ⟨t', second⟩ := Option.isSome_iff_exists.mp (listTree_isSome some_stop)
  have stream : ElementStream.of [start, stop] = ⟨[t, t'], 0, false⟩ := by
    simp [ElementStream.of, first, second]
  have next : nextTree ⟨[t, t'], 0, false⟩ = (some t, ⟨[t, t'], 1, false⟩) :=
    nextTree_at [] rfl
  have next' : nextTree ⟨[t, t'], 1, false⟩ = (some t', ⟨[t, t'], 2, false⟩) :=
    nextTree_at [t] rfl
  have more : hasNext ⟨[t, t'], 0, false⟩ = true := rfl
  have done : hasNext ⟨[t, t'], 2, false⟩ = false := rfl
  rw [stream, validityRewrite, if_pos more, validityLoop, dif_pos more, next]
  simp only [next']
  rw [validityLoop, dif_neg (by simp [done]), ← first, ← second, nilNode_addText, nilNode_addChild,
    nilNode_addText, nilNode_addChild]
  simp

theorem validity_yields : Yields validityTree RecoveringParser.validity := by
  have tuple : Yields (plain (build RecoveringParser.timeTupleCode)) RecoveringParser.timeTuple :=
    code_yields (by decide) RecoveringParser.timeTuple_element
  have texts : ∀ following s, (RecoveringParser.timeTuple following s).1 ≠ [] := by
    rw [← RecoveringParser.timeTuple_element]
    exact rule_texts (code_texts _ (by decide))
  let R : ElementStream → List Str → Prop := fun s seen => ∃ start stop : List Str,
    start ≠ [] ∧ stop ≠ [] ∧ s = ElementStream.of [start, stop] ∧
      seen = startTimeS :: start ++ stopTimeS :: stop
  refine rewriting_yields (R := Times [] []) (Q := R) ⟨rfl, rfl⟩ ?_ ?_
  · refine builds_sequence (Q := Times [] []) (builds_rewritten fun f seen x before => ?_) <|
      builds_sequence (Q := Times [] [startTimeS]) (builds_rewritten fun f seen x before => ?_) <|
      builds_sequence (Q := fun s seen => ∃ start : List Str, start ≠ [] ∧
        Times [start] (startTimeS :: start) s seen)
        (builds_callT tuple fun f seen following s before => ?_) <|
      builds_sequence (Q := fun s seen => ∃ start : List Str, start ≠ [] ∧
        Times [start] (startTimeS :: start ++ [stopTimeS]) s seen)
        (builds_rewritten fun f seen x before => ?_) <|
      builds_sequence (Q := R) (builds_callT tuple fun f seen following s before => ?_) <|
      builds_sequence (Q := R) (builds_rewritten fun f seen x before => ?_) builds_doneT
    · obtain ⟨rfl, rfl⟩ := before
      exact ⟨rfl, rfl⟩
    · obtain ⟨rfl, rfl⟩ := before
      exact ⟨rfl, rfl⟩
    · obtain ⟨rfl, rfl⟩ := before
      exact ⟨_, texts _ s, of_add [] _, rfl⟩
    · obtain ⟨start, some_start, rfl, rfl⟩ := before
      exact ⟨start, some_start, rfl, rfl⟩
    · obtain ⟨start, some_start, rfl, rfl⟩ := before
      exact ⟨start, _, some_start, texts _ s, of_add [start] _, by simp⟩
    · exact (List.append_nil seen).symm ▸ before
  · rintro f _ ⟨start, stop, some_start, some_stop, rfl, rfl⟩
    exact validityRewrite_of some_start some_stop

/-! ### certificate -/

/-- The streams of a certificate after these texts. -/
def Certificates (clauses validity publicKey signature : List (List Str)) (texts : List Str)
    (s : CertificateStreams) (seen : List Str) : Prop :=
  s = ⟨.of clauses, .of validity, .of publicKey, .of signature⟩ ∧ seen = texts

/-- There is a clause, and these texts come after the clauses. -/
def Filled (validity publicKey signature : List (List Str)) (after : List Str)
    (s : CertificateStreams) (seen : List Str) : Prop :=
  ∃ clauses : List (List Str), (∃ texts ∈ clauses, texts ≠ []) ∧
    Certificates clauses validity publicKey signature
      (certS :: clauseS :: (clauses.flatten ++ after)) s seen

theorem certificateRewrite_of {clauses : List (List Str)} {validity publicKey signature : List Str}
    (some_clause : ∃ texts ∈ clauses, texts ≠ []) (some_validity : validity ≠ [])
    (some_key : publicKey ≠ []) (some_signature : signature ≠ []) :
    certificateRewrite ⟨.of clauses, .of [validity], .of [publicKey], .of [signature]⟩ =
      (.nilNode ((certS :: clauseS :: (clauses.flatten ++ (validity ++ (publicKey ++
        (signature ++ [endCertS]))))).map createTypeText), false) := by
  obtain ⟨t, isValidity⟩ := Option.isSome_iff_exists.mp (listTree_isSome some_validity)
  obtain ⟨t', isKey⟩ := Option.isSome_iff_exists.mp (listTree_isSome some_key)
  obtain ⟨t'', isSignature⟩ := Option.isSome_iff_exists.mp (listTree_isSome some_signature)
  have clause : (ElementStream.of clauses).hasNext = true := by
    obtain ⟨texts, member, nonempty⟩ := some_clause
    obtain ⟨u, made⟩ := Option.isSome_iff_exists.mp (listTree_isSome nonempty)
    have inside : u ∈ clauses.filterMap listTree := List.mem_filterMap.mpr ⟨texts, member, made⟩
    exact decide_eq_true (List.length_pos_of_mem inside)
  have more (t : BaseTree) : hasNext ⟨[t], 0, false⟩ = true := rfl
  have done (t : BaseTree) : hasNext ⟨[t], 1, false⟩ = false := rfl
  rw [of_one isValidity, of_one isKey, of_one isSignature, certificateRewrite,
    if_pos (by simp only [more, Bool.and_self]), certificateLoop,
    dif_pos (by simp only [more, Bool.or_self])]
  simp only [clause, if_true, one_nextTree]
  rw [certificateLoop, dif_neg (by simp [done]), appendAll_of, ← isValidity, ← isKey, ← isSignature]
  simp only [nilNode_addText, BaseTree.withChildren, BaseTree.children, nilNode_addChild]
  simp

theorem certificate_yields : Yields certificateTree RecoveringParser.certificate := by
  have clause : Yields (plain (build RecoveringParser.clauseCode)) RecoveringParser.clause :=
    code_yields (by decide) RecoveringParser.clause_element
  have key : Yields (plain (build RecoveringParser.publicKeyCode)) RecoveringParser.publicKey :=
    code_yields (by decide) RecoveringParser.publicKey_element
  have lines : Yields (plain (build RecoveringParser.signatureCode)) RecoveringParser.signature :=
    code_yields (by decide) RecoveringParser.signature_element
  have texts {c : Code} (adds : Adds c = true) {p : ParserRule} (same : rule c.element = p) :
      ∀ following s, (p following s).1 ≠ [] := same ▸ rule_texts (code_texts c adds)
  have someClause := texts (by decide) RecoveringParser.clause_element
  have someValidity := texts (by decide) RecoveringParser.validity_element
  have someKey := texts (by decide) RecoveringParser.publicKey_element
  have someSignature := texts (by decide) RecoveringParser.signature_element
  let Opened : CertificateStreams → List Str → Prop := Certificates [] [] [] [] [certS, clauseS]
  let Read : CertificateStreams → List Str → Prop := Filled [] [] [] []
  refine rewriting_yields (R := Certificates [] [] [] [] []) (Q := fun s seen =>
    ∃ v k g : List Str, v ≠ [] ∧ k ≠ [] ∧ g ≠ [] ∧
      Filled [v] [k] [g] (v ++ (k ++ (g ++ [endCertS]))) s seen) ⟨rfl, rfl⟩ ?_ ?_
  · refine builds_sequence (Q := Opened) (builds_rewritten fun f seen x before => ?_) <|
      builds_sequence (Q := Read) (builds_oneOrMoreT
        (builds_callT clause fun f seen following s before => ?_)
        (builds_callT clause fun f seen following s before => ?_)) <|
      builds_sequence (Q := fun s seen => ∃ v : List Str, v ≠ [] ∧ Filled [v] [] [] v s seen)
        (builds_callT validity_yields fun f seen following s before => ?_) <|
      builds_sequence (Q := fun s seen => ∃ v k : List Str, v ≠ [] ∧ k ≠ [] ∧
        Filled [v] [k] [] (v ++ k) s seen)
        (builds_callT key fun f seen following s before => ?_) <|
      builds_sequence (Q := fun s seen => ∃ v k g : List Str, v ≠ [] ∧ k ≠ [] ∧ g ≠ [] ∧
        Filled [v] [k] [g] (v ++ (k ++ g)) s seen)
        (builds_callT lines fun f seen following s before => ?_) <|
      builds_sequence (builds_rewritten fun f seen x before => ?_) builds_doneT
    · obtain ⟨rfl, rfl⟩ := before
      exact ⟨rfl, rfl⟩
    · obtain ⟨rfl, rfl⟩ := before
      exact ⟨[_], ⟨_, List.mem_singleton.mpr rfl, someClause following s⟩,
        by simp only [of_add, List.nil_append], by simp⟩
    · obtain ⟨clauses, nonempty, rfl, rfl⟩ := before
      exact ⟨clauses ++ [_], ⟨_, List.mem_append_right _ (List.mem_singleton.mpr rfl),
        someClause following s⟩, by simp only [of_add], by simp⟩
    · obtain ⟨clauses, nonempty, rfl, rfl⟩ := before
      exact ⟨_, someValidity following s, clauses, nonempty,
        by simp only [of_add, List.nil_append], by simp⟩
    · obtain ⟨v, some_v, clauses, nonempty, rfl, rfl⟩ := before
      exact ⟨v, _, some_v, someKey following s, clauses, nonempty,
        by simp only [of_add, List.nil_append], by simp⟩
    · obtain ⟨v, k, some_v, some_k, clauses, nonempty, rfl, rfl⟩ := before
      exact ⟨v, k, _, some_v, some_k, someSignature following s, clauses, nonempty,
        by simp only [of_add, List.nil_append], by simp⟩
    · obtain ⟨v, k, g, some_v, some_k, some_g, clauses, nonempty, rfl, rfl⟩ := before
      exact ⟨v, k, g, some_v, some_k, some_g, clauses, nonempty, rfl, by simp⟩
  · rintro f _ ⟨v, k, g, some_v, some_k, some_g, clauses, nonempty, rfl, rfl⟩
    exact certificateRewrite_of nonempty some_v some_k some_g

/-! ### credential -/

/-- The tree of the walker, as it was built. -/
def treeOf (t : Tree) : BaseTree := .node t.text (t.children.map createTypeText)

theorem credentialRewrite_of {publicKey : List Str} (some_key : publicKey ≠ [])
    (certificates : List (List Str)) :
    credentialRewrite ⟨.of [publicKey], .of certificates⟩ =
      (.nilNode [treeOf ⟨credentialS, publicKey ++ (certificates.flatten ++ [endS])⟩], false) := by
  obtain ⟨t, isKey⟩ := Option.isSome_iff_exists.mp (listTree_isSome some_key)
  have root : becomeRoot (some (createTypeText credentialS)) (some (.nilNode [])) =
      some (createTypeText credentialS) := rfl
  simp only [credentialRewrite, root, of_one isKey, one_nextTree, Option.map_some]
  rw [← isKey, addChild_listTree, appendAll_of]
  simp [createTypeText, withChildren, children, addChild, treeOf]

/-- The key, and the certificates so far. -/
def Credentials (s : CredentialStreams) (seen : List Str) : Prop :=
  ∃ (publicKey : List Str) (certificates : List (List Str)), publicKey ≠ [] ∧
    s = ⟨.of [publicKey], .of certificates⟩ ∧ seen = publicKey ++ certificates.flatten

theorem builds_credential :
    Builds (fun s seen => s = ⟨.empty, .empty⟩ ∧ seen = []) credentialParts
      (elements (RecoveringParser.credentialFront ++ [RecoveringParser.credentialEnd]))
      fun s seen => ∃ texts, Credentials s texts ∧ seen = texts ++ [endS] := by
  have key : Yields (plain (build RecoveringParser.publicKeyCode)) RecoveringParser.publicKey :=
    code_yields (by decide) RecoveringParser.publicKey_element
  have someKey : ∀ following s, (RecoveringParser.publicKey following s).1 ≠ [] := by
    rw [← RecoveringParser.publicKey_element]
    exact rule_texts (code_texts _ (by decide))
  refine builds_sequence (Q := fun s seen => s = ⟨.empty, .empty⟩ ∧ seen = [])
      (builds_rewritten fun f seen x before => ?_) <|
    builds_sequence (Q := Credentials) (builds_callT key fun f seen following s before => ?_) <|
    builds_sequence (Q := Credentials) (builds_zeroOrMoreT
      (builds_callT certificate_yields fun f seen following s before => ?_)) <|
    builds_sequence (builds_rewritten fun f seen x before => ?_) builds_doneT
  · obtain ⟨rfl, rfl⟩ := before
    exact ⟨rfl, rfl⟩
  · obtain ⟨rfl, rfl⟩ := before
    exact ⟨_, [], someKey following s, congrArg (CredentialStreams.mk · _) (of_add [] _), by simp⟩
  · obtain ⟨publicKey, certificates, nonempty, rfl, rfl⟩ := before
    exact ⟨publicKey, _, nonempty, congrArg (CredentialStreams.mk _ ·) (of_add certificates _),
      by simp⟩
  · exact ⟨seen, before, rfl⟩

/-- For any visible tokens, damaged or not, the tree that the rule `credential` builds is the
    flat tree of `RecoveringParser`, and the parser ends in the same state. -/
theorem tree_of_tokens (tokens : List Token) :
    credentialTree [] (.new tokens) =
      (some (treeOf (RecoveringParser.parse tokens).1), (RecoveringParser.parse tokens).2) := by
  obtain ⟨same, related⟩ := builds_credential [] (.new tokens) _ [] ⟨rfl, rfl⟩
  have parsed : RecoveringParser.parse tokens = RecoveringParser.credential (.new tokens) := rfl
  rw [parsed, RecoveringParser.credential, credentialTree, rewriting]
  generalize credentialParts [] (.new tokens) ⟨.empty, .empty⟩ = out at same related
  generalize elements (RecoveringParser.credentialFront ++ [RecoveringParser.credentialEnd]) []
    (.new tokens) = out' at same related
  obtain ⟨got, s⟩ := out
  obtain ⟨texts, s'⟩ := out'
  obtain rfl : s = s' := same
  cases related with
  | none => rfl
  | @some f _ after =>
      obtain ⟨_, ⟨publicKey, certificates, nonempty, rfl, rfl⟩, whole⟩ := after
      rw [List.nil_append] at whole
      subst whole
      simp only [credentialRewrite_of nonempty, Bool.false_eq_true, if_false]
      rw [List.append_assoc]
      rfl

end RepositoryManager.TreeBuilding
