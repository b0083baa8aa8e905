import RepositoryManager.ParserCode

/-! # A grammar of damaged messages

The rules as productions on lists of tokens, with productions for the errors: a superfluous
token, a missing token, and a rule that is lost, in whose place tokens are skipped. What can
be derived of a list of tokens is what the parser makes of it, whatever the tokens are.
-/

namespace RepositoryManager.BaseRecognizer

open ByteString Lexer

/-- The tokens that are left, and how many were left where the last rule was lost. -/
structure Place where
  ahead : List Token
  lost : Option Nat
  deriving DecidableEq

/-- The next token is of one of the types. -/
def Begins (types : List TokenType) (ts : List Token) : Prop := ∃ t ∈ ts.head?, t.type ∈ types

/-- A token can be missing in front of these: what follows it comes next, or it ends its rule
    and what follows one of the rules that are open comes next. -/
def CanCome (follow : FollowSet) (following : List FollowSet) (ts : List Token) : Prop :=
  Begins follow.types ts ∨
    follow.endOfRule = true ∧ ∃ set ∈ following, Begins set.types ts ∨ set.endOfRule = true

/-- Of some tokens these are skipped, up to the first that can follow one of the open rules. -/
structure Skipped (following : List FollowSet) (skipped rest : List Token) : Prop where
  unwanted : ∀ t ∈ skipped, ∀ set ∈ following, t.type ∉ set.types
  wanted : ∀ t ∈ rest.head?, ∃ set ∈ following, t.type ∈ set.types

/-- The tokens without the next one, if a rule was lost in front of it before. -/
def Place.retry (p : Place) : List Token :=
  if p.lost = some p.ahead.length then p.ahead.tail else p.ahead

/-- A rule is lost at one place, and its caller goes on at the other. -/
inductive Resumes (following : List FollowSet) (p : Place) : Place → Prop where
  | behind {skipped rest} (whole : p.retry = skipped ++ rest)
      (skips : Skipped following skipped rest) :
      Resumes following p ⟨rest, some p.retry.length⟩

/-- The texts that a part of a rule adds to the tree for the tokens between two places, or
    `none` where it is broken off. -/
inductive Mends : List FollowSet → Code → Place → Option (List Str) → Place → Prop where
  | done {following p} : Mends following .done p (some []) p
  | read {following type follow t ts lost} (same : t.type = type) :
      Mends following (.matchToken type follow) ⟨t :: ts, lost⟩ (some [t.text]) ⟨ts, lost⟩
  | superfluous {following type follow t u ts lost} (other : t.type ≠ type) (same : u.type = type) :
      Mends following (.matchToken type follow) ⟨t :: u :: ts, lost⟩ (some [u.text]) ⟨ts, lost⟩
  | missing {following type follow p} (absent : type ∉ Parser.typesOf (p.ahead.take 2))
      (later : CanCome follow following p.ahead) :
      Mends following (.matchToken type follow) p (some [missingText type]) p
  | broken {following type follow p} (absent : type ∉ Parser.typesOf (p.ahead.take 2))
      (nowhere : ¬ CanCome follow following p.ahead) :
      Mends following (.matchToken type follow) p none p
  | kept {following follow body p texts q} (inner : Mends (follow :: following) body p (some texts) q) :
      Mends following (.call follow body) p (some texts) q
  | lost {following follow body p q r} (inner : Mends (follow :: following) body p none q)
      (resumes : Resumes (follow :: following) q r) :
      Mends following (.call follow body) p (some [errorNodeText]) r
  | rewritten {following texts body p result q} (inner : Mends following body p result q) :
      Mends following (.rewritten texts body) p (result.map fun _ => texts) q
  | seq {following first rest p texts q result r} (here : Mends following first p (some texts) q)
      (later : Mends following rest q result r) :
      Mends following (.seq first rest) p (result.map (texts ++ ·)) r
  | seqBroken {following first rest p q} (here : Mends following first p none q) :
      Mends following (.seq first rest) p none q
  | starEnd {following types body p} (off : ¬ Begins types p.ahead) :
      Mends following (.star types body) p (some []) p
  | starPass {following types body p texts q result r} (on : Begins types p.ahead)
      (here : Mends following body p (some texts) q)
      (later : Mends following (.star types body) q result r) :
      Mends following (.star types body) p (result.map (texts ++ ·)) r
  | starBroken {following types body p q} (on : Begins types p.ahead)
      (here : Mends following body p none q) : Mends following (.star types body) p none q
  | plus {following types body p result q} (on : Begins types p.ahead)
      (passes : Mends following (.star types body) p result q) :
      Mends following (.plus types body) p result q
  | plusBroken {following types body p} (off : ¬ Begins types p.ahead) :
      Mends following (.plus types body) p none p
  | switchFirst {following type body type' body' p result q} (on : Begins [type] p.ahead)
      (inner : Mends following body p result q) :
      Mends following (.switch type body type' body') p result q
  | switchSecond {following type body type' body' p result q} (off : ¬ Begins [type] p.ahead)
      (on : Begins [type'] p.ahead) (inner : Mends following body' p result q) :
      Mends following (.switch type body type' body') p result q
  | switchBroken {following type body type' body' p} (off : ¬ Begins [type] p.ahead)
      (off' : ¬ Begins [type'] p.ahead) : Mends following (.switch type body type' body') p none p
  | predictFirst {following d body body' p result q}
      (chosen : d.predict Parser.typeCode (Parser.typesOf p.ahead) = .alt 1)
      (inner : Mends following body p result q) : Mends following (.predict d body body') p result q
  | predictSecond {following d body body' p result q}
      (chosen : d.predict Parser.typeCode (Parser.typesOf p.ahead) = .alt 2)
      (inner : Mends following body' p result q) : Mends following (.predict d body body') p result q
  | predictBroken {following d body body' p}
      (unchosen : d.predict Parser.typeCode (Parser.typesOf p.ahead) ≠ .alt 1)
      (unchosen' : d.predict Parser.typeCode (Parser.typesOf p.ahead) ≠ .alt 2) :
      Mends following (.predict d body body') p none p

/-! ## One derivation -/

section Determined

variable {following : List FollowSet} {c : Code} {p q r : Place} {result result' : Option (List Str)}

theorem Skipped.determined {skipped rest skipped' rest' : List Token}
    (here : Skipped following skipped rest) (there : Skipped following skipped' rest')
    (same : skipped ++ rest = skipped' ++ rest') : rest = rest' := by
  induction skipped generalizing skipped' with
  | nil =>
      cases skipped' with
      | nil => exact same
      | cons t ts =>
          rw [List.nil_append] at same
          obtain ⟨set, member, wanted⟩ := here.wanted t (by simp [same])
          exact absurd wanted (there.unwanted t (.head _) set member)
  | cons t ts ih =>
      cases skipped' with
      | nil =>
          rw [List.nil_append] at same
          obtain ⟨set, member, wanted⟩ := there.wanted t (by simp [← same])
          exact absurd wanted (here.unwanted t (.head _) set member)
      | cons u us =>
          obtain ⟨-, same⟩ := List.cons.inj same
          exact ih ⟨fun t member => here.unwanted t (.tail _ member), here.wanted⟩
            ⟨fun t member => there.unwanted t (.tail _ member), there.wanted⟩ same

theorem Resumes.determined (here : Resumes following p q) (there : Resumes following p r) :
    q = r := by
  obtain @⟨skipped, rest, whole, skips⟩ := here
  obtain @⟨skipped', rest', whole', skips'⟩ := there
  rw [skips.determined skips' (whole.symm.trans whole')]

/-- The tokens have one derivation at most. -/
theorem Mends.determined (here : Mends following c p result q)
    (there : Mends following c p result' r) : result = result' ∧ q = r := by
  induction here generalizing result' r with
  | done =>
      cases there
      exact ⟨rfl, rfl⟩
  | read same =>
      cases there with
      | read => exact ⟨rfl, rfl⟩
      | superfluous other => exact absurd same other
      | missing absent => exact absurd (by simp [Parser.typesOf, same]) absent
      | broken absent => exact absurd (by simp [Parser.typesOf, same]) absent
  | superfluous other same =>
      cases there with
      | read same => exact absurd same other
      | superfluous => exact ⟨rfl, rfl⟩
      | missing absent => exact absurd (by simp [Parser.typesOf, same]) absent
      | broken absent => exact absurd (by simp [Parser.typesOf, same]) absent
  | missing absent later =>
      cases there with
      | read same => exact absurd (by simp [Parser.typesOf, same]) absent
      | superfluous other same => exact absurd (by simp [Parser.typesOf, same]) absent
      | missing => exact ⟨rfl, rfl⟩
      | broken _ nowhere => exact absurd later nowhere
  | broken absent nowhere =>
      cases there with
      | read same => exact absurd (by simp [Parser.typesOf, same]) absent
      | superfluous other same => exact absurd (by simp [Parser.typesOf, same]) absent
      | missing _ later => exact absurd later nowhere
      | broken => exact ⟨rfl, rfl⟩
  | kept inner ih =>
      cases there with
      | kept inner' => exact ih inner'
      | lost inner' => cases (ih inner').1
  | lost inner resumes ih =>
      cases there with
      | kept inner' => cases (ih inner').1
      | lost inner' resumes' =>
          obtain ⟨-, rfl⟩ := ih inner'
          exact ⟨rfl, resumes.determined resumes'⟩
  | rewritten inner ih =>
      cases there with
      | rewritten inner' =>
          obtain ⟨rfl, rfl⟩ := ih inner'
          exact ⟨rfl, rfl⟩
  | seq here later ih ih' =>
      cases there with
      | seq here' later' =>
          obtain ⟨same, rfl⟩ := ih here'
          cases same
          obtain ⟨rfl, rfl⟩ := ih' later'
          exact ⟨rfl, rfl⟩
      | seqBroken here' => cases (ih here').1
  | seqBroken here ih =>
      cases there with
      | seq here' => cases (ih here').1
      | seqBroken here' => exact ih here'
  | starEnd off =>
      cases there with
      | starEnd => exact ⟨rfl, rfl⟩
      | starPass on => exact absurd on off
      | starBroken on => exact absurd on off
  | starPass on here later ih ih' =>
      cases there with
      | starEnd off => exact absurd on off
      | starPass _ here' later' =>
          obtain ⟨same, rfl⟩ := ih here'
          cases same
          obtain ⟨rfl, rfl⟩ := ih' later'
          exact ⟨rfl, rfl⟩
      | starBroken _ here' => cases (ih here').1
  | starBroken on here ih =>
      cases there with
      | starEnd off => exact absurd on off
      | starPass _ here' => cases (ih here').1
      | starBroken _ here' => exact ih here'
  | plus on passes ih =>
      cases there with
      | plus _ passes' => exact ih passes'
      | plusBroken off => exact absurd on off
  | plusBroken off =>
      cases there with
      | plus on => exact absurd on off
      | plusBroken => exact ⟨rfl, rfl⟩
  | switchFirst on inner ih =>
      cases there with
      | switchFirst _ inner' => exact ih inner'
      | switchSecond off => exact absurd on off
      | switchBroken off => exact absurd on off
  | switchSecond off on inner ih =>
      cases there with
      | switchFirst on' => exact absurd on' off
      | switchSecond _ _ inner' => exact ih inner'
      | switchBroken _ off' => exact absurd on off'
  | switchBroken off off' =>
      cases there with
      | switchFirst on => exact absurd on off
      | switchSecond _ on => exact absurd on off'
      | switchBroken => exact ⟨rfl, rfl⟩
  | predictFirst chosen inner ih =>
      cases there with
      | predictFirst _ inner' => exact ih inner'
      | predictSecond chosen' => cases chosen.symm.trans chosen'
      | predictBroken unchosen => exact absurd chosen unchosen
  | predictSecond chosen inner ih =>
      cases there with
      | predictFirst chosen' => cases chosen.symm.trans chosen'
      | predictSecond _ inner' => exact ih inner'
      | predictBroken _ unchosen => exact absurd chosen unchosen
  | predictBroken unchosen unchosen' =>
      cases there with
      | predictFirst chosen => exact absurd chosen unchosen
      | predictSecond chosen => exact absurd chosen unchosen'
      | predictBroken => exact ⟨rfl, rfl⟩

end Determined

/-! ## What the parser derives -/

/-- The part of the recognizer's state that the productions speak of. -/
def State.place (s : State) : Place := ⟨s.ahead, s.lastErrorIndex⟩

section Parses

variable {following : List FollowSet} {follow : FollowSet} {type : TokenType}
  {types : List TokenType} {s : State}

theorem reportError_place (s : State) : (reportError s).place = s.place := by
  unfold reportError
  split <;> rfl

theorem at_iff : s.at types = true ↔ Begins types s.ahead := by
  simp only [State.at, State.next, Begins, Option.any_map, Option.any_eq_true,
    List.contains_iff_mem, Option.mem_def]

theorem next_iff : s.next = some type ↔ Begins [type] s.ahead := by
  simp only [State.next, Begins, Option.map_eq_some_iff, Option.mem_def, List.mem_singleton]

theorem missing_iff : mismatchIsMissingToken follow following s = true ↔
    CanCome follow following s.ahead := by
  have next : ∀ types, s.next.any (types.contains ·) = true ↔ Begins types s.ahead :=
    fun _ => at_iff
  have open_sets : Begins (combineFollows following).types s.ahead ↔
      ∃ set ∈ following, Begins set.types s.ahead := by
    simp only [Begins, combineFollows, List.mem_flatMap]
    grind
  have begins_append : ∀ more, Begins (follow.types ++ more) s.ahead ↔
      Begins follow.types s.ahead ∨ Begins more s.ahead := by
    simp only [Begins, List.mem_append]
    grind
  unfold mismatchIsMissingToken CanCome
  by_cases ends : follow.endOfRule = true
  · rw [if_pos ends, Bool.or_eq_true, next, begins_append, open_sets]
    simp only [combineFollows, List.any_eq_true, ends, true_and]
    grind
  · rw [if_neg ends, Bool.or_eq_true, next]
    simp [ends]

theorem recover_resumes (following : List FollowSet) (s : State) :
    Resumes following s.place (recover following s).place := by
  have wanted : ∀ t : Token, (combineFollows following).types.contains t.type = true ↔
      ∃ set ∈ following, t.type ∈ set.types := by
    simp [combineFollows]
  let skipped : Token → Bool := fun t => !(combineFollows following).types.contains t.type
  have ends := List.head?_dropWhile_not skipped s.place.retry
  refine .behind (List.takeWhile_append_dropWhile (p := skipped)).symm ⟨?_, ?_⟩
  · intro t member set opened one
    have passed : skipped t = true := List.mem_takeWhile_imp member
    simp only [skipped, (wanted t).mpr ⟨set, opened, one⟩] at passed
    cases passed
  · intro t first
    have stopped : skipped t = false := by
      rw [show (s.place.retry.dropWhile skipped).head? = some t from first] at ends
      exact ends
    exact (wanted t).mp (by simpa [skipped] using stopped)

theorem insertMissing_mends (absent : type ∉ Parser.typesOf (s.ahead.take 2)) :
    Mends following (.matchToken type follow) s.place (insertMissing type follow following s).1
      (insertMissing type follow following s).2.place := by
  unfold insertMissing
  split
  · next later =>
      rw [reportError_place]
      exact .missing absent (missing_iff.mp later)
  · next nowhere => exact .broken absent (missing_iff.not.mp nowhere)

theorem matchToken_mends (following : List FollowSet) (s : State) :
    Mends following (.matchToken type follow) s.place (matchToken type follow following s).1
      (matchToken type follow following s).2.place := by
  cases whole : s.ahead with
  | nil =>
      simp only [matchToken, recoverFromMismatchedToken, whole]
      exact insertMissing_mends (by simp [whole, Parser.typesOf])
  | cons t ts =>
      by_cases same : t.type = type
      · simp only [matchToken, whole, same, if_true, State.place]
        exact .read same
      · cases ts with
        | nil =>
            simp only [matchToken, recoverFromMismatchedToken, whole, same, if_false]
            exact insertMissing_mends (by simp [whole, Parser.typesOf, Ne.symm same])
        | cons u us =>
            by_cases same' : u.type = type
            · have place : s.place = ⟨t :: u :: us, (reportError s).lastErrorIndex⟩ := by
                rw [← whole, show (reportError s).lastErrorIndex = s.lastErrorIndex from
                  congrArg Place.lost (reportError_place s)]
                rfl
              simp only [matchToken, recoverFromMismatchedToken, whole, same, same', if_true,
                if_false, place]
              exact .superfluous same same'
            · simp only [matchToken, recoverFromMismatchedToken, whole, same, same', if_false]
              exact insertMissing_mends
                (by simp [whole, Parser.typesOf, Ne.symm same, Ne.symm same'])

theorem call_mends {body : Code} (inner : Mends (follow :: following) body s.place
      (body.element (follow :: following) s).1 (body.element (follow :: following) s).2.place) :
    Mends following (.call follow body) s.place ((Code.call follow body).element following s).1
      ((Code.call follow body).element following s).2.place := by
  simp only [Code.element, BaseRecognizer.call, rule]
  generalize body.element (follow :: following) s = out at inner ⊢
  obtain ⟨_ | texts, s'⟩ := out
  · refine .lost inner ?_
    rw [← reportError_place s']
    exact recover_resumes _ _
  · exact .kept inner

theorem loop_mends {body : Code} (inner : ∀ following s, Mends following body s.place
      (body.element following s).1 (body.element following s).2.place)
    (advances : Advances types body.element) {fuel : Nat} (enough : s.passes < fuel) :
    Mends following (.star types body) s.place (loop types body.element fuel following s).1
      (loop types body.element fuel following s).2.place := by
  induction fuel generalizing s with
  | zero => exact absurd enough (Nat.not_lt_zero _)
  | succ fuel ih =>
      rw [loop_succ]
      split
      · next on =>
          have here := inner following s
          have shorter := advances following s on
          unfold andThen
          split
          · next texts s' same =>
              rw [same] at here shorter
              have less : s'.passes < s.passes := shorter.resolve_right (by simp)
              exact .starPass (at_iff.mp on) here (ih (less.trans_le (Nat.le_of_lt_succ enough)))
          · next s' same =>
              rw [same] at here
              exact .starBroken (at_iff.mp on) here
      · next off => exact .starEnd (at_iff.not.mp off)

end Parses

theorem Code.mends (c : Code) (wellFormed : c.wellFormed = true) (following : List FollowSet)
    (s : State) : Mends following c s.place (c.element following s).1
      (c.element following s).2.place := by
  induction c generalizing following s with
  | done => exact .done
  | matchToken type follow => exact matchToken_mends following s
  | call follow body ih => exact call_mends (ih wellFormed _ _)
  | rewritten texts body ih => exact .rewritten (ih wellFormed _ _)
  | seq first rest ih ih' =>
      obtain ⟨ofFirst, ofRest⟩ := Bool.and_eq_true_iff.mp wellFormed
      have here := ih ofFirst following s
      simp only [Code.element, andThen]
      split
      · next texts s' same =>
          rw [same] at here
          exact .seq here (ih' ofRest following s')
      · next s' same =>
          rw [same] at here
          exact .seqBroken here
  | star types body ih =>
      obtain ⟨starts, ofBody⟩ := Bool.and_eq_true_iff.mp wellFormed
      exact loop_mends (ih ofBody) (body.advances types starts) (Nat.lt_succ_self _)
  | plus types body ih =>
      obtain ⟨starts, ofBody⟩ := Bool.and_eq_true_iff.mp wellFormed
      simp only [Code.element, oneOrMore]
      split
      · next on =>
          exact .plus (at_iff.mp on)
            (loop_mends (ih ofBody) (body.advances types starts) (Nat.lt_succ_self _))
      · next off => exact .plusBroken (at_iff.not.mp off)
  | switch type body type' body' ih ih' =>
      obtain ⟨ofBody, ofBody'⟩ := Bool.and_eq_true_iff.mp wellFormed
      simp only [Code.element]
      split
      · next on => exact .switchFirst (next_iff.mp on) (ih ofBody _ _)
      · next off =>
          split
          · next on =>
              exact .switchSecond (next_iff.not.mp off) (next_iff.mp on) (ih' ofBody' _ _)
          · next off' => exact .switchBroken (next_iff.not.mp off) (next_iff.not.mp off')
  | predict d body body' ih ih' =>
      obtain ⟨ofBody, ofBody'⟩ := Bool.and_eq_true_iff.mp wellFormed
      simp only [Code.element]
      split
      · next chosen => exact .predictFirst chosen (ih ofBody _ _)
      · next chosen => exact .predictSecond chosen (ih' ofBody' _ _)
      · next unchosen unchosen' => exact .predictBroken unchosen unchosen'

/-- The grammar of damaged messages is the parser. -/
theorem Code.mends_iff {c : Code} (wellFormed : c.wellFormed = true) {following : List FollowSet}
    {s : State} {result : Option (List Str)} {q : Place} :
    Mends following c s.place result q ↔
      result = (c.element following s).1 ∧ q = (c.element following s).2.place := by
  constructor
  · exact fun derived => derived.determined (c.mends wellFormed following s)
  · rintro ⟨rfl, rfl⟩
    exact c.mends wellFormed following s

end RepositoryManager.BaseRecognizer

namespace RepositoryManager.RecoveringParser

open ByteString BaseRecognizer Lexer

/-- A credential can be derived of the tokens, with these children. -/
def Mended (ts : List Token) (children : List Str) : Prop :=
  ∃ rest, Mends [] credentialCode ⟨ts, none⟩ (some children) rest

theorem mended_iff {ts : List Token} {children : List Str} :
    Mended ts children ↔ (parse ts).1 = { text := credentialS, children } := by
  have parsed (rest : Place) : Mends [] credentialCode (State.new ts).place (some children) rest ↔
      some children = (credentialCode.element [] (.new ts)).1 ∧
        rest = (credentialCode.element [] (.new ts)).2.place :=
    Code.mends_iff credential_wellFormed
  rw [credential_element] at parsed
  unfold parse credential
  generalize elements (credentialFront ++ [credentialEnd]) [] (.new ts) = out at parsed
  obtain ⟨_ | texts, s⟩ := out
  · refine iff_of_false (fun ⟨rest, derived⟩ => ?_) (fun same => ?_)
    · cases ((parsed rest).mp derived).1
    · exact absurd (congrArg Tree.text same) (show errorNodeText ≠ credentialS by decide)
  · constructor
    · rintro ⟨rest, derived⟩
      cases ((parsed rest).mp derived).1
      rfl
    · intro same
      cases same
      exact ⟨s.place, (parsed s.place).mpr ⟨rfl, rfl⟩⟩

end RepositoryManager.RecoveringParser
