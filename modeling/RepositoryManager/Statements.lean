import RepositoryManager.Lib.Contexts
import RepositoryManager.Confinement

/-! # The clauses of the program file

What the lines of the program file say: clauses over predicates and over statements that
are attributed to speakers. A clause of a certificate is a rule in the context of its key:
the premises that are attributed to somebody are asked of the service, and the others are
the key's own. `transformClause` imports it so, if it can decide its literals alike.
-/

namespace RepositoryManager

open ByteString Grammar Contexts

/-! ## Statements -/

/-- A predicate, or that somebody says a statement. -/
inductive Statement where
  | holds (p : Predicate)
  | saysThat (speaker : Text) (s : Statement)

def Statement.text : Statement → Str
  | .holds p => p.text
  | .saysThat speaker s => saysText speaker.chars s.text

def Grammar.Literal.statement : Literal → Statement
  | .predicate p => .holds p
  | .saysThat speaker p => .saysThat speaker (.holds p)

theorem Grammar.Literal.statement_text (l : Literal) : l.statement.text = l.text := by
  cases l with
  | predicate p => rfl
  | saysThat speaker p =>
      have comma : ",".toList = [','] := by decide
      have shape : ∀ opens : Str, opens ++ speaker.chars ++ [','] ++ p.text ++ [')'] =
          opens ++ (speaker.chars ++ ',' :: (p.text ++ [')'])) := by simp
      rw [Literal.text_saysThat, ← shape, ← comma]
      rfl

/-- The text of a clause: its head, its body if it has one, and the full stop. -/
def clauseText (c : Horn.Rule Statement) : Str :=
  c.head.text ++
    (if c.body = [] then [] else ":-".toList ++ [','].intercalate (c.body.map Statement.text)) ++ ['.']

/-! ## Importing a clause -/

/-- A premise that is attributed to somebody is asked of the service. -/
def Grammar.Literal.premise (l : Literal) : Premise Statement :=
  if l.isSays then .asked l.statement else .mine l.statement

/-- A clause as a rule of the principal whose certificate it stands in. -/
def Grammar.Clause.reading : Clause → ContextRule Statement
  | .fact head => ⟨head.statement, []⟩
  | .rule head first more => ⟨head.statement, (first :: more).map Literal.premise⟩

/-- Whether `transformClause` leaves the body as it is: whether the text of the head occurs
    in it. -/
def asksService (head first : Literal) (more : List Literal) : Bool :=
  (find head.text (bodyText first more)).isSome

/-- A literal of the body as it is imported. -/
def importLiteral (asks : Bool) (speaker : Text) (l : Literal) : Statement :=
  if asks then l.statement else .saysThat speaker l.statement

/-- A clause as `transformClause` imports it. -/
def Grammar.Clause.imported (speaker : Text) : Clause → Horn.Rule Statement
  | .fact head => ⟨.saysThat speaker head.statement, []⟩
  | .rule head first more =>
      ⟨.saysThat speaker head.statement,
        (first :: more).map (importLiteral (asksService head first more) speaker)⟩

theorem importLiteral_text (asks : Bool) (speaker : Text) (l : Literal) :
    (importLiteral asks speaker l).text =
      if asks then l.text else saysText speaker.chars l.text := by
  cases asks with
  | true => exact l.statement_text
  | false => exact congrArg (saysText speaker.chars) l.statement_text

theorem Grammar.Clause.imported_reading (speaker : Text) {c : Clause} (decided : DecidedAlike c) :
    c.imported speaker = c.reading.imported (Statement.saysThat speaker) := by
  cases c with
  | fact head => rfl
  | rule head first more =>
      have alike : ∀ l ∈ first :: more, l.isSays = asksService head first more := by
        intro l member
        have right := decided.2
        unfold asksService
        by_cases occurs : (find head.text (bodyText first more)).isSome = true
        · simp only [occurs, if_true] at right
          rw [right l member, occurs]
        · simp only [occurs, Bool.false_eq_true, if_false] at right
          rw [right l member, Bool.eq_false_iff.mpr occurs]
      rw [reading, ContextRule.imported, List.map_map]
      refine congrArg (Horn.Rule.mk _) (List.map_congr_left fun l member => ?_)
      rw [importLiteral, ← alike l member]
      cases attributed : l.isSays <;> simp [Literal.premise, attributed, Premise.imported]

theorem clauseText_fact (head : Statement) : clauseText ⟨head, []⟩ = head.text ++ ['.'] := by
  simp [clauseText]

theorem clauseText_rule (head : Statement) {body : List Statement} (someBody : body ≠ []) :
    clauseText ⟨head, body⟩ =
      head.text ++ ":-".toList ++ ([','].intercalate (body.map Statement.text) ++ ['.']) := by
  rw [clauseText, if_neg someBody]
  simp only [List.append_assoc]

theorem binderClause_imported (speaker : Text) (c : Clause) (clean : ¬ [':', '-'] <:+: c.head.text) :
    binderClause speaker.chars c.text = some (clauseText (c.imported speaker)) := by
  have headText : ∀ l : Literal, (Statement.saysThat speaker l.statement).text =
      saysText speaker.chars l.text := fun l => importLiteral_text false speaker l
  cases c with
  | fact head =>
      have absent : ¬ [':', '-'] <:+: head.text := clean
      rw [Clause.text_fact, binderClause_fact _ (mt sign_stop.mp absent), List.dropLast_concat,
        Clause.imported, clauseText_fact, headText]
  | rule head first more =>
      have absent : ¬ [':', '-'] <:+: head.text := clean
      rw [Clause.text_rule, binderClause_rule _ absent, getClauses_body, List.map_cons,
        wrapClauses_eq, find_body, ← List.map_cons, Clause.imported,
        clauseText_rule _ (by simp), headText, asksService]
      refine congrArg (fun body => some (saysText speaker.chars head.text ++ ":-".toList ++ body)) ?_
      cases occurs : (find head.text (bodyText first more)).isSome with
      | true =>
          have texts : ((first :: more).map (importLiteral true speaker)).map Statement.text =
              (first :: more).map Literal.text := by
            rw [List.map_map]
            exact List.map_congr_left fun l _ => importLiteral_text true speaker l
          rw [texts]
          rfl
      | false =>
          have texts : ((first :: more).map (importLiteral false speaker)).map Statement.text =
              ((first :: more).map Literal.text).map (saysText speaker.chars) := by
            rw [List.map_map, List.map_map]
            exact List.map_congr_left fun l _ => importLiteral_text false speaker l
          rw [texts]
          rfl

end RepositoryManager
