import Mathlib.Data.List.Forall2
import Mathlib.Data.List.Infix
import RepositoryManager.Lib.Terminated
import RepositoryManager.PolicySafety

/-! # How a policy text is split

A policy text as it is written: clauses and declarations that end with a full stop,
with white space and comments in any place. The constructor cuts it at every full
stop from the first clause on and cleans each piece with `trim`. It finds the clauses
that are written so that a piece holds at most one comment, in front.
-/

namespace RepositoryManager

open ByteString Terminated

/-! ## Policy texts -/

/-- A character of a clause, a white-space character, or a comment. -/
inductive Item where
  | char (c : Char) (shown : isSpace c = false)
  | blank (c : Char) (space : isSpace c = true)
  | comment (body : Str) (notClosed : ¬ ['*', '/'] <:+: body)

/-- The item as it is written. -/
def Item.render : Item → Str
  | .char c _ => [c]
  | .blank c _ => [c]
  | .comment body _ => '/' :: '*' :: (body ++ ['*', '/'])

/-- What is left of the item without white space and comments. -/
def Item.text : Item → Str
  | .char c _ => [c]
  | .blank _ _ => []
  | .comment _ _ => []

def renderItems (items : List Item) : Str := items.flatMap Item.render

def textOf (items : List Item) : Str := items.flatMap Item.text

/-- A clause or declaration as it is written, up to its full stop. The marks of comments
    are not part of its text. -/
structure Sentence where
  items : List Item
  noStop : '.' ∉ textOf items
  notOpened : ¬ ['/', '*'] <:+: textOf items
  notClosed : ¬ ['*', '/'] <:+: textOf items

namespace Sentence

def render (s : Sentence) : Str := renderItems s.items ++ ['.']

/-- The clause without white space and comments. -/
def text (s : Sentence) : Str := textOf s.items ++ ['.']

end Sentence

/-- A policy text: declarations without parentheses, clauses with parentheses, and what
    stands behind the last full stop. -/
structure Layout where
  declarations : List Sentence
  clauses : List Sentence
  trailing : List Item
  bare : ∀ s ∈ declarations, '(' ∉ s.text ∧ ')' ∉ s.text
  parenthesised : ∀ s ∈ clauses, '(' ∈ s.text
  onlyLayout : textOf trailing = []

namespace Layout

def front (l : Layout) : Str := l.declarations.flatMap Sentence.render

/-- The file. -/
def text (l : Layout) : Str :=
  l.front ++ l.clauses.flatMap Sentence.render ++ renderItems l.trailing

/-- The texts of the clauses, in order. -/
def clauseTexts (l : Layout) : List Str := l.clauses.map Sentence.text

end Layout

/-- The atom is that of a rule. -/
def isRule (atom : Str) : Bool := (find ":-".toList atom).isSome

/-- The same facts in the same order, and the same rules in the same order. -/
def SameParts (atoms clauses : List Str) : Prop :=
  atoms.filter (!isRule ·) = clauses.filter (!isRule ·) ∧
    atoms.filter isRule = clauses.filter isRule

/-- The constructor makes each clause a fact or a rule, once and in order, and nothing else. -/
def Splits (l : Layout) : Prop :=
  ∃ p, Policy.make l.text = some p ∧ p.facts = l.clauseTexts.filter (!isRule ·) ∧
    p.rules.map Rule.atom = l.clauseTexts.filter isRule

/-! ## What the constructor keeps -/

/-- The text without blanks, tabs, line feeds and carriage returns. -/
def squeeze (s : Str) : Str := s.filter fun c => c ≠ ' ' && c ≠ '\n' && c ≠ '\t' && c ≠ '\r'

/-- The piece has its only full stop at its end and ends with the clause, between whose
    characters stand blanks, tabs and line ends only. In front of the clause stands nothing
    else either, or something that, squeezed, ends with its first closing mark, and there is
    an opening mark in the piece. -/
def KeptAs (piece clause : Str) : Prop :=
  Ends '.' piece ∧ ∃ front own, piece = front ++ own ∧ squeeze own = clause ∧
    (squeeze front = [] ∨ ['/', '*'] <:+: squeeze piece ∧
      ∃ body, squeeze front = body ++ ['*', '/'] ∧ ¬ ['*', '/'] <:+: body)

/-- The piece is, squeezed, `/` and the clause, so that an opening mark begins it; it is not
    closed. -/
def Clipped (piece clause : Str) : Prop :=
  Ends '.' piece ∧ squeeze piece = '/' :: clause ∧ ['*'] <+: clause ∧
    ¬ ['*', '/'] <:+: squeeze piece

/-! ## What `trim` keeps -/

theorem squeeze_append (a b : Str) : squeeze (a ++ b) = squeeze a ++ squeeze b :=
  List.filter_append ..

theorem squeezed_of_printed {c : Char} (shown : isSpace c = false) :
    (c ≠ ' ' && c ≠ '\n' && c ≠ '\t' && c ≠ '\r') = true := by
  simp only [Bool.and_eq_true, decide_eq_true_eq, ne_eq]
  refine ⟨⟨⟨?_, ?_⟩, ?_⟩, ?_⟩
  all_goals
    rintro rfl
    cases shown

theorem trim_of_unopened {piece : Str} (unopened : ¬ ['/', '*'] <:+: squeeze piece) :
    trim piece = squeeze piece := by
  have absent : find "/*".toList (squeeze piece) = none := (find_eq_none_iff _ _).mpr unopened
  unfold trim
  dsimp only
  rw [show piece.filter _ = squeeze piece from rfl, absent]

theorem trim_of_opened {piece : Str} (opened : ['/', '*'] <:+: squeeze piece) :
    trim piece = match find ['*', '/'] (squeeze piece) with
      | some idx => ((squeeze piece).drop (idx + 2)).take ((squeeze piece).length - 1)
      | none => ((squeeze piece).drop 1).take ((squeeze piece).length - 1) := by
  obtain ⟨i, found⟩ := Option.isSome_iff_exists.mp ((find_isSome_iff "/*".toList _).mpr opened)
  unfold trim
  dsimp only
  rw [show piece.filter _ = squeeze piece from rfl, found]
  rfl

theorem trim_of_closed {piece body rest : Str} (opened : ['/', '*'] <:+: squeeze piece)
    (closed : squeeze piece = body ++ '*' :: '/' :: rest) (first : ¬ ['*', '/'] <:+: body) :
    trim piece = rest := by
  have found := find_pair (show '*' ≠ '/' by decide) body rest first
  rw [trim_of_opened opened, closed, found]
  have cut : (body ++ '*' :: '/' :: rest).drop (body.length + 2) = rest := by
    simp [List.drop_append]
  dsimp only
  rw [cut, List.take_of_length_le]
  simp
  omega

theorem trim_cases (piece : Str) :
    (¬ ['/', '*'] <:+: squeeze piece ∧ trim piece = squeeze piece) ∨
      (['/', '*'] <:+: squeeze piece ∧ ∃ body, squeeze piece = body ++ '*' :: '/' :: trim piece ∧
        ¬ ['*', '/'] <:+: body) ∨
      (['/', '*'] <:+: squeeze piece ∧ ¬ ['*', '/'] <:+: squeeze piece ∧
        trim piece = (squeeze piece).tail) := by
  by_cases opened : ['/', '*'] <:+: squeeze piece
  · right
    cases found : find ['*', '/'] (squeeze piece) with
    | some idx =>
        obtain ⟨body, rest, closed, -, first⟩ := find_pair_split found
        refine .inl ⟨opened, body, ?_, first⟩
        rw [trim_of_closed opened closed first]
        exact closed
    | none =>
        refine .inr ⟨opened, (find_eq_none_iff _ _).mp found, ?_⟩
        rw [trim_of_opened opened, found]
        simp [List.take_of_length_le]
  · exact .inl ⟨opened, trim_of_unopened opened⟩

theorem trim_eq_iff {piece clause : Str} (ends : Ends '.' piece)
    (notOpened : ¬ ['/', '*'] <:+: clause) :
    trim piece = clause ↔ KeptAs piece clause ∨ Clipped piece clause := by
  constructor
  · intro same
    rcases trim_cases piece with
      ⟨-, kept⟩ | ⟨opened, body, closed, first⟩ | ⟨opened, unclosed, kept⟩
    · exact .inl ⟨ends, [], piece, rfl, kept.symm.trans same, .inl rfl⟩
    · rw [same, show body ++ '*' :: '/' :: clause = (body ++ ['*', '/']) ++ clause by simp]
        at closed
      obtain ⟨front, own, rfl, atFront, atOwn⟩ := List.filter_eq_append_iff.mp closed
      exact .inl ⟨ends, front, own, rfl, atOwn, .inr ⟨opened, body, atFront, first⟩⟩
    · -- without a closing mark the opening mark loses its first character
      rw [same] at kept
      cases squeezed : squeeze piece with
      | nil => simp [squeezed] at opened
      | cons c rest =>
          rw [squeezed, List.tail_cons] at kept
          rw [squeezed, ← kept, List.infix_cons_iff] at opened
          rcases opened with ⟨more, begins⟩ | inside
          · obtain ⟨rfl, tail⟩ := List.cons_eq_cons.mp begins
            exact .inr ⟨ends, by rw [squeezed, kept], ⟨more, tail⟩, unclosed⟩
          · exact absurd inside notOpened
  · rintro (⟨-, front, own, rfl, rfl, nothing | ⟨opened, body, closed, first⟩⟩ |
      ⟨-, squeezed, ⟨more, begins⟩, unclosed⟩)
    · have same : squeeze (front ++ own) = squeeze own := by rw [squeeze_append, nothing]; rfl
      rw [trim_of_unopened (same.symm ▸ notOpened), same]
    · refine trim_of_closed opened ?_ first
      rw [squeeze_append, closed]
      simp
    · have opened : ['/', '*'] <:+: squeeze piece := ⟨[], more, by rw [squeezed, ← begins]; rfl⟩
      rw [trim_of_opened opened, (find_eq_none_iff _ _).mpr unclosed, squeezed]
      simp

/-! ## Pieces of a layout -/

theorem renderItems_append (xs ys : List Item) :
    renderItems (xs ++ ys) = renderItems xs ++ renderItems ys := List.flatMap_append ..

theorem textOf_append (xs ys : List Item) : textOf (xs ++ ys) = textOf xs ++ textOf ys :=
  List.flatMap_append ..

/-- What is seen of a text: everything but white space. -/
def printed (s : Str) : Str := s.filter (!isSpace ·)

/-- The text is the whole rendering of the items, or an end of it that begins with white
    space. -/
def EndOf (items : List Item) (s : Str) : Prop :=
  s = renderItems items ∨ s <:+ renderItems items ∧ ∃ c ∈ s.head?, isSpace c = true

theorem printed_append (a b : Str) : printed (a ++ b) = printed a ++ printed b :=
  List.filter_append ..

theorem EndOf.last {items : List Item} {x : Item} {c : Char} {s : Str} (one : x.render = [c])
    (isEnd : EndOf (items ++ [x]) s) (nonempty : s ≠ []) :
    ∃ s', s = s' ++ [c] ∧ (s' = [] ∨ EndOf items s') := by
  have whole : renderItems (items ++ [x]) = renderItems items ++ [c] := by
    rw [renderItems_append, ← one]
    simp [renderItems]
  rcases isEnd with rfl | ⟨suffix, first, isFirst, space⟩
  · exact ⟨renderItems items, whole, .inr (.inl rfl)⟩
  · rw [whole] at suffix
    rcases List.suffix_concat_iff.mp suffix with empty | ⟨s', rfl, within⟩
    · exact absurd empty nonempty
    · refine ⟨s', rfl, ?_⟩
      cases s' with
      | nil => exact .inl rfl
      | cons d s' => exact .inr (.inr ⟨within, first, by simpa using isFirst, space⟩)

/-- Behind the last comment that ends in it, an end of a rendering shows the end of the
    text only. -/
theorem EndOf.cut {items : List Item} {s : Str} (isEnd : s = [] ∨ EndOf items s) :
    printed s <:+ textOf items ∨
      ∃ hidden own, s = hidden ++ '*' :: '/' :: own ∧ printed own <:+ textOf items := by
  induction items using List.reverseRecOn generalizing s with
  | nil =>
      refine .inl ?_
      rcases isEnd with rfl | rfl | ⟨suffix, -⟩
      · exact List.nil_suffix
      · exact List.nil_suffix
      · rw [show renderItems [] = [] from rfl, List.suffix_nil] at suffix
        subst suffix
        exact List.nil_suffix
  | append_singleton items x ih =>
      by_cases empty : s = []
      · subst empty
        exact .inl List.nil_suffix
      have isEnd := isEnd.resolve_left empty
      have text : textOf (items ++ [x]) = textOf items ++ x.text := by
        rw [textOf_append]
        simp [textOf]
      -- a last character is seen in the text exactly if it is seen
      have extend : ∀ {c : Char} {own : Str}, printed [c] = x.text →
          printed own <:+ textOf items → printed (own ++ [c]) <:+ textOf (items ++ [x]) := by
        intro c own shown suffix
        obtain ⟨front, same⟩ := suffix
        exact ⟨front, by rw [text, printed_append, shown, ← same, List.append_assoc]⟩
      have step : ∀ {c : Char}, x.render = [c] → printed [c] = x.text →
          printed s <:+ textOf (items ++ [x]) ∨ ∃ hidden own, s = hidden ++ '*' :: '/' :: own ∧
            printed own <:+ textOf (items ++ [x]) := by
        intro c one shown
        obtain ⟨s', rfl, before⟩ := isEnd.last one empty
        rcases ih before with seen | ⟨hidden, own, rfl, seen⟩
        · exact .inl (extend shown seen)
        · exact .inr ⟨hidden, own ++ [c], by simp, extend shown seen⟩
      cases x with
      | char c shown => exact step rfl (by simp [printed, shown, Item.text])
      | blank c space => exact step rfl (by simp [printed, space, Item.text])
      | comment body _ =>
          refine .inr ?_
          have whole : renderItems (items ++ [.comment body ‹_›]) =
              (renderItems items ++ '/' :: '*' :: body) ++ ['*'] ++ ['/'] := by
            rw [renderItems_append]
            simp [renderItems, Item.render]
          rcases isEnd with rfl | ⟨suffix, first, isFirst, space⟩
          · exact ⟨_, [], by rw [whole, List.append_assoc]; rfl, List.nil_suffix⟩
          · rw [whole] at suffix
            obtain ⟨s', rfl, within⟩ := (List.suffix_concat_iff.mp suffix).resolve_left empty
            rcases List.suffix_concat_iff.mp within with rfl | ⟨s'', rfl, -⟩
            · cases isFirst
              exact absurd space (by decide)
            · exact ⟨s'', [], by simp, List.nil_suffix⟩

theorem printed_squeeze (s : Str) : printed (squeeze s) = printed s := by
  rw [printed, squeeze, List.filter_filter]
  refine List.filter_congr fun c _ => ?_
  cases space : isSpace c with
  | true => rfl
  | false => rw [squeezed_of_printed space]; rfl

theorem printed_self {s : Str} (shown : ∀ c ∈ s, isSpace c = false) : printed s = s :=
  List.filter_eq_self.mpr fun c member => by rw [shown c member]; rfl

theorem EndOf.closes {items : List Item} {s : Str} (isEnd : EndOf items s)
    (notOpened : ¬ ['/', '*'] <:+: textOf items) (opened : ['/', '*'] <:+: squeeze s) :
    ['*', '/'] <:+: squeeze s := by
  rcases EndOf.cut (.inr isEnd) with seen | ⟨hidden, own, rfl, -⟩
  · have shown : printed ['/', '*'] <:+: printed (squeeze s) := opened.filter _
    rw [printed_squeeze] at shown
    exact absurd (shown.trans seen.isInfix) notOpened
  · exact ⟨squeeze hidden, squeeze own, by
      rw [show hidden ++ '*' :: '/' :: own = hidden ++ ['*', '/'] ++ own by simp, squeeze_append,
        squeeze_append]
      rfl⟩

theorem suffix_of_unclosed {front rest hidden own : Str} (unclosed : ¬ ['*', '/'] <:+: rest)
    (same : front ++ '*' :: '/' :: rest = hidden ++ '*' :: '/' :: own) : rest <:+ own := by
  have cut : (front ++ ['*', '/']) ++ rest = (hidden ++ ['*', '/']) ++ own := by simpa using same
  rcases List.append_eq_append_iff.mp cut with ⟨mid, marks, rfl⟩ | ⟨mid, -, rfl⟩
  · rcases List.eq_nil_or_concat mid with rfl | ⟨mid, c, rfl⟩
    · exact List.suffix_refl _
    · -- `rest` would begin inside the mark, or hold it
      have last : (hidden ++ ['*']) ++ ['/'] = (front ++ ['*', '/'] ++ mid) ++ [c] := by
        simpa using marks
      obtain ⟨before, isSlash⟩ := List.append_inj' last rfl
      cases isSlash
      rcases List.eq_nil_or_concat mid with rfl | ⟨mid, c, rfl⟩
      · have star : hidden ++ ['*'] = (front ++ ['*']) ++ ['/'] := by simpa using before
        cases (List.append_inj' star rfl).2
      · have star : hidden ++ ['*'] = (front ++ ['*', '/'] ++ mid) ++ [c] := by simpa using before
        cases (List.append_inj' star rfl).2
        exact absurd ⟨mid, own, by simp⟩ unclosed
  · exact List.suffix_append _ _

/-- What `trim` leaves of an end of a rendering is an end of its text, if it could be a
    clause at all. -/
theorem EndOf.trim_suffix {items : List Item} {s : Str} (isEnd : EndOf items s)
    (notOpened : ¬ ['/', '*'] <:+: textOf items) (unclosed : ¬ ['*', '/'] <:+: trim s)
    (shown : ∀ c ∈ trim s, isSpace c = false) : trim s <:+ textOf items := by
  rcases trim_cases s with ⟨-, kept⟩ | ⟨opened, body, closed, -⟩ | ⟨opened, never, -⟩
  · rw [kept] at unclosed shown ⊢
    rcases EndOf.cut (.inr isEnd) with seen | ⟨hidden, own, rfl, -⟩
    · rw [← printed_self shown, printed_squeeze]
      exact seen
    · refine absurd ⟨squeeze hidden, squeeze own, ?_⟩ unclosed
      rw [show hidden ++ '*' :: '/' :: own = hidden ++ ['*', '/'] ++ own by simp, squeeze_append,
        squeeze_append]
      rfl
  · rcases EndOf.cut (.inr isEnd) with seen | ⟨hidden, own, rfl, seen⟩
    · have inside : printed ['/', '*'] <:+: printed (squeeze s) := opened.filter _
      rw [printed_squeeze] at inside
      exact absurd (inside.trans seen.isInfix) notOpened
    · rw [show hidden ++ '*' :: '/' :: own = hidden ++ (['*', '/'] ++ own) by simp, squeeze_append,
        squeeze_append] at closed
      have suffix := suffix_of_unclosed unclosed closed.symm
      have inText : printed (trim (hidden ++ '*' :: '/' :: own)) <:+ printed (squeeze own) :=
        suffix.filter _
      rw [printed_self shown, printed_squeeze] at inText
      exact inText.trans seen
  · exact absurd (isEnd.closes notOpened opened) never

/-! ## The loop of the constructor -/

theorem Rule.make_atom {r : Str} {rule : Rule} (made : Rule.make r = some rule) :
    rule.atom = r := by
  simp only [Rule.make, Option.bind_eq_bind, Option.bind_eq_some_iff] at made
  obtain ⟨body, -, made⟩ := made
  cases made
  rfl

theorem addAtom_parts (p : Policy) (atom : Str) :
    ∃ q, p.addAtom atom = some q ∧ q.facts = p.facts ++ [atom].filter (!isRule ·) ∧
      q.rules.map Rule.atom = p.rules.map Rule.atom ++ [atom].filter isRule := by
  cases rule : isRule atom with
  | true =>
      obtain ⟨r, made⟩ := Rule.make_of_found rule
      refine ⟨p.addRule r, ?_, by simp [Policy.addRule, rule], ?_⟩
      · refine (if_pos rule).trans ?_
        rw [made]
        rfl
      · simp [Policy.addRule, rule, Rule.make_atom made]
  | false =>
      refine ⟨p.addFact atom, ?_, by simp [Policy.addFact, rule], by simp [Policy.addFact, rule]⟩
      exact if_neg (Bool.eq_false_iff.mp rule)

theorem getAtomsFrom_pieces {pieces : List Str} {rest : Str} (ends : ∀ r ∈ pieces, Ends '.' r)
    (clean : '.' ∉ rest) (p : Policy) :
    ∃ q, Policy.getAtomsFrom (pieces.flatten ++ rest) p = some q ∧
      q.facts = p.facts ++ (pieces.map trim).filter (!isRule ·) ∧
      q.rules.map Rule.atom = p.rules.map Rule.atom ++ (pieces.map trim).filter isRule := by
  induction pieces generalizing p with
  | nil =>
      have absent : findFirstOf ['.'] rest = none := by
        refine (findFirstOf_eq_none_iff _ _).mpr fun c member isStop => ?_
        exact clean (List.mem_singleton.mp isStop ▸ member)
      exact ⟨p, Policy.getAtomsFrom_none absent p, by simp, by simp⟩
  | cons r pieces ih =>
      obtain ⟨⟨body, rfl, noStop⟩, later⟩ := List.forall_mem_cons.mp ends
      have shape : ((body ++ ['.']) :: pieces).flatten ++ rest =
          body ++ '.' :: (pieces.flatten ++ rest) := by simp
      have found : findFirstOf ['.'] (body ++ '.' :: (pieces.flatten ++ rest)) = some body.length :=
        findFirstOf_eq (List.mem_singleton_self _) fun d member same =>
          noStop (List.mem_singleton.mp same ▸ member)
      have first : (body ++ '.' :: (pieces.flatten ++ rest)).take (body.length + 1) =
          body ++ ['.'] := by
        rw [← List.singleton_append, ← List.append_assoc]
        exact List.take_left' (by simp)
      have others : Policy.getsub (body ++ '.' :: (pieces.flatten ++ rest)) ['.'] =
          pieces.flatten ++ rest := by
        have here := @find_first ['.'] body (pieces.flatten ++ rest)
          (by simpa [List.singleton_infix_iff] using noStop)
        rw [List.append_assoc, List.singleton_append] at here
        simp [Policy.getsub, here, List.drop_append, List.take_of_length_le]
      obtain ⟨q, added, facts, rules⟩ := addAtom_parts p (trim (body ++ ['.']))
      obtain ⟨q', done, facts', rules'⟩ := ih later q
      refine ⟨q', ?_, ?_, ?_⟩
      · rw [shape, Policy.getAtomsFrom_some found, first, added, Option.bind_some, others, done]
      · rw [facts', facts, List.append_assoc, ← List.filter_append]
        rfl
      · rw [rules', rules, List.append_assoc, ← List.filter_append]
        rfl

theorem make_pieces {text pre rest : Str} {pieces : List Str} {last : Char} (cut : CutAt text pre)
    (same : text = pre ++ (pieces.flatten ++ rest) ++ [last]) (ends : ∀ r ∈ pieces, Ends '.' r)
    (clean : '.' ∉ rest) :
    ∃ p, Policy.make text = some p ∧ p.facts = (pieces.map trim).filter (!isRule ·) ∧
      p.rules.map Rule.atom = (pieces.map trim).filter isRule := by
  obtain ⟨q, done, facts, rules⟩ := getAtomsFrom_pieces ends clean ⟨text, [], [], []⟩
  have nonempty : text ≠ [] := by simp [same]
  have given : (text.drop pre.length).dropLast = pieces.flatten ++ rest := by
    rw [same, List.append_assoc, List.drop_left, List.dropLast_concat]
  refine ⟨q, ?_, facts, rules⟩
  rw [Policy.make, if_pos nonempty, CutAt.getAtoms (p := ⟨text, [], [], []⟩) cut]
  exact given ▸ done

/-- The text is cut behind `pre`, and up to its last character into pieces that end with
    their full stop and `rest`. -/
structure Cut (text pre : Str) (pieces : List Str) : Prop where
  cutAt : CutAt text pre
  ends : ∀ r ∈ pieces, Ends '.' r
  whole : ∃ rest last, text = pre ++ (pieces.flatten ++ rest) ++ [last] ∧ '.' ∉ rest

theorem Sentence.render_ne_nil (s : Sentence) : s.render ≠ [] := by simp [Sentence.render]

theorem clauses_of_empty {l : Layout} (empty : l.text = []) : l.clauses = [] := by
  cases clauses : l.clauses with
  | nil => rfl
  | cons s more => simp [Layout.text, clauses, s.render_ne_nil] at empty

theorem splits_iff_cut (l : Layout) :
    Splits l ↔ l.text = [] ∨
      ∃ pre pieces, Cut l.text pre pieces ∧ SameParts (pieces.map trim) l.clauseTexts := by
  constructor
  · rintro ⟨p, made, facts, rules⟩
    refine or_iff_not_imp_left.mpr fun nonempty => ?_
    have before : SpaceBefore l.text := by
      rw [Policy.make, if_pos nonempty] at made
      exact spaceBefore_of_getAtoms made
    obtain ⟨pre, cut⟩ := before.cutAt
    obtain ⟨after, whole, some_after⟩ : ∃ after, l.text = pre ++ after ∧ after ≠ [] := by
      obtain ⟨s, gap, rest, text, -⟩ := cut
      exact ⟨_, text, List.cons_ne_nil _ _⟩
    obtain ⟨tail, last, rfl⟩ : ∃ tail last, after = tail ++ [last] :=
      ⟨_, _, (List.dropLast_append_getLast some_after).symm⟩
    obtain ⟨pieces, rest, rfl, ends, clean⟩ := exists_words '.' tail
    rw [← List.append_assoc] at whole
    refine ⟨pre, pieces, ⟨cut, ends, rest, last, whole, clean⟩, ?_⟩
    obtain ⟨p', made', facts', rules'⟩ := make_pieces cut whole ends clean
    rw [made, Option.some_inj] at made'
    subst made'
    exact ⟨facts'.symm.trans facts, rules'.symm.trans rules⟩
  · rintro (empty | ⟨pre, pieces, ⟨cutAt, ends, rest, last, whole, clean⟩, facts, rules⟩)
    · have none := clauses_of_empty empty
      refine ⟨⟨l.text, [], [], []⟩, ?_, ?_, ?_⟩
      · rw [empty]
        rfl
      · simp [Layout.clauseTexts, none]
      · simp [Layout.clauseTexts, none]
    · obtain ⟨p, made, facts', rules'⟩ := make_pieces cutAt whole ends clean
      exact ⟨p, made, facts'.trans facts, rules'.trans rules⟩

/-! ## When splitting is right -/

/-- The start lies in front of the first clause, behind the declarations; from there on each
    clause is kept, no other full stop stands in a comment, and something stands behind the
    last full stop. -/
def InOrder (l : Layout) : Prop :=
  ∃ before first more, l.clauses.map Sentence.render = (before ++ first) :: more ∧
    CutAt l.text (l.front ++ before) ∧ List.Forall₂ KeptAs (first :: more) l.clauseTexts ∧
    l.trailing ≠ [] ∧ '.' ∉ renderItems l.trailing

/-- There is no clause, and either no text or no full stop from the start to the last
    character but one. -/
def NoClause (l : Layout) : Prop :=
  l.clauses = [] ∧ (l.text = [] ∨ ∃ pre, Cut l.text pre [])

/-- The text ends with the last full stop, which is lost. One full stop in a comment makes up
    for it, that of a comment which shows the text of a clause, as `/* p(a). */ p(a).` on a line:
    the pieces show all clauses, the facts in order and the rules in order. -/
def ByAccident (l : Layout) : Prop :=
  l.clauses ≠ [] ∧ l.trailing = [] ∧
    (∃ s ∈ l.declarations ++ l.clauses, '.' ∈ renderItems s.items) ∧
    ∃ pre pieces clauses, Cut l.text pre pieces ∧ SameParts clauses l.clauseTexts ∧
      List.Forall₂ (fun piece clause => KeptAs piece clause ∨ Clipped piece clause) pieces clauses

/-! ### Same parts -/

theorem SameParts.perm {atoms clauses : List Str} (same : SameParts atoms clauses) :
    atoms.Perm clauses := by
  have parts : ∀ xs : List Str, xs.Perm (xs.filter isRule ++ xs.filter (!isRule ·)) := fun xs =>
    (List.filter_append_perm isRule xs).symm
  have middle := parts atoms
  rw [same.1, same.2] at middle
  exact middle.trans (parts clauses).symm

theorem eq_of_suffixes {xs ys : List Str} (suffixes : List.Forall₂ (· <:+ ·) xs ys)
    (long : xs.flatten.length = ys.flatten.length) : xs = ys := by
  have shorter : ∀ {xs ys : List Str}, List.Forall₂ (· <:+ ·) xs ys →
      xs.flatten.length ≤ ys.flatten.length := by
    intro xs ys suffixes
    induction suffixes with
    | nil => exact Nat.le_refl _
    | cons here _ ih =>
        rw [List.flatten_cons, List.flatten_cons, List.length_append, List.length_append]
        exact Nat.add_le_add here.length_le ih
  induction suffixes with
  | nil => rfl
  | cons here later ih =>
      have rest := shorter later
      have first := here.length_le
      simp only [List.flatten_cons, List.length_append] at long
      rw [here.eq_of_length (by omega), ih (by omega)]

/-! ### Clauses -/

theorem mem_renderItems {items : List Item} {c : Char} (inText : c ∈ textOf items) :
    c ∈ renderItems items := by
  obtain ⟨x, member, isChar⟩ := List.mem_flatMap.mp inText
  refine List.mem_flatMap.mpr ⟨x, member, ?_⟩
  cases x with
  | char d _ => exact isChar
  | blank d _ => cases isChar
  | comment body _ => cases isChar

theorem textOf_shown {items : List Item} : ∀ c ∈ textOf items, isSpace c = false := by
  intro c inText
  obtain ⟨x, _, isChar⟩ := List.mem_flatMap.mp inText
  cases x with
  | char d shown => exact List.mem_singleton.mp isChar ▸ shown
  | blank d _ => cases isChar
  | comment body _ => cases isChar

namespace Sentence

variable {s : Sentence}

/-- The items up to the full stop. -/
def closed (s : Sentence) : List Item := s.items ++ [.char '.' rfl]

theorem render_eq (s : Sentence) : s.render = renderItems s.closed :=
  (renderItems_append s.items [.char '.' rfl]).symm

theorem text_eq (s : Sentence) : s.text = textOf s.closed :=
  (textOf_append s.items [.char '.' rfl]).symm

theorem text_shown : ∀ c ∈ s.text, isSpace c = false := s.text_eq ▸ textOf_shown

theorem text_notOpened : ¬ ['/', '*'] <:+: s.text := by
  rw [text, pair_infix_separator (by decide) (by decide)]
  rintro (inside | inside)
  · exact s.notOpened inside
  · simp at inside

theorem text_notClosed : ¬ ['*', '/'] <:+: s.text := by
  rw [text, pair_infix_separator (by decide) (by decide)]
  rintro (inside | inside)
  · exact s.notClosed inside
  · simp at inside

theorem render_closed (s : Sentence) : ∃ body, s.render = body ++ ['.'] := ⟨_, rfl⟩

theorem ends_of_clean (clean : '.' ∉ renderItems s.items) : Ends '.' s.render := .of clean

theorem mem_render_of_mem_text {c : Char} (inText : c ∈ s.text) : c ∈ s.render := by
  rw [text_eq] at inText
  rw [render_eq]
  exact mem_renderItems inText

end Sentence

/-- If pieces of the sentences are cleaned to their texts in some order, each is cleaned to
    the text of its own. -/
theorem kept_of_sameParts {sentences : List Sentence} {pieces : List Str}
    (parts : List.Forall₂ (fun r s => EndOf (Sentence.closed s) r ∧ Ends '.' r) pieces sentences)
    (same : SameParts (pieces.map trim) (sentences.map Sentence.text)) :
    List.Forall₂ KeptAs pieces (sentences.map Sentence.text) := by
  have clean : ∀ r ∈ pieces, ¬ ['*', '/'] <:+: trim r ∧ ∀ c ∈ trim r, isSpace c = false := by
    intro r member
    obtain ⟨s, -, isText⟩ := List.mem_map.mp (same.perm.mem_iff.mp (List.mem_map_of_mem member))
    rw [← isText]
    exact ⟨s.text_notClosed, s.text_shown⟩
  have suffixes : List.Forall₂ (· <:+ ·) (pieces.map trim) (sentences.map Sentence.text) := by
    rw [List.forall₂_map_left_iff, List.forall₂_map_right_iff]
    refine ((List.forall₂_and_left _ _).mpr ⟨clean, parts⟩).imp ?_
    rintro r s ⟨⟨unclosed, shown⟩, isEnd, -⟩
    rw [s.text_eq]
    exact isEnd.trim_suffix (s.text_eq ▸ s.text_notOpened) unclosed shown
  have own := eq_of_suffixes suffixes same.perm.flatten.length_eq
  have each : List.Forall₂ (· = ·) (pieces.map trim) (sentences.map Sentence.text) :=
    own ▸ List.forall₂_refl _
  rw [List.forall₂_map_left_iff, List.forall₂_map_right_iff] at each
  rw [List.forall₂_map_right_iff, List.forall₂_iff_zip]
  refine ⟨each.length_eq, fun member => ?_⟩
  have trimmed := (List.forall₂_iff_zip.mp each).2 member
  obtain ⟨isEnd, ends⟩ := (List.forall₂_iff_zip.mp parts).2 member
  refine ((trim_eq_iff ends Sentence.text_notOpened).mp trimmed).resolve_right ?_
  -- an opening mark in the piece is closed in it
  rintro ⟨-, squeezed, ⟨more, begins⟩, never⟩
  refine never (isEnd.closes (Sentence.text_eq _ ▸ Sentence.text_notOpened) ?_)
  exact ⟨[], more, by rw [squeezed, ← begins]; rfl⟩

/-! ### The start -/

theorem CutAt.within {text pre x y : Str} (cut : CutAt text pre) (same : text = x ++ y)
    (paren : '(' ∈ x) : ∃ s r, x = pre ++ s :: r ∧ isSpace s = true := by
  obtain ⟨s, gap, rest, whole, space, -, notInPre, notInGap⟩ := cut
  have shape : x ++ y = (pre ++ s :: gap) ++ '(' :: rest := by
    rw [← same, whole]
    simp
  rcases List.append_eq_append_iff.mp shape with ⟨a, begin, -⟩ | ⟨a, rfl, -⟩
  · have member : '(' ∈ pre ++ s :: gap := begin ▸ List.mem_append_left _ paren
    rcases List.mem_append.mp member with inPre | inGap
    · exact absurd inPre notInPre
    · rcases List.mem_cons.mp inGap with rfl | inGap
      · cases space
      · exact absurd inGap notInGap
  · exact ⟨s, gap ++ a, by simp, space⟩

theorem onlyLayout_last {items : List Item} (only : textOf items = []) (nonempty : items ≠ []) :
    ∃ body c, renderItems items = body ++ [c] ∧ c ≠ '.' := by
  obtain ⟨items, x, rfl⟩ : ∃ more x, items = more ++ [x] :=
    ⟨_, _, (List.dropLast_append_getLast nonempty).symm⟩
  rw [textOf_append] at only
  have quiet := (List.append_eq_nil_iff.mp only).2
  cases x with
  | char c _ => simp [textOf, Item.text] at quiet
  | blank c space =>
      refine ⟨renderItems items, c, by simp [renderItems, Item.render], ?_⟩
      rintro rfl
      cases space
  | comment body _ =>
      exact ⟨renderItems items ++ '/' :: '*' :: (body ++ ['*']), '/',
        by simp [renderItems, Item.render], by decide⟩

theorem Layout.front_eq (l : Layout) :
    l.front = (l.declarations.map Sentence.render).flatten := List.flatMap_def

theorem Layout.text_cons (l : Layout) {first : Sentence} {more : List Sentence}
    (clauses : l.clauses = first :: more) : l.text = (l.front ++ first.render) ++
      ((more.map Sentence.render).flatten ++ renderItems l.trailing) := by
  rw [Layout.text, clauses, List.flatMap_cons, List.flatMap_def]
  simp

/-- Where the text of a layout with clauses is cut: in the declarations, or in front of the
    first full stop behind them. -/
theorem CutAt.cases {l : Layout} {pre : Str} (cut : CutAt l.text pre) {first : Sentence}
    {more : List Sentence} (clauses : l.clauses = first :: more) :
    (∃ before s r, pre = l.front ++ before ∧ first.render = before ++ s :: r ∧ isSpace s = true) ∨
      ∃ part, l.front = pre ++ part ∧ part ≠ [] ∧ ∃ s ∈ part.head?, isSpace s = true := by
  have paren : '(' ∈ l.front ++ first.render :=
    List.mem_append_right _ (Sentence.mem_render_of_mem_text
      (l.parenthesised first (clauses ▸ List.mem_cons_self)))
  obtain ⟨s, r, shape, space⟩ := cut.within (l.text_cons clauses) paren
  rcases List.append_eq_append_iff.mp shape with ⟨a, rfl, same⟩ | ⟨a, same, rest⟩
  · exact .inl ⟨a, s, r, rfl, same, space⟩
  · cases a with
    | nil => exact .inl ⟨[], s, r, by simpa using same.symm, rest.symm, space⟩
    | cons c a =>
        obtain ⟨rfl, -⟩ := List.cons_eq_cons.mp rest
        exact .inr ⟨s :: a, same, List.cons_ne_nil _ _, s, rfl, space⟩

/-! ### What a right result says -/

variable {l : Layout}

theorem pieces_kept {first : Sentence} {more : List Sentence} {before r : Str} {s : Char}
    (shape : first.render = before ++ s :: r) (space : isSpace s = true)
    (ends : ∀ piece ∈ (s :: r) :: more.map Sentence.render, Ends '.' piece)
    (same : SameParts (((s :: r) :: more.map Sentence.render).map trim)
      ((first :: more).map Sentence.text)) :
    List.Forall₂ KeptAs ((s :: r) :: more.map Sentence.render)
      ((first :: more).map Sentence.text) := by
  obtain ⟨here, later⟩ := List.forall_mem_cons.mp ends
  refine kept_of_sameParts (.cons ⟨.inr ⟨?_, s, rfl, space⟩, here⟩ ?_) same
  · rw [← first.render_eq, shape]
    exact List.suffix_append _ _
  · rw [List.forall₂_map_left_iff, List.forall₂_same]
    exact fun t member => ⟨.inl t.render_eq, later _ (List.mem_map_of_mem member)⟩

theorem closed_of_suffix {part whole : Str} (closed : ∃ body, whole = body ++ ['.'])
    (suffix : part <:+ whole) (nonempty : part ≠ []) : ∃ body, part = body ++ ['.'] := by
  obtain ⟨body, rfl⟩ := closed
  obtain ⟨t, same, -⟩ := (List.suffix_concat_iff.mp suffix).resolve_left nonempty
  exact ⟨t, same⟩

theorem Layout.front_closed (some_front : l.front ≠ []) : ∃ body, l.front = body ++ ['.'] := by
  rcases List.eq_nil_or_concat l.declarations with none | ⟨others, d, declared⟩
  · simp [Layout.front, none] at some_front
  · exact ⟨others.flatMap Sentence.render ++ renderItems d.items, by
      simp [Layout.front, declared, Sentence.render]⟩

theorem clauses_closed (more : List Sentence) :
    ∀ w ∈ more.map Sentence.render, ∃ body, w = body ++ ['.'] := by
  intro w member
  obtain ⟨t, -, rfl⟩ := List.mem_map.mp member
  exact t.render_closed

theorem inOrder_of_cut {first : Sentence} {more : List Sentence} {pre : Str} {pieces : List Str}
    (clauses : l.clauses = first :: more) (trailing : l.trailing ≠ []) (cut : Cut l.text pre pieces)
    (same : SameParts (pieces.map trim) l.clauseTexts) : InOrder l := by
  obtain ⟨cutAt, ends, rest, last, whole, clean⟩ := cut
  obtain ⟨tail, c, atEnd, notStop⟩ := onlyLayout_last l.onlyLayout trailing
  have texts : l.clauseTexts = (first :: more).map Sentence.text := by
    rw [Layout.clauseTexts, clauses]
  have number : (pieces.flatten ++ rest).count '.' = more.length + 1 := by
    have := same.perm.length_eq
    rw [count_words ends clean]
    simpa [texts] using this
  rw [l.text_cons clauses, atEnd] at whole
  rcases cutAt.cases clauses with ⟨before, s, r, rfl, shape, space⟩ | ⟨part, front, some_part, -⟩
  · have tails : (((s :: r) :: more.map Sentence.render).flatten ++ tail) ++ [c] =
        (pieces.flatten ++ rest) ++ [last] := by
      rw [shape] at whole
      simpa using whole
    have body := (List.append_inj' tails rfl).1
    rw [← body, List.count_append] at number
    have closed : ∀ w ∈ (s :: r) :: more.map Sentence.render, ∃ body, w = body ++ ['.'] := by
      refine List.forall_mem_cons.mpr ⟨?_, clauses_closed more⟩
      exact closed_of_suffix first.render_closed ⟨before, shape.symm⟩ (List.cons_ne_nil _ _)
    have many := length_le_count closed
    simp only [List.length_cons, List.length_map] at many
    have single := ends_of_count closed (by simp only [List.length_cons, List.length_map]; omega)
    have noStop : '.' ∉ tail := List.count_eq_zero.mp (by omega)
    obtain ⟨rfl, -⟩ := cut_inj ends single clean noStop body.symm
    rw [texts] at same
    refine ⟨before, s :: r, more.map Sentence.render, by simp [clauses, shape], cutAt,
      texts ▸ pieces_kept shape space single same, trailing, ?_⟩
    rw [atEnd]
    simp [noStop, notStop.symm]
  · -- a piece of a declaration would be one too many
    have tails : ((part :: first.render :: more.map Sentence.render).flatten ++ tail) ++ [c] =
        (pieces.flatten ++ rest) ++ [last] := by
      rw [front] at whole
      simpa using whole
    have body := (List.append_inj' tails rfl).1
    rw [← body, List.count_append] at number
    have closed : ∀ w ∈ part :: first.render :: more.map Sentence.render,
        ∃ body, w = body ++ ['.'] := by
      refine List.forall_mem_cons.mpr ⟨?_, List.forall_mem_cons.mpr
        ⟨first.render_closed, clauses_closed more⟩⟩
      refine closed_of_suffix (l.front_closed ?_) ⟨pre, front.symm⟩ some_part
      rw [front]
      simp [some_part]
    have many := length_le_count closed
    simp only [List.length_cons, List.length_map] at many
    omega

/-- The end of a declaration has no parenthesis, so it is trimmed to no clause. -/
theorem declaration_not_clause {d : Sentence} (declared : d ∈ l.declarations) {piece : Str}
    (isEnd : EndOf d.closed piece) : trim piece ∉ l.clauseTexts := by
  intro member
  obtain ⟨t, isClause, isText⟩ := List.mem_map.mp member
  have inText := isEnd.trim_suffix (d.text_eq ▸ d.text_notOpened) (isText ▸ t.text_notClosed)
    (isText ▸ t.text_shown)
  rw [← isText, ← d.text_eq] at inText
  exact (l.bare d declared).1 (inText.subset (l.parenthesised t isClause))

/-- If nothing stands behind the last full stop and no comment holds one, a clause is lost. -/
theorem not_cut_of_clean {first : Sentence} {more : List Sentence} {pre : Str} {pieces : List Str}
    (clauses : l.clauses = first :: more) (trailing : l.trailing = []) (cut : Cut l.text pre pieces)
    (noStop : ∀ s ∈ l.declarations ++ l.clauses, '.' ∉ renderItems s.items) :
    ¬ SameParts (pieces.map trim) l.clauseTexts := by
  intro same
  obtain ⟨cutAt, ends, rest, last, whole, -⟩ := cut
  rw [clauses, List.forall_mem_append, List.forall_mem_cons] at noStop
  obtain ⟨inDeclarations, inFirst, inMore⟩ := noStop
  have number : pieces.length = more.length + 1 := by
    have := same.perm.length_eq
    simpa [Layout.clauseTexts, clauses] using this
  obtain ⟨words, rest', tail, ends', clean'⟩ := exists_words '.' (rest ++ [last])
  rw [l.text_cons clauses, trailing] at whole
  have pieces_end : ∀ w ∈ pieces ++ words, Ends '.' w := List.forall_mem_append.mpr ⟨ends, ends'⟩
  rcases cutAt.cases clauses with
    ⟨before, s, r, rfl, shape, space⟩ | ⟨part, front, some_part, s, begins, space⟩
  · -- one piece for each clause, and the last is not among them
    have each : ∀ w ∈ (s :: r) :: more.map Sentence.render, Ends '.' w := by
      refine List.forall_mem_cons.mpr ⟨?_, ?_⟩
      · exact (Sentence.ends_of_clean inFirst).suffix ⟨before, shape.symm⟩ (List.cons_ne_nil _ _)
      · intro w member
        obtain ⟨t, isMore, rfl⟩ := List.mem_map.mp member
        exact Sentence.ends_of_clean (inMore t isMore)
    have body : ((s :: r) :: more.map Sentence.render).flatten ++ [] =
        (pieces ++ words).flatten ++ rest' := by
      rw [shape] at whole
      rw [List.flatten_append, List.append_assoc, ← tail]
      simpa [renderItems] using whole
    obtain ⟨allPieces, nothing⟩ := cut_inj each pieces_end List.not_mem_nil clean' body
    have sizes := congrArg List.length allPieces
    simp only [List.length_cons, List.length_map, List.length_append] at sizes
    have empty : words = [] := List.length_eq_zero_iff.mp (by omega)
    rw [empty, ← nothing] at tail
    simp at tail
  · -- the first piece is the end of a declaration, which has no parenthesis
    have suffix : part <:+ (l.declarations.map Sentence.render).flatten := by
      rw [← l.front_eq, front]
      exact List.suffix_append _ _
    obtain ⟨_, w, after, p, same_words, within, some_p, rfl⟩ := suffix_flatten suffix some_part
    obtain ⟨d, declared, rfl⟩ := List.mem_map.mp (same_words ▸ List.mem_append_right _
      List.mem_cons_self : w ∈ l.declarations.map Sentence.render)
    obtain ⟨words', rest'', others, ends'', clean''⟩ :=
      exists_words '.' (after.flatten ++ (first.render ++ (more.map Sentence.render).flatten))
    have first_ends : Ends '.' p :=
      (Sentence.ends_of_clean (inDeclarations d declared)).suffix within some_p
    have body : (p :: words').flatten ++ rest'' = (pieces ++ words).flatten ++ rest' := by
      rw [List.flatten_cons, List.append_assoc, ← others, List.flatten_append, List.append_assoc,
        ← tail]
      rw [front] at whole
      simpa [renderItems] using whole
    obtain ⟨allPieces, -⟩ := cut_inj (List.forall_mem_cons.mpr ⟨first_ends, ends''⟩) pieces_end
      clean'' clean' body
    have member : p ∈ pieces := by
      cases pieces with
      | nil => simp at number
      | cons q pieces =>
          obtain ⟨rfl, -⟩ := List.cons_eq_cons.mp allPieces
          exact List.mem_cons_self
    have isEnd : EndOf d.closed p := by
      refine .inr ⟨d.render_eq ▸ within, s, ?_, space⟩
      cases p with
      | nil => exact absurd rfl some_p
      | cons c p => exact begins
    exact declaration_not_clause declared isEnd
      (same.perm.mem_iff.mp (List.mem_map_of_mem member))

/-- If nothing stands behind the last full stop, a right result is an accident. -/
theorem byAccident_of_cut {first : Sentence} {more : List Sentence} {pre : Str} {pieces : List Str}
    (clauses : l.clauses = first :: more) (trailing : l.trailing = []) (cut : Cut l.text pre pieces)
    (same : SameParts (pieces.map trim) l.clauseTexts) : ByAccident l := by
  refine ⟨clauses ▸ List.cons_ne_nil _ _, trailing, ?_, pre, pieces, pieces.map trim, cut, same, ?_⟩
  · by_contra none
    refine not_cut_of_clean clauses trailing cut (fun s member inComment => ?_) same
    exact none ⟨s, member, inComment⟩
  · rw [List.forall₂_map_right_iff, List.forall₂_same]
    intro r member
    obtain ⟨t, -, isText⟩ :=
      List.mem_map.mp (same.perm.mem_iff.mp (List.mem_map_of_mem member))
    exact (trim_eq_iff (cut.ends r member) (isText ▸ t.text_notOpened)).mp rfl

/-! ## The result -/

theorem Layout.texts_notOpened : ∀ t ∈ l.clauseTexts, ¬ ['/', '*'] <:+: t := by
  intro t member
  obtain ⟨s, -, rfl⟩ := List.mem_map.mp member
  exact s.text_notOpened

theorem trimmed_of_kept {pieces clauses : List Str} (notOpened : ∀ t ∈ clauses, ¬ ['/', '*'] <:+: t)
    (kept : List.Forall₂ (fun piece clause => KeptAs piece clause ∨ Clipped piece clause) pieces
      clauses) : pieces.map trim = clauses := by
  induction kept with
  | nil => rfl
  | cons here _ ih =>
      obtain ⟨first, later⟩ := List.forall_mem_cons.mp notOpened
      have ends := here.elim (fun kept => kept.1) fun clipped => clipped.1
      rw [List.map_cons, (trim_eq_iff ends first).mpr here, ih later]

theorem InOrder.cut (inOrder : InOrder l) :
    ∃ pre pieces, Cut l.text pre pieces ∧ SameParts (pieces.map trim) l.clauseTexts := by
  obtain ⟨before, first, more, clauses, cutAt, kept, trailing, noStop⟩ := inOrder
  obtain ⟨tail, c, atEnd, -⟩ := onlyLayout_last l.onlyLayout trailing
  have ends : ∀ r ∈ first :: more, Ends '.' r := by
    have both : List.Forall₂ (fun r t => Ends '.' r ∧ KeptAs r t) (first :: more) l.clauseTexts :=
      kept.imp fun _ _ keeps => ⟨keeps.1, keeps⟩
    exact ((List.forall₂_and_left _ _).mp both).1
  have clean : '.' ∉ tail := fun member => noStop (atEnd ▸ List.mem_append_left _ member)
  have whole : l.text = (l.front ++ before) ++ ((first :: more).flatten ++ tail) ++ [c] := by
    rw [Layout.text, List.flatMap_def, clauses, atEnd]
    simp
  refine ⟨l.front ++ before, first :: more, ⟨cutAt, ends, tail, c, whole, clean⟩, ?_⟩
  rw [trimmed_of_kept l.texts_notOpened (kept.imp fun _ _ keeps => .inl keeps)]
  exact ⟨rfl, rfl⟩

/-- The constructor makes the clauses of a policy text its facts and rules exactly if it
    begins in front of them and finds each as it expects it, apart from texts without
    clauses and from accidents. -/
theorem splits_iff (l : Layout) : Splits l ↔ InOrder l ∨ NoClause l ∨ ByAccident l := by
  rw [splits_iff_cut]
  constructor
  · rintro (empty | ⟨pre, pieces, cut, same⟩)
    · exact .inr (.inl ⟨clauses_of_empty empty, .inl empty⟩)
    · cases clauses : l.clauses with
      | nil =>
          have none : pieces = [] := by
            have := same.perm.length_eq
            simpa [Layout.clauseTexts, clauses] using this
          exact .inr (.inl ⟨clauses, .inr ⟨pre, none ▸ cut⟩⟩)
      | cons first more =>
          by_cases trailing : l.trailing = []
          · exact .inr (.inr (byAccident_of_cut clauses trailing cut same))
          · exact .inl (inOrder_of_cut clauses trailing cut same)
  · rintro (inOrder | ⟨clauses, empty | ⟨pre, cut⟩⟩ |
      ⟨-, -, -, pre, pieces, texts, cut, same, kept⟩)
    · exact .inr inOrder.cut
    · exact .inl empty
    · refine .inr ⟨pre, [], cut, ?_⟩
      rw [Layout.clauseTexts, clauses]
      exact ⟨rfl, rfl⟩
    · refine .inr ⟨pre, pieces, cut, ?_⟩
      rw [trimmed_of_kept (fun t member => l.texts_notOpened t (same.perm.subset member)) kept]
      exact same

/-- One fact on a line of its own, and no line end behind it. -/
def lastLine : Layout :=
  { declarations := []
    clauses :=
      [{ items := [.blank '\n' rfl, .char 'p' rfl, .char '(' rfl, .char 'a' rfl, .char ')' rfl]
         noStop := by decide
         notOpened := by decide
         notClosed := by decide }]
    trailing := []
    bare := by simp
    parenthesised := by decide
    onlyLayout := rfl }

theorem last_clause_lost : ¬ Splits lastLine := by
  rintro ⟨p, made, facts, -⟩
  have cutAt : CutAt lastLine.text [] :=
    ⟨'\n', ['p'], ['a', ')', '.'], rfl, rfl, forall_mem_of_all rfl, by decide, by decide⟩
  obtain ⟨q, made', facts', -⟩ :=
    @make_pieces lastLine.text [] "\np(a)".toList [] '.' cutAt rfl (by simp) (by decide)
  rw [made, Option.some_inj] at made'
  subst made'
  rw [facts] at facts'
  revert facts'
  decide

end RepositoryManager
