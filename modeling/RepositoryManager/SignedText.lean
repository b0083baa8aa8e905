import RepositoryManager.Lib.Terminated
import RepositoryManager.WalkRecovery

/-! # The text that is signed

A certificate is signed as the concatenation of its clauses and its two times. In
the grammar a full stop ends each clause and each time tuple and occurs nowhere
else in them, so the text has only one reading.
-/

namespace RepositoryManager

open ByteString Terminated

namespace Grammar

theorem Literal.no_stop (l : Literal) : '.' ∉ l.text := l.text_not_mem rfl (by decide)

theorem bodyText_no_stop (first : Literal) (more : List Literal) : '.' ∉ bodyText first more :=
  bodyText_not_mem rfl (by decide) first more

theorem Clause.text_ends (c : Clause) : Ends '.' c.text := by
  cases c with
  | fact head =>
      rw [Clause.text_fact]
      exact .of head.no_stop
  | rule head first more =>
      have shape : (Clause.rule head first more).text =
          (head.text ++ ':' :: '-' :: bodyText first more) ++ ['.'] := by
        rw [Clause.text_rule]
        simp
      rw [shape]
      refine .of ?_
      simp [head.no_stop, bodyText_no_stop]

theorem TimeTuple.text_ends (t : TimeTuple) : Ends '.' t.text := by
  have digits : ∀ n : Num, '.' ∉ n.chars := fun n => n.not_mem rfl
  have word : '.' ∉ "datime".toList := by decide
  have shape : t.text = ("datime".toList ++ ('(' :: (t.year.chars ++ (',' :: (t.month.chars ++
      (',' :: (t.day.chars ++ (',' :: (t.hour.chars ++ (',' :: (t.minute.chars ++
      (',' :: (t.second.chars ++ [')']))))))))))))) ++ ['.'] := by
    simp [TimeTuple.text, TimeTuple.tokens]
  rw [shape]
  refine .of ?_
  simp only [List.mem_append, List.mem_cons, List.not_mem_nil, digits, word, Char.reduceEq,
    or_self, not_false_eq_true]

end Grammar

namespace Certificate

/-- The clauses and the times of a certificate derive from the grammar, and the text to
    sign is not set, or set from them. -/
structure Derived (c : Certificate) : Prop where
  clauses : ∀ s ∈ c.clauses, ∃ clause : Grammar.Clause, s = clause.text
  start : ∃ t : Grammar.TimeTuple, c.startTime = t.text
  stop : ∃ t : Grammar.TimeTuple, c.stopTime = t.text
  unset : c.certStr = [] ∨ c.certStr = c.clauses.flatten ++ (c.startTime ++ c.stopTime)

/-- What is signed, word by word. -/
def words (c : Certificate) : List Str := c.clauses ++ [c.startTime, c.stopTime]

theorem Derived.words_end {c : Certificate} (derived : c.Derived) :
    ∀ w ∈ c.words, Ends '.' w := by
  intro w member
  rcases List.mem_append.mp member with isClause | time
  · obtain ⟨clause, rfl⟩ := derived.clauses w isClause
    exact clause.text_ends
  · obtain ⟨start, isStart⟩ := derived.start
    obtain ⟨stop, isStop⟩ := derived.stop
    simp only [List.mem_cons, List.not_mem_nil, or_false] at time
    rcases time with rfl | rfl
    · rw [isStart]
      exact start.text_ends
    · rw [isStop]
      exact stop.text_ends

theorem Derived.certStr_eq {c : Certificate} (derived : c.Derived) (mktime : Tm → Int) (now : Tm) :
    (c.setCertificateStr mktime now).certStr = c.words.flatten := by
  have text : c.words.flatten = c.clauses.flatten ++ (c.startTime ++ c.stopTime) := by
    simp [words]
  rw [text]
  unfold setCertificateStr
  split
  · rfl
  · rcases derived.unset with unset | set
    · contradiction
    · exact set

end Certificate

theorem AstWalker.walked_derived (c : Grammar.Certificate) : (walked c).Derived where
  clauses := by
    intro s member
    obtain ⟨clause, -, rfl⟩ := List.mem_map.mp member
    exact ⟨clause, rfl⟩
  start := ⟨c.start, rfl⟩
  stop := ⟨c.stop, rfl⟩
  unset := .inl rfl

theorem AstWalker.recovered_derived (mktime : Tm → Int) (now : Tm) (c : Grammar.Certificate) :
    (recoveredCertificate mktime now c).Derived :=
  { walked_derived c with unset := .inr rfl }

/-- Certificates with one text to sign have the same clauses and the same times. -/
theorem certStr_determines {c c' : Certificate} (derived : c.Derived) (derived' : c'.Derived)
    (mktime mktime' : Tm → Int) (now now' : Tm)
    (same : (c.setCertificateStr mktime now).certStr = (c'.setCertificateStr mktime' now').certStr) :
    c.clauses = c'.clauses ∧ c.startTime = c'.startTime ∧ c.stopTime = c'.stopTime := by
  rw [derived.certStr_eq, derived'.certStr_eq] at same
  have sameWords : c.words = c'.words := flatten_inj derived.words_end derived'.words_end same
  obtain ⟨sameClauses, sameTimes⟩ := List.append_inj' sameWords rfl
  rw [List.cons.injEq, List.cons.injEq] at sameTimes
  exact ⟨sameClauses, sameTimes.1, sameTimes.2.1⟩

theorem certStr_determines_bob :
    ∃ c ∈ AstWalker.bobCredential.certificates,
      (AstWalker.walked c).clauses = (AstWalker.recoveredCertificate (fun _ => 7) ⟨70, 0, 1, 0, 0, 0⟩
        c).clauses ∧
      (AstWalker.walked c).startTime = c.start.text ∧ (AstWalker.walked c).stopTime = c.stop.text := by
  refine ⟨_, List.mem_cons_self, ?_⟩
  exact certStr_determines (AstWalker.walked_derived _)
    (AstWalker.recovered_derived (fun _ => 7) ⟨70, 0, 1, 0, 0, 0⟩ _) (fun _ => 0) (fun _ => 7)
    ⟨70, 0, 1, 0, 0, 0⟩ ⟨70, 0, 1, 0, 0, 0⟩ (by
      rw [(AstWalker.walked_derived _).certStr_eq, (AstWalker.recovered_derived _ _ _).certStr_eq]
      rfl)

end RepositoryManager
