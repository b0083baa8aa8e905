import RepositoryManager.Sessions

/-! # The decision read off the output of XSB

Transcripts as XSB is assumed to write them: for each of the two goals that it
answers, lines of bindings and then one line with the answer. `executeQueryProc`
reads the last three characters before the last newline, whichever goal they come
from. The reading in pieces of 127 characters respects the lines, so the decision
depends on the last line alone.
-/

namespace RepositoryManager

open ByteString Interaction Interaction.Prog

/-! ## Transcripts -/

inductive Verdict where
  | yes
  | no
  | undefined
  deriving DecidableEq

def Verdict.text : Verdict → Str
  | .yes => ['y', 'e', 's']
  | .no => ['n', 'o']
  | .undefined => "undefined".toList

/-- A line of output without its newline. -/
structure Line where
  chars : Str
  noNewline : '\n' ∉ chars

/-- What XSB writes for a goal it answers. -/
structure Answer where
  bindings : List Line
  verdict : Verdict

def bindingText (bindings : List Line) : Str := bindings.flatMap fun line => line.chars ++ ['\n']

def Answer.text (a : Answer) : Str := bindingText a.bindings ++ (a.verdict.text ++ ['\n'])

/-- The output for the goal that loads the program and for the query; a goal that is a
    syntax error or raises an exception has no answer. -/
structure Transcript where
  load : Option Answer
  query : Option Answer

def Verdict.line (v : Verdict) : Line := ⟨v.text, by cases v <;> decide⟩

def Answer.lines (a : Answer) : List Line := a.bindings ++ [a.verdict.line]

theorem Answer.text_lines (a : Answer) : a.text = bindingText a.lines := by
  simp [Answer.text, Answer.lines, bindingText, Verdict.line]

def answerText (a : Option Answer) : Str := (a.map Answer.text).getD []

def Transcript.text (t : Transcript) : Str := answerText t.load ++ answerText t.query

/-! ## Reading line by line -/

theorem fgets_line (k : Nat) {line : Str} (rest : Str) (noNewline : '\n' ∉ line) :
    fgets k (line ++ '\n' :: rest) =
      if line.length < k then (line ++ ['\n'], rest)
      else (line.take k, line.drop k ++ '\n' :: rest) := by
  induction k generalizing line with
  | zero => simp [fgets]
  | succ k ih =>
      cases line with
      | nil => simp [fgets]
      | cons c line =>
          simp only [List.mem_cons, not_or] at noNewline
          have other : c ≠ '\n' := fun same => noNewline.1 same.symm
          simp only [List.cons_append, fgets, other, if_false, ih noNewline.2, List.length_cons,
            Nat.add_lt_add_iff_right]
          split <;> rfl

theorem readOutput_eq (out : Str) (more : out ≠ []) :
    readOutput out =
      cstr (fgets (maxLine - 1) out).1 ++ readOutput (fgets (maxLine - 1) out).2 := by
  cases out with
  | nil => exact absurd rfl more
  | cons c out => rw [readOutput]

theorem readOutput_line {line : Str} (rest : Str) (noNewline : '\n' ∉ line) :
    readOutput (line ++ '\n' :: rest) = readOutput (line ++ ['\n']) ++ readOutput rest := by
  induction size : line.length using Nat.strong_induction_on generalizing line with
  | _ n ih =>
      rw [readOutput_eq _ (by simp), readOutput_eq (line ++ ['\n']) (by simp),
        fgets_line _ rest noNewline, fgets_line _ [] noNewline]
      by_cases short : line.length < maxLine - 1
      · simp [short, readOutput]
      · simp only [short, if_false]
        rw [ih (line.length - (maxLine - 1)) (by simp only [maxLine] at short ⊢; omega)
          (fun later => noNewline (List.mem_of_mem_drop later)) (by simp), List.append_assoc]

theorem readOutput_bindings (bindings : List Line) (rest : Str) :
    readOutput (bindingText bindings ++ rest) =
      readOutput (bindingText bindings) ++ readOutput rest := by
  induction bindings with
  | nil => simp [bindingText, readOutput]
  | cons line more ih =>
      have whole : ∀ after, bindingText (line :: more) ++ after =
          line.chars ++ '\n' :: (bindingText more ++ after) := by
        simp [bindingText]
      have alone := whole []
      rw [List.append_nil, List.append_nil] at alone
      rw [whole, alone, readOutput_line _ line.noNewline, readOutput_line (bindingText more)
        line.noNewline, ih, List.append_assoc]

theorem readOutput_verdict (v : Verdict) : readOutput (v.text ++ ['\n']) = v.text ++ ['\n'] := by
  have clean : '\n' ∉ v.text ∧ v.text.length < maxLine - 1 ∧ nul ∉ v.text ++ ['\n'] := by
    cases v <;> decide
  rw [readOutput_eq _ (by simp), fgets_line _ [] clean.1, if_pos clean.2.1,
    cstr_of_clean clean.2.2]
  simp [readOutput]

theorem readOutput_answer (before : List Line) (a : Answer) :
    readOutput (bindingText before ++ a.text) =
      (readOutput (bindingText before) ++ readOutput (bindingText a.bindings)) ++
        (a.verdict.text ++ ['\n']) := by
  rw [Answer.text, readOutput_bindings, readOutput_bindings, readOutput_verdict, List.append_assoc]

/-! ## The decision -/

theorem lastAnswer_three (front : Str) {three : Str} (size : three.length = 3) :
    lastAnswer (front ++ (three ++ ['\n'])) = some three := by
  have last : findLastOf '\n' (front ++ (three ++ ['\n'])) = some (front ++ three).length := by
    rw [← List.append_assoc]
    exact findLastOf_append '\n' _ [] (by simp)
  have inside : ¬ (front ++ three).length < 3 := by simp only [List.length_append]; omega
  have start : (front ++ three).length - 3 = front.length := by
    simp only [List.length_append]
    omega
  simp only [lastAnswer, last, inside, if_false, start]
  rw [substr_inside (by simp), List.drop_left, ← size, List.take_left]

/-- What is read off the last line. A `no` with nothing before it is too short: `pos - 3`
    wraps and `substr` throws. -/
theorem lastAnswer_verdict (kept : Str) (v : Verdict) :
    (lastAnswer (kept ++ (v.text ++ ['\n']))).map (fun res => decide (res = "yes".toList)) =
      if v = .no ∧ kept = [] then none else some (decide (v = .yes)) := by
  cases v with
  | yes =>
      have answer : lastAnswer (kept ++ (Verdict.yes.text ++ ['\n'])) = some ['y', 'e', 's'] :=
        lastAnswer_three kept rfl
      rw [answer]
      simp
  | undefined =>
      have cut : kept ++ (Verdict.undefined.text ++ ['\n']) =
          (kept ++ "undefi".toList) ++ (['n', 'e', 'd'] ++ ['\n']) := by
        rw [List.append_assoc]
        rfl
      rw [cut, lastAnswer_three _ rfl]
      simp
  | no =>
      rcases List.eq_nil_or_concat' kept with rfl | ⟨front, c, rfl⟩
      · rfl
      · have cut : (front ++ [c]) ++ (Verdict.no.text ++ ['\n']) =
            front ++ ([c, 'n', 'o'] ++ ['\n']) := by
          rw [List.append_assoc]
          rfl
        rw [cut, lastAnswer_three _ rfl]
        simp

theorem executeQueryProc_answer (before : List Line) (a : Answer) :
    executeQueryProc (some (bindingText before ++ a.text)) =
      if a.verdict = .no ∧
        readOutput (bindingText before) ++ readOutput (bindingText a.bindings) = []
      then none else some (decide (a.verdict = .yes)) := by
  rw [executeQueryProc, readOutput_answer, lastAnswer_verdict]

/-- XSB answers the load and the query with `yes`. -/
def twiceYes : Str := Transcript.text ⟨some ⟨[], .yes⟩, some ⟨[], .yes⟩⟩

theorem executeQueryProc_twiceYes : executeQueryProc (some twiceYes) = some true := by
  have whole : twiceYes = bindingText [Verdict.yes.line] ++ Answer.text ⟨[], .yes⟩ := rfl
  rw [whole, executeQueryProc_answer]
  simp

/-- A session that gets this transcript for a query decides as the query was answered,
    and replies `denied` when it was not. -/
structure FailsClosed (t : Transcript) : Prop where
  decides : executeQueryProc (some t.text) = some true ↔ ∃ a, t.query = some a ∧ a.verdict = .yes
  denies : t.query = none → ∀ (im : TransportService) (query : Str) (loaded : Option Str) (n : Int),
    query ≠ [] → Returns (answerQuery im query)
      [⟨.popen (cstr (queryCommand query)), (loaded, .finished (some t.text))⟩,
        ⟨.note (.executed query false), ()⟩, ⟨.write im.clientSocketId (replyMsg denyS), n⟩] ()

theorem returns_answerQuery_denied {im : TransportService} {query : Str} (nonempty : query ≠ [])
    {loaded out : Option Str} {n : Int} :
    Returns (answerQuery im query)
      [⟨.popen (cstr (queryCommand query)), (loaded, .finished out)⟩,
        ⟨.note (.executed query false), ()⟩, ⟨.write im.clientSocketId (replyMsg denyS), n⟩] () ↔
      executeQueryProc out = some false := by
  rw [answerQuery_eq im nonempty, returns_bind]
  constructor
  · rintro ⟨retVal, h₁, h₂, cut, executed, rest⟩
    obtain ⟨_, ending, rfl, decided⟩ := (returns_executeQuery nonempty).mp executed
    obtain ⟨_, _, rfl, _⟩ := returns_call.mp rest
    cases cut
    rcases decided with ⟨noThread, -⟩ | ⟨out, same, decision⟩
    · cases noThread
    · cases same
      exact decision
  · intro decision
    exact ⟨false, [_], _, rfl,
      (returns_executeQuery nonempty).mpr ⟨loaded, _, rfl, .inr ⟨out, rfl, decision⟩⟩,
      .call (.call (.refl _))⟩

/-- Where the decision fails closed: the query was answered, or the load was not
    answered either, or answered `undefined`, or answered `no` below some output that
    the reading loop keeps. -/
theorem failsClosed_iff (t : Transcript) :
    FailsClosed t ↔ (t.query = none → ∀ a, t.load = some a →
      a.verdict = .undefined ∨ (a.verdict = .no ∧ readOutput (bindingText a.bindings) ≠ [])) := by
  obtain ⟨load, query⟩ := t
  cases query with
  | some a =>
      have whole : ∃ before, Transcript.text ⟨load, some a⟩ = bindingText before ++ a.text := by
        cases load with
        | none => exact ⟨[], by simp [Transcript.text, answerText, bindingText]⟩
        | some b => exact ⟨b.lines, by simp [Transcript.text, answerText, Answer.text_lines b]⟩
      obtain ⟨before, whole⟩ := whole
      refine ⟨fun _ absent => absurd absent (Option.some_ne_none a),
        fun _ => ⟨?_, fun absent => absurd absent (Option.some_ne_none a)⟩⟩
      rw [whole, executeQueryProc_answer]
      cases said : a.verdict <;> simp [said]
  | none =>
      cases load with
      | none =>
          have empty : executeQueryProc (some (Transcript.text ⟨none, none⟩)) = some false := by
            simp [Transcript.text, answerText, executeQueryProc, readOutput, lastAnswer, findLastOf]
          refine ⟨fun _ _ b absent => absurd absent.symm (Option.some_ne_none b),
            fun _ => ⟨by simp [empty], fun _ im query loaded n nonempty => ?_⟩⟩
          exact (returns_answerQuery_denied nonempty).mpr empty
      | some a =>
          have whole : Transcript.text ⟨some a, none⟩ = bindingText [] ++ a.text := by
            simp [Transcript.text, answerText, bindingText]
          have decision := executeQueryProc_answer [] a
          rw [← whole] at decision
          have denied : executeQueryProc (some (Transcript.text ⟨some a, none⟩)) = some false ↔
              a.verdict = .undefined ∨
                (a.verdict = .no ∧ readOutput (bindingText a.bindings) ≠ []) := by
            rw [decision]
            cases said : a.verdict <;> simp [bindingText, readOutput]
          constructor
          · rintro failsClosed _ b same
            cases same
            exact denied.mp ((returns_answerQuery_denied (by simp)).mp
              (failsClosed.denies rfl (TransportService.start [] true) ['q'] none 0 (by simp)))
          · intro closed
            have out := denied.mpr (closed rfl a rfl)
            refine ⟨by simp [out], fun _ im query loaded n nonempty => ?_⟩
            exact (returns_answerQuery_denied nonempty).mpr out

/-- The program is loaded and the query raises an exception: the transcript is the `yes`
    of the load, and it opens access. -/
theorem load_answer_taken_for_query : ¬ FailsClosed ⟨some ⟨[], .yes⟩, none⟩ := by
  intro failsClosed
  have whole : Transcript.text ⟨some ⟨[], .yes⟩, none⟩ =
      bindingText [] ++ Answer.text ⟨[], .yes⟩ := rfl
  have granted : executeQueryProc (some (Transcript.text ⟨some ⟨[], .yes⟩, none⟩)) = some true := by
    rw [whole, executeQueryProc_answer]
    rfl
  obtain ⟨a, none, _⟩ := failsClosed.decides.mp granted
  cases none

end RepositoryManager
