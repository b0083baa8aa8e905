import RepositoryManager.QueryThread
import RepositoryManager.RuleSplitting

/-! # The reading of the transcript

`executeQueryProc` with its chunks, its positions and its exception. However the
output is cut up the chunks are the output again, unless it holds a NUL. The test of
the last line goes back three characters from the last newline: where there are
fewer, `pos - 3` wraps, `substr` throws and the thread takes the process with it.
-/

namespace RepositoryManager

open ByteString

/-! ## Chunks -/

/-- What `fgets` reads one after the other into a buffer of `room + 2` bytes. -/
def chunks (room : Nat) : Str → List Str
  | [] => []
  | c :: out => (fgets (room + 1) (c :: out)).1 :: chunks room (fgets (room + 1) (c :: out)).2
termination_by out => out.length
decreasing_by
  have := fgets_rest_le room out
  simp only [fgets]
  split
  · simp
  · simp only [List.length_cons]
    omega

theorem fgets_append (k : Nat) (out : Str) : (fgets k out).1 ++ (fgets k out).2 = out := by
  induction k generalizing out with
  | zero => rfl
  | succ k ih =>
      cases out with
      | nil => rfl
      | cons c out =>
          by_cases newline : c = '\n'
          · simp [fgets, newline]
          · simp [fgets, newline, ih]

theorem chunks_flatten (room : Nat) (out : Str) : (chunks room out).flatten = out := by
  induction out using chunks.induct room with
  | case1 => simp [chunks]
  | case2 c out ih => rw [chunks, List.flatten_cons, ih, fgets_append]

theorem readOutput_chunks (out : Str) :
    readOutput out = ((chunks (maxLine - 2) out).map cstr).flatten := by
  induction out using chunks.induct (maxLine - 2) with
  | case1 => simp [readOutput, chunks]
  | case2 c out ih => rw [readOutput, chunks, List.map_cons, List.flatten_cons, ← ih]; rfl

theorem kept_iff (room : Nat) (out : Str) :
    ((chunks room out).map cstr).flatten = out ↔ nul ∉ out := by
  constructor
  · intro whole
    rw [← whole]
    intro member
    obtain ⟨kept, isKept, inside⟩ := List.mem_flatten.mp member
    obtain ⟨chunk, -, rfl⟩ := List.mem_map.mp isKept
    exact nul_not_mem_cstr chunk inside
  · intro clean
    have kept : ∀ chunk ∈ chunks room out, cstr chunk = id chunk := by
      intro chunk isChunk
      refine cstr_of_clean fun inside => clean ?_
      rw [← chunks_flatten room out]
      exact List.mem_flatten.mpr ⟨chunk, isChunk, inside⟩
    rw [List.map_congr_left kept, List.map_id, chunks_flatten]

/-! ## The last line -/

namespace Checked

/-- The test of the last line over positions; `none` is an exception of `substr`. -/
def lastAnswer (res : Str) : Option Str :=
  match findLastOf '\n' res with
  | some pos => substr res (difference pos 3) 3
  | none => some res

theorem lastAnswer_eq {res : Str} (fits : res.length < 18446744073709551613) :
    lastAnswer res = RepositoryManager.lastAnswer res := by
  unfold lastAnswer RepositoryManager.lastAnswer
  cases findLastOf '\n' res with
  | none => rfl
  | some pos =>
      by_cases short : pos < 3
      · have wraps : ¬ difference pos 3 ≤ res.length := by
          rw [difference, if_neg (by omega)]
          omega
        simp only [short, if_true]
        exact if_neg wraps
      · simp only [short, if_false]
        rw [difference_of_le (by omega)]

end Checked

/-- There are three characters before the last newline, if there is a newline. -/
def ThreeBefore (res : Str) : Prop :=
  ∀ before after, res = before ++ '\n' :: after → '\n' ∉ after → 3 ≤ before.length

/-- The difference does not wrap, and the cut starts within the text. -/
def CutInside (res : Str) : Prop :=
  ∀ pos, findLastOf '\n' res = some pos → 3 ≤ pos ∧ Checked.difference pos 3 ≤ res.length

theorem cutInside_iff (res : Str) : CutInside res ↔ ThreeBefore res := by
  constructor
  · rintro inside before after rfl last
    exact (inside _ (findLastOf_append '\n' before after last)).1
  · intro three pos found
    obtain ⟨before, after, rfl, rfl, last⟩ := findLastOf_split found
    have enough := three before after rfl last
    refine ⟨enough, ?_⟩
    rw [Checked.difference_of_le enough]
    simp only [List.length_append, List.length_cons]
    omega

theorem lastAnswer_isSome {res : Str} (inside : CutInside res) : (lastAnswer res).isSome := by
  unfold lastAnswer
  split
  · next pos found =>
      obtain ⟨enough, within⟩ := inside pos found
      rw [Checked.difference_of_le enough] at within
      rw [if_neg (by omega), substr_inside within]
      rfl
  · rfl

/-! ## The end of the thread -/

/-- How many steps the query thread has still to make. -/
def QueryProc.remaining (out : Option Str) : QueryProc → Nat
  | .popen => (out.getD []).length + 5
  | .reading f _ => f.length + 4
  | .pclose _ => 3
  | .setStats => 2
  | .exit => 1
  | .terminated => 0
  | .threw => 0

namespace Threads

variable {out : Option Str} {s : Threads}

theorem queryStep_remaining (out : Option Str) (s : Threads) :
    (queryStep out s).queryProc.remaining out ≤ s.queryProc.remaining out - 1 := by
  cases at_s : s.queryProc with
  | popen =>
      cases out with
      | none => simp [queryStep, at_s, QueryProc.remaining]
      | some text => simp [queryStep, at_s, QueryProc.remaining]
  | reading f ss =>
      cases f with
      | nil => simp [queryStep, at_s, QueryProc.remaining]
      | cons c f =>
          have taken := congrArg List.length (fgets_append (maxLine - 1) (c :: f))
          have more : 0 < (fgets (maxLine - 1) (c :: f)).1.length := by
            simp only [maxLine, fgets]
            split <;> simp
          simp only [queryStep, at_s, QueryProc.remaining]
          simp only [List.length_append, List.length_cons] at taken ⊢
          omega
  | pclose ss =>
      simp only [queryStep, at_s]
      split
      · split
        · simp [QueryProc.remaining]
        · simp [QueryProc.remaining]
      · simp [QueryProc.remaining]
  | setStats => simp [queryStep, at_s, QueryProc.remaining]
  | exit => simp [queryStep, at_s, QueryProc.remaining]
  | terminated => simp [queryStep, at_s, QueryProc.remaining]
  | threw => simp [queryStep, at_s, QueryProc.remaining]

/-- Where the process lives on, every turn of the query thread was one of its steps. -/
theorem exec_remaining (moves : List Move) (lives : (s.exec out moves).alive = true) :
    (s.exec out moves).queryProc.remaining out ≤
      s.queryProc.remaining out - moves.count .query := by
  induction moves generalizing s with
  | nil => exact Nat.le_refl _
  | cons m moves ih =>
      have alive : s.alive = true := by
        cases dead : s.alive with
        | true => rfl
        | false =>
            rw [exec_dead dead, dead] at lives
            cases lives
      change ((s.step out m).exec out moves).alive = true at lives
      change ((s.step out m).exec out moves).queryProc.remaining out ≤ _
      have later := ih lives
      unfold step at later
      rw [if_pos alive] at later
      unfold step
      rw [if_pos alive]
      cases m with
      | query =>
          have nearer := queryStep_remaining out s
          rw [List.count_cons_self]
          dsimp only at later ⊢
          omega
      | wait secs =>
          rw [List.count_cons_of_ne (by simp)]
          dsimp only at later ⊢
          rw [(waiterStep_query secs s).1] at later
          exact later

end Threads

/-- The reading of an output: the chunks make up the output again, the test of the last line
    keeps within it, and the thread comes to its end under every schedule. -/
structure ReadsTranscript (out : Str) : Prop where
  chunked : ∀ room, ((chunks room out).map cstr).flatten = out
  whole : readOutput out = out
  inside : CutInside (readOutput out)
  noException : ∀ moves, (Threads.start.exec (some out) moves).queryProc ≠ .threw
  ends : ∀ moves, (Threads.start.exec (some out) moves).alive = true →
    out.length + 5 ≤ moves.count .query →
      (Threads.start.exec (some out) moves).queryProc = .terminated

/-- An output is read to its end exactly if it holds no NUL and has three characters before its
    last newline. -/
theorem readsTranscript_iff (out : Str) :
    ReadsTranscript out ↔ nul ∉ out ∧ ThreeBefore out := by
  constructor
  · intro reads
    have three := (cutInside_iff _).mp reads.inside
    rw [reads.whole] at three
    exact ⟨(kept_iff 0 out).mp (reads.chunked 0), three⟩
  · rintro ⟨clean, three⟩
    have whole : readOutput out = out := by
      rw [readOutput_chunks]
      exact (kept_iff _ out).mpr clean
    have inside : CutInside (readOutput out) := by
      rw [whole]
      exact (cutInside_iff out).mpr three
    have noException : ∀ moves, (Threads.start.exec (some out) moves).queryProc ≠ .threw := by
      intro moves threw
      have follows := (Threads.exec_sound (Threads.start_sound (some out)) moves).follows
      unfold Threads.Follows at follows
      rw [threw] at follows
      obtain ⟨res, answer⟩ := Option.isSome_iff_exists.mp (lastAnswer_isSome inside)
      have fails := follows.2
      rw [executeQueryProc, answer] at fails
      cases fails
    refine ⟨fun room => (kept_iff room out).mpr clean, whole, inside, noException, ?_⟩
    intro moves lives enough
    have left := Threads.exec_remaining moves lives
    have start : Threads.start.queryProc.remaining (some out) = out.length + 5 := rfl
    have none : (Threads.start.exec (some out) moves).queryProc.remaining (some out) = 0 := by
      omega
    cases at_end : (Threads.start.exec (some out) moves).queryProc with
    | terminated => rfl
    | threw => exact absurd at_end (noException moves)
    | _ => simp [at_end, QueryProc.remaining] at none

/-- A `no` alone has two characters before its newline, and the thread throws. -/
theorem short_answer_throws : ¬ ReadsTranscript "no\n".toList := by
  intro reads
  exact reads.noException [.query, .query, .query, .query] (by decide +kernel)

end RepositoryManager
