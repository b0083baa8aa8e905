import Mathlib.Data.List.Basic

/-! # Scanners

A scanner reads a list of letters from the left: each pass gives one output and
the letters that are left, until a pass finds the end. `Reads` is a run of
passes, `Scans` a run to the end and `scan` the loop that makes the passes, with
a bound on their number. A pass need not take a letter, so a loop need not end.
-/

namespace Scanner

variable {α τ : Type} {pass : List α → Option (τ × List α)}

/-- Passes that read the given outputs and leave the given letters. -/
inductive Reads (pass : List α → Option (τ × List α)) : List α → List τ → List α → Prop where
  | done (w : List α) : Reads pass w [] w
  | more {w w' rest : List α} {t : τ} {ts : List τ} (first : pass w = some (t, w'))
      (next : Reads pass w' ts rest) : Reads pass w (t :: ts) rest

/-- The passes from `w` to the end of the input. -/
inductive Scans (pass : List α → Option (τ × List α)) : List α → List τ → Prop where
  | finish {w : List α} (at_end : pass w = none) : Scans pass w []
  | more {w w' : List α} {t : τ} {ts : List τ} (first : pass w = some (t, w'))
      (next : Scans pass w' ts) : Scans pass w (t :: ts)

/-- The loop, for at most `fuel` tests of the end. -/
def scan (pass : List α → Option (τ × List α)) : Nat → List α → Option (List τ)
  | 0, _ => none
  | fuel + 1, w =>
      match pass w with
      | none => some []
      | some (t, w') => (scan pass fuel w').map (t :: ·)

/-! ## The loop and its run -/

theorem scans_of_scan {fuel : Nat} {w : List α} {ts : List τ} (ends : scan pass fuel w = some ts) :
    Scans pass w ts := by
  induction fuel generalizing w ts with
  | zero => cases ends
  | succ fuel ih =>
      rw [scan] at ends
      cases first : pass w with
      | none =>
          rw [first] at ends
          cases ends
          exact .finish first
      | some read =>
          obtain ⟨t, w'⟩ := read
          simp only [first, Option.map_eq_some_iff] at ends
          obtain ⟨us, rest, rfl⟩ := ends
          exact .more first (ih rest)

theorem scan_of_scans {w : List α} {ts : List τ} (run : Scans pass w ts) :
    scan pass (ts.length + 1) w = some ts := by
  induction run with
  | finish at_end => simp [scan, at_end]
  | more first _ ih => simp [scan, first, ih]

theorem scan_of_scans_le {w : List α} {ts : List τ} (run : Scans pass w ts) {fuel : Nat}
    (enough : ts.length < fuel) : scan pass fuel w = some ts := by
  induction run generalizing fuel with
  | finish at_end =>
      obtain ⟨fuel, rfl⟩ : ∃ f, fuel = f + 1 := ⟨fuel - 1, by omega⟩
      simp [scan, at_end]
  | more first _ ih =>
      obtain ⟨fuel, rfl⟩ : ∃ f, fuel = f + 1 := ⟨fuel - 1, by omega⟩
      simp [scan, first, ih (by simpa using enough)]

/-! ## One run -/

theorem Scans.after {w w' : List α} {t : τ} {ts : List τ} (run : Scans pass w ts)
    (first : pass w = some (t, w')) : ∃ us, ts = t :: us ∧ Scans pass w' us := by
  cases run with
  | finish at_end =>
      rw [at_end] at first
      cases first
  | more made next =>
      rw [made] at first
      cases first
      exact ⟨_, rfl, next⟩

theorem Scans.at_end {w : List α} {ts : List τ} (run : Scans pass w ts) (at_end : pass w = none) :
    ts = [] := by
  cases run with
  | finish => rfl
  | more made =>
      rw [at_end] at made
      cases made

theorem Scans.unique {w : List α} {ts us : List τ} (run : Scans pass w ts)
    (run' : Scans pass w us) : ts = us := by
  induction run generalizing us with
  | finish at_end => exact (run'.at_end at_end).symm
  | more first _ ih =>
      obtain ⟨vs, rfl, next⟩ := run'.after first
      rw [ih next]

theorem Scans.reads {w : List α} {ts : List τ} (run : Scans pass w ts) :
    ∃ rest, Reads pass w ts rest := by
  induction run with
  | finish => exact ⟨_, .done _⟩
  | more first _ ih =>
      obtain ⟨rest, next⟩ := ih
      exact ⟨rest, .more first next⟩

theorem Reads.begins {w rest : List α} {ts us : List τ} (part : Reads pass w ts rest)
    (run : Scans pass w us) : ts <+: us := by
  induction part generalizing us with
  | done => exact List.nil_prefix
  | more first _ ih =>
      obtain ⟨vs, rfl, next⟩ := run.after first
      exact List.prefix_cons_iff.mpr (.inr ⟨_, rfl, ih next⟩)

/-! ## Ends -/

/-- The passes come to an end. -/
def Halts (pass : List α → Option (τ × List α)) (w : List α) : Prop := ∃ ts, Scans pass w ts

theorem halts_at_end {w : List α} (at_end : pass w = none) : Halts pass w := ⟨[], .finish at_end⟩

/-- A pass that takes no letter is made for ever. -/
theorem not_halts_of_stuck {w : List α} {t : τ} (stuck : pass w = some (t, w)) :
    ¬ Halts pass w := by
  rintro ⟨ts, run⟩
  induction ts with
  | nil =>
      obtain ⟨us, absurd, -⟩ := run.after stuck
      cases absurd
  | cons t' ts ih =>
      obtain ⟨us, same, next⟩ := run.after stuck
      cases same
      exact ih next

/-! ## Where an input leaves a word -/

/-- An input that begins with a part of a word begins with all of it, or leaves it at one
    letter after that part. -/
theorem leaves_word {part word w : List α} (ofWord : part <+: word) (ofInput : part <+: w) :
    word <+: w ∨ ∃ u c v rest, word = u ++ c :: v ∧ w = u ++ rest ∧ part <+: u ∧
      rest.head? ≠ some c := by
  induction part generalizing word w with
  | nil =>
      clear ofWord ofInput
      induction word generalizing w with
      | nil => exact .inl (List.nil_prefix)
      | cons a word ih =>
          by_cases same : w.head? = some a
          · obtain ⟨w', rfl⟩ := List.head?_eq_some_iff.mp same
            rcases ih (w := w') with whole | ⟨u, c, v, rest, rfl, rfl, -, leaves⟩
            · exact .inl (List.cons_prefix_cons.mpr ⟨rfl, whole⟩)
            · exact .inr ⟨a :: u, c, v, rest, rfl, rfl, List.nil_prefix, leaves⟩
          · exact .inr ⟨[], a, word, w, rfl, rfl, List.nil_prefix, same⟩
  | cons a part ih =>
      obtain ⟨restWord, rfl⟩ := ofWord
      obtain ⟨restInput, rfl⟩ := ofInput
      rcases ih (List.prefix_append part restWord) (List.prefix_append part restInput) with
        whole | ⟨u, c, v, rest, sameWord, sameInput, begins, leaves⟩
      · exact .inl (List.cons_prefix_cons.mpr ⟨rfl, whole⟩)
      · refine .inr ⟨a :: u, c, v, rest, ?_, ?_, List.cons_prefix_cons.mpr ⟨rfl, begins⟩, leaves⟩
        · rw [List.cons_append, sameWord, List.cons_append]
        · rw [List.cons_append, sameInput, List.cons_append]

end Scanner
