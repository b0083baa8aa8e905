import Mathlib.Data.List.Basic

/-! # Lines

A text is a list of letters one of which ends a line. What is behind a reader tells the line
it is on: how many lines have ended, and what it has read of the last one.
-/

namespace Lines

variable {α : Type} [DecidableEq α] (newline : α)

/-- What has been read of the line a reader is on, of the text behind it. -/
def lastLine : List α → List α
  | [] => []
  | a :: text => if newline ∈ a :: text then lastLine text else a :: text

/-- The number of lines that have ended. -/
def ended (text : List α) : Nat := text.count newline

/-- Where the line begins that a reader is on. -/
def lineStart (text : List α) : Nat := text.length - (lastLine newline text).length

variable {newline} {text rest : List α} {a : α}

theorem lastLine_suffix (text : List α) : lastLine newline text <:+ text := by
  induction text with
  | nil => exact List.suffix_rfl
  | cons a text ih =>
      rw [lastLine]
      split
      · exact ih.trans (List.suffix_cons a text)
      · exact List.suffix_rfl

theorem lastLine_of_not_mem (none : newline ∉ text) : lastLine newline text = text := by
  cases text with
  | nil => rfl
  | cons a text => rw [lastLine, if_neg none]

theorem lastLine_newline (text : List α) : lastLine newline (text ++ [newline]) = [] := by
  induction text with
  | nil => simp [lastLine]
  | cons a text ih => rw [List.cons_append, lastLine, if_pos (by simp), ih]

theorem lastLine_append (none : newline ∉ rest) :
    lastLine newline (text ++ rest) = lastLine newline text ++ rest := by
  induction text with
  | nil => exact lastLine_of_not_mem none
  | cons a text ih =>
      rw [List.cons_append, lastLine, lastLine, ih]
      by_cases inside : newline ∈ a :: text
      · have further : newline ∈ a :: (text ++ rest) := List.mem_append_left rest inside
        rw [if_pos inside, if_pos further]
      · have outside : newline ∉ a :: (text ++ rest) := by
          rw [← List.cons_append, List.mem_append, not_or]
          exact ⟨inside, none⟩
        rw [if_neg inside, if_neg outside, List.cons_append]

theorem lineStart_add (text : List α) :
    lineStart newline text + (lastLine newline text).length = text.length :=
  Nat.sub_add_cancel (lastLine_suffix text).length_le

theorem lineStart_newline (text : List α) :
    lineStart newline (text ++ [newline]) = text.length + 1 := by
  rw [lineStart, lastLine_newline, List.length_append]
  rfl

theorem lineStart_append (none : newline ∉ rest) :
    lineStart newline (text ++ rest) = lineStart newline text := by
  rw [lineStart, lineStart, lastLine_append none, List.length_append, List.length_append,
    Nat.add_sub_add_right]

end Lines
