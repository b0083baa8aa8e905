import RepositoryManager.Lexer
import RepositoryManager.Lib.Lines
import Mathlib.Logic.Function.Iterate

/-! # The character stream

`antlr3inputstream.c`, for the 8-bit encoding in which `processMsg` sets a message up: the
characters of the message one by one, and marks to come back to. A pointer into the message is
its offset.
-/

namespace RepositoryManager

open ByteString

/-- `ANTLR3_LEX_STATE`: what a mark keeps. -/
structure LexState where
  nextChar : Nat
  line : Nat
  charPositionInLine : Int
  currentLine : Nat
  deriving DecidableEq

/-- `ANTLR3_INPUT_STREAM` -/
structure InputStream extends LexState where
  data : Str
  markers : List LexState
  markDepth : Nat

namespace InputStream

def newlineChar : Char := '\n'

/-- `antlr3StringStreamNew` and `antlr3InputReset`: the first line is entered one column before
    its first character. -/
def new (data : Str) : InputStream :=
  { nextChar := 0, line := 1, charPositionInLine := -1, currentLine := 0
    data, markers := [], markDepth := 0 }

/-- `antlr38BitLA`, with `none` for `ANTLR3_CHARSTREAM_EOF` -/
def LA (s : InputStream) (la : Nat) : Option Char := s.data[s.nextChar + la - 1]?

/-- `antlr38BitConsume` -/
def consume (s : InputStream) : InputStream :=
  match s.data[s.nextChar]? with
  | none => s
  | some c =>
      if c = newlineChar then
        { s with
          line := s.line + 1
          charPositionInLine := 0
          currentLine := s.nextChar + 1
          nextChar := s.nextChar + 1 }
      else
        { s with
          charPositionInLine := s.charPositionInLine + 1
          nextChar := s.nextChar + 1 }

/-- `antlr38BitIndex` -/
def index (s : InputStream) : Nat := s.nextChar

/-- `antlr38BitMark`: an entry of the table is used again where there is one. -/
def mark (s : InputStream) : Nat × InputStream :=
  let markDepth := s.markDepth + 1
  let markers :=
    if s.markers.length < markDepth then s.markers ++ [s.toLexState]
    else s.markers.set (markDepth - 1) s.toLexState
  (markDepth, { s with markDepth, markers })

/-- `antlr38BitRelease` -/
def release (s : InputStream) (mark : Nat) : InputStream := { s with markDepth := mark - 1 }

/-- `antlr38BitSeek`, which goes back without a look at the lines. -/
def seek (s : InputStream) (seekPoint : Nat) : InputStream :=
  if seekPoint ≤ s.nextChar then { s with nextChar := seekPoint }
  else consume^[seekPoint - s.nextChar] s

/-- `antlr38BitRewind`, to a marker that the table has an entry for. -/
def rewind (s : InputStream) (mark : Nat) : InputStream :=
  match (s.release mark).markers[mark - 1]? with
  | none => s.release mark
  | some state => { (s.release mark).seek state.nextChar with toLexState := state }

/-- `antlr38BitSubstr` -/
def substr (s : InputStream) (start : Nat) (stop : Int) : Str :=
  (s.data.drop start).take (stop - start + 1).toNat

/-- The characters that are not consumed yet. -/
def left (s : InputStream) : Nat := s.data.length - s.nextChar

theorem LA_one (s : InputStream) : s.LA 1 = s.data[s.nextChar]? := rfl

theorem consume_data (s : InputStream) : s.consume.data = s.data := by
  unfold consume
  split
  · rfl
  · split <;> rfl

theorem consume_left {s : InputStream} {c : Char} (ahead : s.LA 1 = some c) :
    s.consume.left < s.left := by
  rw [LA_one] at ahead
  have inside := (List.getElem?_eq_some_iff.mp ahead).1
  have next : s.consume.nextChar = s.nextChar + 1 := by
    unfold consume
    rw [ahead]
    dsimp only
    split <;> rfl
  rw [left, left, next, consume_data]
  omega

end InputStream

/-! ## What a stream stands for -/

/-- What the stream keeps of the text behind it. -/
def LexState.behind (before : Str) : LexState where
  nextChar := before.length
  line := Lines.ended InputStream.newlineChar before + 1
  charPositionInLine := (Lines.lastLine InputStream.newlineChar before).length -
    if InputStream.newlineChar ∈ before then 0 else 1
  currentLine := Lines.lineStart InputStream.newlineChar before

/-- A stream between what is behind it and what is ahead of it. -/
structure InputStream.Between (before ahead : Str) (s : InputStream) : Prop where
  data : s.data = before ++ ahead
  place : s.toLexState = LexState.behind before
  depth : s.markDepth ≤ s.markers.length

namespace InputStream

variable {before ahead : Str} {c : Char} {s s' : InputStream}

theorem between_new (text : Str) : Between [] text (new text) := ⟨rfl, rfl, Nat.le_refl 0⟩

theorem Between.nextChar (between : Between before ahead s) : s.nextChar = before.length :=
  congrArg LexState.nextChar between.place

theorem Between.lookAhead (between : Between before ahead s) : s.LA 1 = ahead.head? := by
  rw [LA_one, between.data, between.nextChar, List.getElem?_append_right (Nat.le_refl _),
    Nat.sub_self, List.head?_eq_getElem?]

theorem Between.left (between : Between before ahead s) : s.left = ahead.length := by
  rw [InputStream.left, between.data, between.nextChar, List.length_append, Nat.add_sub_cancel_left]

theorem Between.stay (between : Between before [] s) : s.consume = s := by
  have none : s.data[s.nextChar]? = none := between.lookAhead
  rw [consume, none]

theorem behind_newline (before : Str) : LexState.behind (before ++ [newlineChar]) =
    { nextChar := before.length + 1
      line := Lines.ended newlineChar before + 1 + 1
      charPositionInLine := 0
      currentLine := before.length + 1 } := by
  rw [LexState.behind, Lines.lastLine_newline, Lines.lineStart_newline, if_pos (by simp),
    Lines.ended, List.count_append, List.count_singleton_self, List.length_append]
  rfl

theorem behind_other (before : Str) (other : c ≠ newlineChar) : LexState.behind (before ++ [c]) =
    { LexState.behind before with
      nextChar := before.length + 1
      charPositionInLine := (LexState.behind before).charPositionInLine + 1 } := by
  have none : newlineChar ∉ [c] := by
    rw [List.mem_singleton]
    exact other.symm
  have inside : newlineChar ∈ before ++ [c] ↔ newlineChar ∈ before := by
    rw [List.mem_append, or_iff_left none]
  simp only [LexState.behind, Lines.lastLine_append none, Lines.lineStart_append none, inside,
    Lines.ended, List.count_append, List.count_eq_zero.mpr none, List.length_append,
    List.length_singleton, Nat.add_zero]
  congr 1
  omega

theorem Between.consume (between : Between before (c :: ahead) s) :
    Between (before ++ [c]) ahead s.consume := by
  have next : s.data[s.nextChar]? = some c := between.lookAhead
  have place : s.consume.toLexState = LexState.behind (before ++ [c]) := by
    have here := between.place
    rw [InputStream.consume, next]
    dsimp only
    split
    · next same =>
        subst same
        rw [behind_newline, ← between.nextChar]
        simp only [LexState.mk.injEq, true_and, and_true]
        exact congrArg (LexState.line · + 1) here
    · next other =>
        rw [behind_other before other, ← here, ← between.nextChar]
  refine ⟨?_, place, ?_⟩
  · rw [consume_data, between.data, List.append_assoc]
    rfl
  · have depth := between.depth
    unfold InputStream.consume
    rw [next]
    dsimp only
    split <;> exact depth

/-! ## Marks -/

theorem consume_eq (s : InputStream) : s.consume = { s with toLexState := s.consume.toLexState } := by
  unfold InputStream.consume
  split
  · rfl
  · split <;> rfl

theorem iterate_eq (n : Nat) (s : InputStream) :
    consume^[n] s = { s with toLexState := (consume^[n] s).toLexState } := by
  induction n generalizing s with
  | zero => rfl
  | succ n ih => rw [Function.iterate_succ_apply, ih, consume_eq]

theorem seek_eq (s : InputStream) (seekPoint : Nat) :
    s.seek seekPoint = { s with toLexState := (s.seek seekPoint).toLexState } := by
  unfold seek
  split
  · rfl
  · exact iterate_eq _ s

theorem mark_get (depth : s.markDepth ≤ s.markers.length) :
    s.mark.2.markers[s.mark.1 - 1]? = some s.toLexState := by
  unfold mark
  simp only [Nat.add_sub_cancel]
  split
  · next full =>
      have last : s.markDepth = s.markers.length := by omega
      rw [last, List.getElem?_append_right (Nat.le_refl _), Nat.sub_self]
      rfl
  · next again =>
      have inside : s.markDepth < s.markers.length := by omega
      rw [List.getElem?_set_self inside]

theorem Between.mark (between : Between before ahead s) : Between before ahead s.mark.2 := by
  refine ⟨between.data, between.place, ?_⟩
  have depth := between.depth
  unfold InputStream.mark
  dsimp only
  split
  · rw [List.length_append]
    exact Nat.add_le_add_right depth 1
  · next again =>
      rw [List.length_set]
      exact Nat.le_of_not_lt again

theorem rewind_eq {m : Nat} {state : LexState} (found : s.markers[m - 1]? = some state) :
    s.rewind m = { s with toLexState := state, markDepth := m - 1 } := by
  have found : (s.release m).markers[m - 1]? = some state := found
  rw [rewind, found]
  dsimp only
  rw [seek_eq]
  rfl

theorem Between.rewind (between : Between before ahead s) {state : LexState}
    (gone : s' = { s.mark.2 with toLexState := state }) :
    Between before ahead (s'.rewind s.mark.1) := by
  have found : s'.markers[s.mark.1 - 1]? = some s.toLexState := by
    rw [gone]
    exact mark_get between.depth
  have depth : s.markDepth + 1 ≤ s.mark.2.markers.length := between.mark.depth
  rw [rewind_eq found, gone]
  refine ⟨between.data, between.place, ?_⟩
  show s.markDepth + 1 - 1 ≤ s.mark.2.markers.length
  omega

end InputStream

end RepositoryManager
