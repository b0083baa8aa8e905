import RepositoryManager.Lib.ByteString

/-! # Shell words

How the shell reads a command line that spells out one command: blanks separate the
words, and double quotes keep together what stands between them. A backslash between
quotes takes its meaning from one active character. Whatever else means something to
the shell (an expansion, a substitution, an operator, a pattern) makes the reading fail,
for then the text does not say by itself what is run.
-/

namespace ShellWords

open ByteString

def doubleQuote : Char := Char.ofNat 34
def backslash : Char := Char.ofNat 92
def backquote : Char := Char.ofNat 96

/-- The characters that are active between double quotes. -/
def isActive (c : Char) : Bool :=
  c = doubleQuote || c = '$' || c = backquote || c = backslash

/-- Characters that stand for themselves outside quotes. -/
def isPlain (c : Char) : Bool :=
  c.isAlphanum || "-_./,:+@%".toList.contains c

def isBlank (c : Char) : Bool := c = ' ' || c = '\t'

/-- Whether a `$` before this text begins an expansion. -/
def expands : Str → Bool
  | [] => false
  | c :: _ => c.isAlphanum || "_\x7b(@*#?-$!".toList.contains c

/-- Where the reader is: between two words, in a word, between the double quotes of a
    word, or there behind a backslash. -/
inductive Place where
  | between
  | bare
  | quoted
  | escaped

/-- The words of a command, after the part `word` of the word being read. -/
def read : Place → Str → Str → Option (List Str)
  | .between, _, [] => some []
  | .bare, word, [] => some [word]
  | .quoted, _, [] => none
  | .escaped, _, [] => none
  | .between, _, c :: s =>
      if isBlank c then read .between [] s
      else if c = doubleQuote then read .quoted [] s
      else if isPlain c then read .bare [c] s
      else none
  | .bare, word, c :: s =>
      if isBlank c then (read .between [] s).map (word :: ·)
      else if c = doubleQuote then read .quoted word s
      else if isPlain c then read .bare (word ++ [c]) s
      else none
  | .quoted, word, c :: s =>
      if c = doubleQuote then read .bare word s
      else if c = backslash then read .escaped word s
      else if c = backquote then none
      else if c = '$' && expands s then none
      else read .quoted (word ++ [c]) s
  | .escaped, word, c :: s =>
      if c = '\n' then read .quoted word s
      else if isActive c then read .quoted (word ++ [c]) s
      else read .quoted (word ++ [backslash, c]) s

/-- The words of a command line. -/
def words (command : Str) : Option (List Str) := read .between [] command

/-! ## Words that are read as they stand -/

theorem isPlain_not_blank {c : Char} (plain : isPlain c = true) : isBlank c = false := by
  cases blank : isBlank c with
  | false => rfl
  | true =>
      simp only [isBlank, Bool.or_eq_true, decide_eq_true_eq] at blank
      rcases blank with rfl | rfl
      · cases plain
      · cases plain

theorem isPlain_not_quote {c : Char} (plain : isPlain c = true) : c ≠ doubleQuote := by
  rintro rfl
  cases plain

theorem read_bare {u : Str} (plain : ∀ c ∈ u, isPlain c = true) (word s : Str) :
    read .bare word (u ++ s) = read .bare (word ++ u) s := by
  induction u generalizing word with
  | nil => simp
  | cons c u ih =>
      have here := plain c List.mem_cons_self
      rw [List.cons_append, read]
      simp only [isPlain_not_blank here, isPlain_not_quote here, here, Bool.false_eq_true, if_false,
        if_true]
      rw [ih fun d member => plain d (List.mem_cons_of_mem _ member)]
      simp

theorem words_plain {u : Str} (nonempty : u ≠ []) (plain : ∀ c ∈ u, isPlain c = true) (s : Str) :
    words (u ++ ' ' :: s) = (words s).map (u :: ·) := by
  cases u with
  | nil => exact absurd rfl nonempty
  | cons c u =>
      have here := plain c List.mem_cons_self
      rw [words, List.cons_append, read]
      simp only [isPlain_not_blank here, isPlain_not_quote here, here, Bool.false_eq_true, if_false,
        if_true]
      rw [read_bare fun d member => plain d (List.mem_cons_of_mem _ member)]
      rfl

theorem read_quoted {u : Str} (inert : ∀ c ∈ u, isActive c = false) (word s : Str) :
    read .quoted word (u ++ s) = read .quoted (word ++ u) s := by
  induction u generalizing word with
  | nil => simp
  | cons c u ih =>
      have here := inert c List.mem_cons_self
      simp only [isActive, Bool.or_eq_false_iff, decide_eq_false_iff_not] at here
      obtain ⟨⟨⟨notQuote, notDollar⟩, notBackquote⟩, notBackslash⟩ := here
      rw [List.cons_append, read]
      simp only [notQuote, notDollar, notBackquote, notBackslash, if_false, decide_false,
        Bool.false_and, Bool.false_eq_true]
      rw [ih fun d member => inert d (List.mem_cons_of_mem _ member)]
      simp

/-- A command line of plain words and a last word between double quotes. -/
def command (plain : List Str) (last : Str) : Str :=
  plain.flatMap (· ++ [' ']) ++ doubleQuote :: (last ++ [doubleQuote])

theorem words_command {plain : List Str} {last : Str}
    (areWords : ∀ u ∈ plain, u ≠ [] ∧ ∀ c ∈ u, isPlain c = true)
    (inert : ∀ c ∈ last, isActive c = false) :
    words (command plain last) = some (plain ++ [last]) := by
  induction plain with
  | nil =>
      have opens : words (command [] last) = read .quoted [] (last ++ [doubleQuote]) := rfl
      rw [opens, read_quoted inert, List.nil_append]
      rfl
  | cons u plain ih =>
      obtain ⟨nonempty, isWord⟩ := areWords u List.mem_cons_self
      have first : command (u :: plain) last = u ++ ' ' :: command plain last := by
        simp [command]
      rw [first, words_plain nonempty isWord,
        ih fun v member => areWords v (List.mem_cons_of_mem _ member)]
      rfl

example : words ("echo \"a \\\" $ b\"c".toList) = some ["echo".toList, "a \" $ bc".toList] := by
  decide

end ShellWords
