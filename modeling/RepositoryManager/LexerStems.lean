import RepositoryManager.Lexer

/-! # The words the tables tell apart

The tables of decision 4 tell a few words apart: the four keywords, the digits of a
number, and the openings of the header lines. `stems` lists how far the tables
follow each of them, with the state that has read so much, and `tables_ok` checks
the tables at every such state.
-/

namespace RepositoryManager.Lexer

open ByteString CyclicDfa

/-- The tokens whose text is also a text of the class `TEXT`. -/
def keywords : List TokenType := [.implies, .datime, .request, .saysWord]

/-- How much of each header line tells it from all others. -/
def openings : List (Str × TokenType) :=
  [(lit5.take 18, .credentialHeader), (lit6.take 16, .credentialEnd),
   (lit7.take 12, .publicKeyHeader), (lit8.take 10, .publicKeyEnd),
   (lit9.take 12, .signatureHeader), (lit10.take 10, .signatureEnd),
   (lit11.take 12, .validityHeader), (lit12.take 10, .validityEnd), (lit13.take 18, .certHeader),
   (lit14.take 16, .certEnd), (lit15.take 26, .challengeHeader), (lit16.take 24, .challengeEnd),
   (lit17.take 26, .responseHeader), (lit18.take 24, .responseEnd),
   (lit19.take 23, .requestHeader), (lit20.take 21, .requestEnd), (lit21.take 23, .replyHeader),
   (lit22.take 21, .replyEnd), (lit23.take 5, .notBefore), (lit24.take 5, .notAfter)]

/-- The texts of the class `TEXT` that begin a header line if a blank follows. -/
def headings : List Str := [lit5.take 10, lit6.take 8, lit23.take 3]

/-- The keyword that a text is, or `TEXT`. -/
def keywordOr (u : Str) : TokenType := (keywords.find? fun t => literal t = u).getD .text

/-- The token of a run of `TEXT` characters that begins no header line. -/
def classify (r : Str) : TokenType := if r.all Char.isDigit then .num else keywordOr r

/-- The characters with which a keyword or an opening goes on after `u`. -/
def nexts (u : Str) : List Char :=
  (keywords.map literal ++ openings.map Prod.fst).filterMap fun x =>
    if u.isPrefixOf x then (x.drop u.length).head? else none

/-- The paths through the tables: a literal, how much of it has been read before, and the
    states that read on. -/
def branches : List (Str × Nat × List Nat) :=
  [(lit1, 0, [5, 15]), (lit2, 0, [6, 16, 22, 27, 32, 38]), (lit3, 0, [7, 17, 23, 28, 33, 39, 43]),
   (lit4, 0, [8, 18, 24, 29]), (lit23, 0, [13, 20, 26, 31]), (lit23, 4, [36]), (lit24, 4, [37]),
   (lit5, 0, [12, 19, 25, 30, 35]), (lit5, 5, [40, 44, 47, 49, 51, 57]), (lit7, 11, [61]),
   (lit9, 11, [62]), (lit11, 11, [63]), (lit5, 11, [60, 67, 71, 75, 79, 85]), (lit5, 17, [89]),
   (lit13, 17, [90]), (lit15, 17, [91, 95, 99, 103, 108, 111, 115, 118]), (lit15, 25, [119]),
   (lit17, 25, [120]), (lit19, 11, [64, 68, 72, 76, 80, 86, 92, 96, 100, 104, 109]),
   (lit19, 22, [112]), (lit21, 22, [113]), (lit6, 5, [41, 45, 48, 50]), (lit8, 9, [53]),
   (lit10, 9, [54]), (lit12, 9, [55]), (lit6, 9, [52, 58, 65, 69, 73, 77]), (lit6, 15, [81]),
   (lit14, 15, [82]), (lit16, 15, [83, 87, 93, 97, 101, 105, 110, 114]), (lit16, 23, [116]),
   (lit18, 23, [117]), (lit20, 9, [56, 59, 66, 70, 74, 78, 84, 88, 94, 98, 102]),
   (lit20, 20, [106]), (lit22, 20, [107])]

/-- What has been read of a keyword or an opening, and the state that has read it. -/
def stems : List (Str × Nat) :=
  branches.flatMap fun (text, before, states) =>
    states.zipIdx.map fun (s, i) => (text.take (before + i + 1), s)

/-! ## The tables at each state -/

/-- The state accepts the alternative of a token. -/
def accepting (s : Nat) (type : TokenType) : Bool :=
  entry cdfa4.special s < 0 && 1 ≤ entry cdfa4.accept s &&
    alternatives[(entry cdfa4.accept s).toNat - 1]? = some type

/-- A move off the stems: to the given token, or to an exception once a blank is read. -/
def leaves (u : Str) (type : TokenType) : Move → Bool
  | .goto s => ' ' ∉ u && accepting s type
  | .noViableAlt => ' ' ∈ u
  | .alt _ => false

/-- What the move at a character should be. -/
def moveOk (u : Str) (c : Char) (m : Move) : Bool :=
  if c ∈ nexts u then
    match m with
    | .goto s => stems.any fun x => x.2 = s && x.1 = u ++ [c]
    | _ => false
  else leaves u (if Grammar.isTextChar c then .text else keywordOr u) m

/-- The moves of a state that the tables list. -/
def rangeOk (s : Nat) (ok : Char → Move → Bool) : Bool :=
  (List.range (entry cdfa4.max s - entry cdfa4.min s + 1).toNat).all fun i =>
    ok (Char.ofNat (entry cdfa4.min s + i).toNat) (cdfa4.move s (entry cdfa4.min s + i))

/-- A complete opening is accepted, and nothing goes on after it. -/
def openingOk (u : Str) (s : Nat) : Bool :=
  (nexts u).isEmpty && openings.any (fun y => y.1 = u) &&
    openings.all fun y => y.1 ≠ u || accepting s y.2

/-- The tables at the state that has read a part of a keyword or of an opening. -/
def stemOk (u : Str) (s : Nat) : Bool :=
  openings.all (fun y => y.1 ≠ u) && entry cdfa4.special s < 0 && entry cdfa4.accept s < 1 &&
    0 ≤ entry cdfa4.min s && leaves u (keywordOr u) (cdfa4.eotMove s) && rangeOk s (moveOk u) &&
    (nexts u).all (fun c => entry cdfa4.min s ≤ charCode c && charCode c ≤ entry cdfa4.max s &&
      (Grammar.isTextChar c || ' ' ∈ u || (c = ' ' && u ∈ headings))) &&
    (keywordOr u = .text || (entry cdfa4.min s ≤ 43 && 122 ≤ entry cdfa4.max s))

/-- The token that a character outside the stems begins. -/
def firstType (c : Char) : TokenType :=
  if c = '(' then .openParen else if c = ')' then .closeParen else if c = ',' then .comma
  else if c = '.' then .stop else if c = ' ' || c = '\t' || c = '\n' || c = '\r' then .ws
  else if Grammar.isTextChar c then .text else .num

/-- What the move from the start should be. -/
def startOk (c : Char) : Move → Bool
  | .goto s =>
      if c ∈ nexts [] then stems.any fun x => x.2 = s && x.1 = [c]
      else if c.isDigit then s = 10
      else accepting s (firstType c)
  | _ => false

/-- What the move after digits should be. -/
def digitsOk (c : Char) : Move → Bool
  | .goto s =>
      if c.isDigit then s = 10
      else accepting s (if Grammar.isTextChar c then .text else .num)
  | _ => false

/-- The tables are right at every stem of a list, at the start and after digits. -/
structure TablesOk (table : List (Str × Nat)) : Prop where
  stems : (table.all fun x => openingOk x.1 x.2 || stemOk x.1 x.2) = true
  start : rangeOk 0 startOk = true
  digits : rangeOk 10 digitsOk = true

/-- The stems, checked against the tables. -/
def checkedStems : { table : List (Str × Nat) // table = stems ∧ TablesOk table } :=
  ⟨stems, rfl, by decide +kernel, by decide +kernel, by decide +kernel⟩

theorem tables_ok : TablesOk stems := by
  obtain ⟨table, rfl, ok⟩ := checkedStems
  exact ok

/-! ## The moves at every character -/

theorem eof_none (s : Nat) : entry cdfa4.eof s = -1 := by
  have all : cdfa4.eof = List.replicate 121 (-1) := by decide +kernel
  rw [all, entry, List.getD_eq_getElem?_getD, List.getElem?_replicate]
  split <;> rfl

theorem move_unlisted {s : Nat} {c : Int} (ordinary : entry cdfa4.special s < 0)
    (undecided : entry cdfa4.accept s < 1)
    (unlisted : ¬ (entry cdfa4.min s ≤ c ∧ c ≤ entry cdfa4.max s)) :
    cdfa4.move s c = cdfa4.eotMove s := by
  have noEof : ¬ (c = -1 ∧ 0 ≤ entry cdfa4.eof s) := by
    rw [eof_none]
    omega
  rw [move, if_neg (by omega), if_neg (by omega), if_neg unlisted, if_neg noEof]
  split
  · rfl
  · next noEot => rw [eotMove, if_neg noEot]

theorem move_listed {s : Nat} {c : Char} {ok : Char → Move → Bool} (range : rangeOk s ok = true)
    (above : entry cdfa4.min s ≤ charCode c) (below : charCode c ≤ entry cdfa4.max s) :
    ok c (cdfa4.move s (charCode c)) = true := by
  have here := List.all_eq_true.mp range (charCode c - entry cdfa4.min s).toNat
    (List.mem_range.mpr (by omega))
  have code : entry cdfa4.min s + ((charCode c - entry cdfa4.min s).toNat : Int) = charCode c := by
    omega
  rw [code] at here
  have char : Char.ofNat (charCode c).toNat = c := by
    rw [charCode, Int.toNat_natCast, Char.ofNat_toNat]
  rwa [char] at here

theorem charCode_le {a b : Char} (le : a ≤ b) : charCode a ≤ charCode b :=
  Int.ofNat_le.mpr (UInt32.le_iff_toNat_le.mp (Char.le_def.mp le))

theorem textChar_code {c : Char} (isText : Grammar.isTextChar c = true) :
    43 ≤ charCode c ∧ charCode c ≤ 122 := by
  have between : ∀ {a b : Char}, a ≤ c ∧ c ≤ b → 43 ≤ charCode a → charCode b ≤ 122 →
      43 ≤ charCode c ∧ charCode c ≤ 122 :=
    fun range low high =>
      ⟨Int.le_trans low (charCode_le range.1), Int.le_trans (charCode_le range.2) high⟩
  simp only [Grammar.isTextChar, Bool.or_eq_true, Bool.and_eq_true, decide_eq_true_eq] at isText
  obtain (((((((small | capital) | digit) | rfl) | rfl) | rfl) | rfl) | rfl) | rfl := isText
  · exact between small (by decide) (by decide)
  · exact between capital (by decide) (by decide)
  · exact between digit (by decide) (by decide)
  all_goals decide

end RepositoryManager.Lexer
