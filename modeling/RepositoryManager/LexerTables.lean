import RepositoryManager.CyclicDfa

/-! # The tables of the lexer

`RepositoryManagerLexer.c`: the literals that the rules match, and the tables of
decision 4, by which `mTokens` chooses the token that begins at a character. Symbols
are character codes. The rows are the tables `dfa4_T0` to `dfa4_T86`, and
`dfa4Transitions` names the row of each state.
-/

namespace RepositoryManager.Lexer

/-! ## The literals, without the terminator -/

def lit1 : List Char := [':', '-']

def lit2 : List Char := ['d', 'a', 't', 'i', 'm', 'e']

def lit3 : List Char := ['r', 'e', 'q', 'u', 'e', 's', 't']

def lit4 : List Char := ['s', 'a', 'y', 's']

def lit5 : List Char :=
  ['-', '-', '-', '-', '-', 'B', 'E', 'G', 'I', 'N', ' ', 'M', 'P', 'K', 'I', ' ', 'C', 'R', 'E',
   'D', 'E', 'N', 'T', 'I', 'A', 'L', '-', '-', '-', '-', '-']

def lit6 : List Char :=
  ['-', '-', '-', '-', '-', 'E', 'N', 'D', ' ', 'M', 'P', 'K', 'I', ' ', 'C', 'R', 'E', 'D', 'E',
   'N', 'T', 'I', 'A', 'L', '-', '-', '-', '-', '-']

def lit7 : List Char :=
  ['-', '-', '-', '-', '-', 'B', 'E', 'G', 'I', 'N', ' ', 'P', 'U', 'B', 'L', 'I', 'C', ' ', 'K',
   'E', 'Y', '-', '-', '-', '-', '-']

def lit8 : List Char :=
  ['-', '-', '-', '-', '-', 'E', 'N', 'D', ' ', 'P', 'U', 'B', 'L', 'I', 'C', ' ', 'K', 'E', 'Y',
   '-', '-', '-', '-', '-']

def lit9 : List Char :=
  ['-', '-', '-', '-', '-', 'B', 'E', 'G', 'I', 'N', ' ', 'S', 'I', 'G', 'N', 'A', 'T', 'U', 'R',
   'E', '-', '-', '-', '-', '-']

def lit10 : List Char :=
  ['-', '-', '-', '-', '-', 'E', 'N', 'D', ' ', 'S', 'I', 'G', 'N', 'A', 'T', 'U', 'R', 'E', '-',
   '-', '-', '-', '-']

def lit11 : List Char :=
  ['-', '-', '-', '-', '-', 'B', 'E', 'G', 'I', 'N', ' ', 'V', 'A', 'L', 'I', 'D', 'I', 'T', 'Y',
   '-', '-', '-', '-', '-']

def lit12 : List Char :=
  ['-', '-', '-', '-', '-', 'E', 'N', 'D', ' ', 'V', 'A', 'L', 'I', 'D', 'I', 'T', 'Y', '-', '-',
   '-', '-', '-']

def lit13 : List Char :=
  ['-', '-', '-', '-', '-', 'B', 'E', 'G', 'I', 'N', ' ', 'M', 'P', 'K', 'I', ' ', 'C', 'E', 'R',
   'T', 'I', 'F', 'I', 'C', 'A', 'T', 'E', '-', '-', '-', '-', '-']

def lit14 : List Char :=
  ['-', '-', '-', '-', '-', 'E', 'N', 'D', ' ', 'M', 'P', 'K', 'I', ' ', 'C', 'E', 'R', 'T', 'I',
   'F', 'I', 'C', 'A', 'T', 'E', '-', '-', '-', '-', '-']

def lit15 : List Char :=
  ['-', '-', '-', '-', '-', 'B', 'E', 'G', 'I', 'N', ' ', 'M', 'P', 'K', 'I', ' ', 'C', 'H', 'A',
   'L', 'L', 'E', 'N', 'G', 'E', '-', '-', '-', '-', '-']

def lit16 : List Char :=
  ['-', '-', '-', '-', '-', 'E', 'N', 'D', ' ', 'M', 'P', 'K', 'I', ' ', 'C', 'H', 'A', 'L', 'L',
   'E', 'N', 'G', 'E', '-', '-', '-', '-', '-']

def lit17 : List Char :=
  ['-', '-', '-', '-', '-', 'B', 'E', 'G', 'I', 'N', ' ', 'M', 'P', 'K', 'I', ' ', 'C', 'H', 'A',
   'L', 'L', 'E', 'N', 'G', 'E', ' ', 'R', 'E', 'S', 'P', 'O', 'N', 'S', 'E', '-', '-', '-', '-',
   '-']

def lit18 : List Char :=
  ['-', '-', '-', '-', '-', 'E', 'N', 'D', ' ', 'M', 'P', 'K', 'I', ' ', 'C', 'H', 'A', 'L', 'L',
   'E', 'N', 'G', 'E', ' ', 'R', 'E', 'S', 'P', 'O', 'N', 'S', 'E', '-', '-', '-', '-', '-']

def lit19 : List Char :=
  ['-', '-', '-', '-', '-', 'B', 'E', 'G', 'I', 'N', ' ', 'R', 'E', 'P', 'O', 'S', 'I', 'T', 'O',
   'R', 'Y', ' ', 'C', 'L', 'I', 'E', 'N', 'T', ' ', 'R', 'E', 'Q', 'U', 'E', 'S', 'T', '-', '-',
   '-', '-', '-']

def lit20 : List Char :=
  ['-', '-', '-', '-', '-', 'E', 'N', 'D', ' ', 'R', 'E', 'P', 'O', 'S', 'I', 'T', 'O', 'R', 'Y',
   ' ', 'C', 'L', 'I', 'E', 'N', 'T', ' ', 'R', 'E', 'Q', 'U', 'E', 'S', 'T', '-', '-', '-', '-',
   '-']

def lit21 : List Char :=
  ['-', '-', '-', '-', '-', 'B', 'E', 'G', 'I', 'N', ' ', 'R', 'E', 'P', 'O', 'S', 'I', 'T', 'O',
   'R', 'Y', ' ', 'S', 'E', 'R', 'V', 'E', 'R', ' ', 'R', 'E', 'P', 'L', 'Y', '-', '-', '-', '-',
   '-']

def lit22 : List Char :=
  ['-', '-', '-', '-', '-', 'E', 'N', 'D', ' ', 'R', 'E', 'P', 'O', 'S', 'I', 'T', 'O', 'R', 'Y',
   ' ', 'S', 'E', 'R', 'V', 'E', 'R', ' ', 'R', 'E', 'P', 'L', 'Y', '-', '-', '-', '-', '-']

def lit23 : List Char := ['N', 'o', 't', ' ', 'b', 'e', 'f', 'o', 'r', 'e', ':']

def lit24 : List Char := ['N', 'o', 't', ' ', 'a', 'f', 't', 'e', 'r', ':']

/-! ## Decision 4 -/

def dfa4Eot : List Int :=
  [11, -1, -1, -1, -1, 14, 14, 14, 14, -1, 11, -1, 14, 14, -1, 21, 14, 14, 14, 14, 14, -1, 14, 14,
   14, 14, 14, 14, 14, 34, 14, -1, 14, 14, -1, 14, -1, -1, 42, 14, 14, 14, -1, 46, 14, 14, -1, 14,
   14, 14, -1, 14, -1, -1, -1, -1, -1, -1, -1, -1, -1, -1, -1, -1, -1, -1, -1, -1, -1, -1, -1, -1,
   -1, -1, -1, -1, -1, -1, -1, -1, -1, -1, -1, -1, -1, -1, -1, -1, -1, -1, -1, -1, -1, -1, -1, -1,
   -1, -1, -1, -1, -1, -1, -1, -1, -1, -1, -1, -1, -1, -1, -1, -1, -1, -1, -1, -1, -1, -1, -1, -1,
   -1]

def dfa4Eof : List Int :=
  [-1, -1, -1, -1, -1, -1, -1, -1, -1, -1, -1, -1, -1, -1, -1, -1, -1, -1, -1, -1, -1, -1, -1, -1,
   -1, -1, -1, -1, -1, -1, -1, -1, -1, -1, -1, -1, -1, -1, -1, -1, -1, -1, -1, -1, -1, -1, -1, -1,
   -1, -1, -1, -1, -1, -1, -1, -1, -1, -1, -1, -1, -1, -1, -1, -1, -1, -1, -1, -1, -1, -1, -1, -1,
   -1, -1, -1, -1, -1, -1, -1, -1, -1, -1, -1, -1, -1, -1, -1, -1, -1, -1, -1, -1, -1, -1, -1, -1,
   -1, -1, -1, -1, -1, -1, -1, -1, -1, -1, -1, -1, -1, -1, -1, -1, -1, -1, -1, -1, -1, -1, -1, -1,
   -1]

def dfa4Min : List Int :=
  [9, -1, -1, -1, -1, 45, 97, 101, 97, -1, 43, -1, 45, 111, -1, 43, 116, 113, 121, 45, 116, -1,
   105, 117, 115, 45, 32, 109, 101, 43, 45, 97, 101, 115, -1, 66, -1, -1, 43, 116, 69, 78, -1, 43,
   71, 68, -1, 73, 32, 78, 77, 32, 80, -1, -1, -1, 69, 77, 75, 80, 80, -1, -1, -1, 69, 73, 79, 75,
   80, 32, 83, 73, 79, 67, 73, 32, 83, 69, 84, 67, 73, -1, -1, 65, 79, 69, 84, 76, 82, -1, -1, 65,
   79, 76, 89, 76, 82, 69, 32, 76, 89, 78, 67, 69, 32, 71, -1, -1, 78, 67, 69, 71, -1, -1, 32, 69,
   -1, -1, 32, -1, -1]

def dfa4Max : List Int :=
  [122, -1, -1, -1, -1, 45, 97, 101, 97, -1, 122, -1, 45, 111, -1, 122, 116, 113, 121, 45, 116,
   -1, 105, 117, 115, 45, 32, 109, 101, 122, 45, 98, 101, 115, -1, 69, -1, -1, 122, 116, 69, 78,
   -1, 122, 71, 68, -1, 73, 32, 78, 86, 32, 80, -1, -1, -1, 69, 86, 75, 80, 80, -1, -1, -1, 69,
   73, 79, 75, 80, 32, 83, 73, 79, 67, 73, 32, 83, 82, 84, 67, 73, -1, -1, 65, 79, 82, 84, 76, 82,
   -1, -1, 65, 79, 76, 89, 76, 82, 69, 32, 76, 89, 78, 83, 69, 32, 71, -1, -1, 78, 83, 69, 71, -1,
   -1, 45, 69, -1, -1, 45, -1, -1]

def dfa4Accept : List Int :=
  [-1, 1, 2, 3, 4, -1, -1, -1, -1, 9, -1, 10, -1, -1, 11, -1, -1, -1, -1, -1, -1, 5, -1, -1, -1,
   -1, -1, -1, -1, -1, -1, -1, -1, -1, 8, -1, 30, 31, -1, -1, -1, -1, 6, -1, -1, -1, 7, -1, -1,
   -1, -1, -1, -1, 15, 17, 19, -1, -1, -1, -1, -1, 14, 16, 18, -1, -1, -1, -1, -1, -1, -1, -1, -1,
   -1, -1, -1, -1, -1, -1, -1, -1, 13, 21, -1, -1, -1, -1, -1, -1, 12, 20, -1, -1, -1, -1, -1, -1,
   -1, -1, -1, -1, -1, -1, -1, -1, -1, 27, 29, -1, -1, -1, -1, 26, 28, -1, -1, 23, 25, -1, 22, 24]

def dfa4Special : List Int :=
  [-1, -1, -1, -1, -1, -1, -1, -1, -1, -1, -1, -1, -1, -1, -1, -1, -1, -1, -1, -1, -1, -1, -1, -1,
   -1, -1, -1, -1, -1, -1, -1, -1, -1, -1, -1, -1, -1, -1, -1, -1, -1, -1, -1, -1, -1, -1, -1, -1,
   -1, -1, -1, -1, -1, -1, -1, -1, -1, -1, -1, -1, -1, -1, -1, -1, -1, -1, -1, -1, -1, -1, -1, -1,
   -1, -1, -1, -1, -1, -1, -1, -1, -1, -1, -1, -1, -1, -1, -1, -1, -1, -1, -1, -1, -1, -1, -1, -1,
   -1, -1, -1, -1, -1, -1, -1, -1, -1, -1, -1, -1, -1, -1, -1, -1, -1, -1, -1, -1, -1, -1, -1, -1,
   -1]

/-- `dfa4_T0` to `dfa4_T86` -/
def dfa4Rows : List (List Int) := [
  [26], [59], [20], [31],
  [14, -1, 14, -1, 14, 14, 14, 14, 14, 14, 14, 14, 14, 14, 14, 14, -1, -1, 14, -1, -1, -1, 14,
   14, 14, 14, 14, 14, 14, 14, 14, 14, 14, 14, 14, 14, 14, 14, 14, 14, 14, 14, 14, 14, 14, 14,
   14, 14, -1, -1, -1, -1, 14, -1, 14, 14, 14, 14, 14, 14, 14, 14, 14, 14, 14, 14, 14, 14, 14,
   14, 14, 14, 14, 14, 14, 14, 14, 14, 14, 14],
  [30], [19], [102],
  [106, -1, -1, -1, -1, -1, -1, -1, -1, -1, -1, -1, -1, -1, -1, -1, 107],
  [25], [94], [98], [84], [88], [74], [78], [66], [70], [100], [96], [109], [104], [47], [80],
  [76], [92], [44], [86], [72], [68], [90, -1, -1, 91, -1, -1, -1, -1, -1, -1, -1, -1, -1, 89],
  [101], [97], [85], [110], [105], [37, 36], [57], [79], [35], [75], [93], [87], [51],
  [117, -1, -1, -1, -1, -1, -1, -1, -1, -1, -1, -1, -1, 116],
  [112, -1, -1, -1, -1, -1, -1, -1, -1, -1, -1, -1, -1, -1, -1, -1, 113],
  [114], [40, -1, -1, 41], [49],
  [14, -1, 14, -1, 14, 10, 10, 10, 10, 10, 10, 10, 10, 10, 10, 14, -1, -1, 14, -1, -1, -1, 14,
   14, 14, 14, 14, 14, 14, 14, 14, 14, 14, 14, 14, 14, 14, 14, 14, 14, 14, 14, 14, 14, 14, 14,
   14, 14, -1, -1, -1, -1, 14, -1, 14, 14, 14, 14, 14, 14, 14, 14, 14, 14, 14, 14, 14, 14, 14,
   14, 14, 14, 14, 14, 14, 14, 14, 14, 14, 14],
  [52, -1, -1, 53, -1, 56, 54, -1, -1, 55], [71], [67], [60, -1, -1, 61, -1, 64, 62, -1, -1, 63],
  [15], [38], [27], [32], [16], [22], [39], [115], [33], [28], [118], [23], [17],
  [120, -1, -1, -1, -1, -1, -1, -1, -1, -1, -1, -1, -1, 119], [29], [24], [99], [18], [103],
  [108], [111], [43],
  [9, 9, -1, -1, 9, -1, -1, -1, -1, -1, -1, -1, -1, -1, -1, -1, -1, -1, -1, -1, -1, -1, -1, 9,
   -1, -1, -1, -1, -1, -1, -1, 1, 2, -1, 14, 3, 12, 4, 14, 10, 10, 10, 10, 10, 10, 10, 10, 10,
   10, 5, -1, -1, 14, -1, -1, -1, 14, 14, 14, 14, 14, 14, 14, 14, 14, 14, 14, 14, 14, 13, 14,
   14, 14, 14, 14, 14, 14, 14, 14, 14, 14, 14, -1, -1, -1, -1, 14, -1, 14, 14, 14, 6, 14, 14,
   14, 14, 14, 14, 14, 14, 14, 14, 14, 14, 14, 7, 8, 14, 14, 14, 14, 14, 14, 14],
  [65], [95], [58], [48], [50], [73], [69],
  [82, -1, -1, 83, -1, -1, -1, -1, -1, -1, -1, -1, -1, 81], [77], [45]]

/-- `dfa4_transitions`, each row by its number. -/
def dfa4Transitions : List (Option Nat) :=
  [some 76, none, none, none, none, some 54, some 58, some 66, some 71, none, some 49, none,
   some 6, some 2, none, some 4, some 59, some 65, some 69, some 9, some 0, none, some 56,
   some 63, some 68, some 5, some 3, some 57, some 62, some 4, some 39, some 36, some 55, some 60,
   none, some 47, none, none, some 4, some 75, some 26, some 86, none, some 4, some 22, some 80,
   none, some 48, some 81, some 43, some 50, some 37, some 79, none, none, none, some 1, some 53,
   some 77, some 16, some 52, none, none, none, some 29, some 83, some 17, some 51, some 28,
   some 82, some 14, some 40, some 24, some 85, some 15, some 38, some 23, some 84, some 12,
   some 33, some 27, none, none, some 42, some 13, some 30, some 25, some 41, some 10, none, none,
   some 78, some 19, some 32, some 11, some 70, some 18, some 31, some 7, some 72, some 21,
   some 35, some 8, some 73, some 20, some 34, none, none, some 74, some 45, some 46, some 61,
   none, none, some 44, some 64, none, none, some 67, none, none]

/-- `cdfa4` -/
def cdfa4 : CyclicDfa :=
  { eot := dfa4Eot
    eof := dfa4Eof
    min := dfa4Min
    max := dfa4Max
    accept := dfa4Accept
    special := dfa4Special
    transition := dfa4Transitions.map (·.map (dfa4Rows.getD · [])) }

end RepositoryManager.Lexer
