import RepositoryManager.Lib.ByteString

/-! # Shared constants and string helpers

`RepositoryManagerUtils.h`: the marker lines, the sizes, `trim` and
`getUTCTimeSec`. The C library's `mktime` is a parameter.
-/

namespace RepositoryManager

open ByteString

def maxChallengeBuf : Nat := 32
def maxRead : Nat := 128
def maxLine : Nat := 128
def maxBuff : Nat := 51200

def pkHeaderS : Str := "-----BEGIN PUBLIC KEY-----".toList
def pkEndS : Str := "-----END PUBLIC KEY-----".toList
def sigS : Str := "-----BEGIN SIGNATURE-----".toList
def endSigS : Str := "-----END SIGNATURE-----".toList
def clauseS : Str := "CLAUSE".toList
def startTimeS : Str := "START_TIME".toList
def stopTimeS : Str := "STOP_TIME".toList
def certS : Str := "CERT".toList
def endCertS : Str := "END_CERT".toList
def credentialS : Str := "CREDENTIAL".toList
def endS : Str := "END".toList
def beginChallengeS : Str := "-----BEGIN MPKI CHALLENGE-----".toList
def endChallengeS : Str := "-----END MPKI CHALLENGE-----".toList
def endResponseS : Str := "-----END MPKI CHALLENGE RESPONSE-----".toList
def beginClientRequestS : Str := "-----BEGIN REPOSITORY CLIENT REQUEST-----".toList
def endClientRequestS : Str := "-----END REPOSITORY CLIENT REQUEST-----".toList
def beginServerResponseS : Str := "-----BEGIN REPOSITORY SERVER REPLY-----".toList
def endServerResponseS : Str := "-----END REPOSITORY SERVER REPLY-----".toList
def grantS : Str := "granted".toList
def denyS : Str := "denied".toList
def tmpFileS : Str := "rlf_tmp".toList
def finS : Str := "exit".toList

/-- The `int` that is left of a number. -/
def toInt (n : Int) : Int := n.bmod 4294967296

theorem toInt_of_lt {n : Int} (lower : 0 ≤ n) (upper : n < 2147483648) : toInt n = n := by
  rw [toInt, Int.bmod_def]
  split <;> omega

/-- `isspace` in the C locale. -/
def isSpace (c : Char) : Bool :=
  c = ' ' || (9 ≤ c.toNat && c.toNat ≤ 13)

theorem isSpace_mem {c : Char} (space : isSpace c = true) :
    c ∈ [' ', '\t', '\n', Char.ofNat 11, Char.ofNat 12, '\r'] := by
  simp only [isSpace, Bool.or_eq_true, decide_eq_true_eq, Bool.and_eq_true] at space
  rcases space with rfl | ⟨lower, upper⟩
  · decide
  · rw [← Char.ofNat_toNat c]
    generalize c.toNat = n at lower upper
    have code : n = 9 ∨ n = 10 ∨ n = 11 ∨ n = 12 ∨ n = 13 := by omega
    rcases code with rfl | rfl | rfl | rfl | rfl <;> decide

/-- Trim white space and comments from strings. -/
def trim (pStr : Str) : Str :=
  let retVal := pStr.filter fun c => c ≠ ' ' && c ≠ '\n' && c ≠ '\t' && c ≠ '\r'
  match find "/*".toList retVal with
  | none => retVal
  | some _ =>
      match find "*/".toList retVal with
      | some idx => (retVal.drop (idx + 2)).take (retVal.length - 1)
      -- without a closing mark `idx + 2` wraps from `npos` to 1
      | none => (retVal.drop 1).take (retVal.length - 1)

/-- The fields of `struct tm` that `mktime` reads; `tm_isdst` stays what `gmtime` sets, 0. -/
structure Tm where
  year : Int
  mon : Int
  mday : Int
  hour : Int
  min : Int
  sec : Int
  deriving DecidableEq, Repr

/-- The C library's calendar. -/
structure CLib where
  mktime : Tm → Int
  gmtime : Int → Tm

/-- The C library at the beginning of the epoch, in UTC. -/
def CLib.epoch : CLib := { mktime := fun _ => 0, gmtime := fun _ => ⟨70, 0, 1, 0, 0, 0⟩ }

/-- `ss >> i` for an `int`: an exhausted stream leaves the variable alone, a text
    that is no number gives 0, and a number out of range the nearest bound. -/
def readInt (old : Int) (s : Str) : Int :=
  match s.dropWhile isSpace with
  | [] => old
  | c :: rest =>
      let digits := (if c = '-' || c = '+' then rest else c :: rest).takeWhile Char.isDigit
      let n : Int := digits.foldl (fun (n : Int) d => 10 * n + (d.toNat - '0'.toNat : Nat)) 0
      max (-2147483648) (min 2147483647 (if c = '-' then -n else n))

/-- `s.substr(pos, idx - pos)`: from `npos`, or from an `idx` before `pos`, the
    unsigned difference reaches past the end of the string. -/
def substrBetween (s : Str) (pos : Nat) (idx : Option Nat) : Str :=
  match idx with
  | some i => if pos ≤ i then (s.drop pos).take (i - pos) else s.drop pos
  | none => s.drop pos

theorem substrBetween_middle (a b c : Str) :
    substrBetween (a ++ b ++ c) a.length (some (a ++ b).length) = b := by
  simp [substrBetween]

/-- The position after a search; `npos + 1` wraps to 0. -/
def afterFind : Option Nat → Nat
  | some i => i + 1
  | none => 0

/-- Convert a date time predicate to utc sec. `now` is `gmtime` of the current time. -/
def getUTCTimeSec (mktime : Tm → Int) (now : Tm) (pTimeStr : Str) : Int :=
  let pos := afterFind (find ['('] pTimeStr)
  let idx := find [','] pTimeStr
  let now := { now with year := readInt now.year (substrBetween pTimeStr pos idx) - 1900 }
  let pos := afterFind idx
  let idx := findFrom [','] pTimeStr pos
  let now := { now with mon := readInt now.mon (substrBetween pTimeStr pos idx) - 1 }
  let pos := afterFind idx
  let idx := findFrom [','] pTimeStr pos
  let now := { now with mday := readInt now.mday (substrBetween pTimeStr pos idx) }
  let pos := afterFind idx
  let idx := findFrom [','] pTimeStr pos
  let now := { now with hour := readInt now.hour (substrBetween pTimeStr pos idx) }
  let pos := afterFind idx
  let idx := findFrom [','] pTimeStr pos
  let now := { now with min := readInt now.min (substrBetween pTimeStr pos idx) }
  let pos := afterFind idx
  let idx := findFrom [')'] pTimeStr pos
  let now := { now with sec := readInt now.sec (substrBetween pTimeStr pos idx) }
  mktime now

end RepositoryManager
