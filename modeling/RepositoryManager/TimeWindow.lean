import RepositoryManager.ValidityWindow
import RepositoryManager.WalkRecovery

/-! # The time test

Both sides of the time test treat UTC fields as local time: `getUTCTimeSec` fills a
`struct tm` with the fields of a tuple, and `verifyCredential` with those that `gmtime`
gives. In a zone with a fixed offset the two errors are the same.
-/

namespace RepositoryManager

open ByteString

/-! ## The calendar -/

def isLeap (year : Int) : Prop := year % 4 = 0 ∧ (year % 100 ≠ 0 ∨ year % 400 = 0)

instance (year : Int) : Decidable (isLeap year) := inferInstanceAs (Decidable (_ ∧ _))

/-- The days of a month, counted from 0. -/
def daysIn (year mon : Int) : Int :=
  if mon = 1 then if isLeap year then 29 else 28
  else if mon = 3 ∨ mon = 5 ∨ mon = 8 ∨ mon = 10 then 30
  else 31

/-- Fields that stand for a second of some day. -/
structure InCalendar (tm : Tm) : Prop where
  mon : 0 ≤ tm.mon ∧ tm.mon ≤ 11
  mday : 1 ≤ tm.mday ∧ tm.mday ≤ daysIn (tm.year + 1900) tm.mon
  hour : 0 ≤ tm.hour ∧ tm.hour ≤ 23
  min : 0 ≤ tm.min ∧ tm.min ≤ 59
  sec : 0 ≤ tm.sec ∧ tm.sec ≤ 60

/-- The UTC second count of calendar fields. -/
def utcSeconds (tm : Tm) : Int := CLib.utc.mktime tm

/-- The C library in a time zone whose local time is UTC with a fixed offset: `gmtime` gives
    the UTC fields, and `mktime` takes them for local time. -/
structure Zoned (clib : CLib) (offset : Int) : Prop where
  gmtime : ∀ t, InCalendar (clib.gmtime t) ∧ utcSeconds (clib.gmtime t) = t
  mktime : ∀ tm, InCalendar tm → clib.mktime tm = utcSeconds tm + offset

/-! ## The fields of a tuple -/

/-- The number that the digits of a `NUM` write. -/
def Grammar.Num.value (n : Grammar.Num) : Int :=
  n.chars.foldl (fun (v : Int) d => 10 * v + (d.toNat - '0'.toNat : Nat)) 0

/-- The fields that a tuple writes. -/
def Grammar.TimeTuple.tm (t : Grammar.TimeTuple) : Tm :=
  { year := t.year.value - 1900, mon := t.month.value - 1, mday := t.day.value
    hour := t.hour.value, min := t.minute.value, sec := t.second.value }

/-- The second of UTC that a tuple stands for. -/
def Grammar.TimeTuple.instant (t : Grammar.TimeTuple) : Int := utcSeconds t.tm

/-- A tuple with a number in each place, of a date in the calendar; the year is an `int`. -/
structure Grammar.TimeTuple.InRange (t : Grammar.TimeTuple) : Prop where
  written : ∀ n ∈ [t.year, t.month, t.day, t.hour, t.minute, t.second], n.chars ≠ []
  year : t.year.value ≤ 2147483647
  calendar : InCalendar t.tm

theorem digits_value_nonneg (s : Str) (v : Int) (nonneg : 0 ≤ v) :
    0 ≤ s.foldl (fun (v : Int) d => 10 * v + (d.toNat - '0'.toNat : Nat)) v := by
  induction s generalizing v with
  | nil => exact nonneg
  | cons d s ih =>
      rw [List.foldl_cons]
      exact ih _ (by omega)

theorem Grammar.Num.value_nonneg (n : Grammar.Num) : 0 ≤ n.value :=
  digits_value_nonneg n.chars 0 (Int.le_refl 0)

theorem isDigit_not_space {c : Char} (digit : c.isDigit = true) : isSpace c = false := by
  cases space : isSpace c with
  | false => rfl
  | true =>
      have outside : ∀ d ∈ [' ', '\t', '\n', Char.ofNat 11, Char.ofNat 12, '\r'],
          d.isDigit = false := forall_mem_of_all (by decide)
      rw [outside c (isSpace_mem space)] at digit
      cases digit

/-- A number that fits an `int` is read as it is written, whatever was in the variable. -/
theorem readInt_num (old : Int) {n : Grammar.Num} (written : n.chars ≠ [])
    (fits : n.value ≤ 2147483647) : readInt old n.chars = n.value := by
  obtain ⟨c, rest, cut⟩ := List.exists_cons_of_ne_nil written
  have digits := n.inClass
  have nonneg := n.value_nonneg
  rw [Grammar.Num.value] at fits nonneg ⊢
  rw [cut] at digits fits nonneg ⊢
  have digit := digits c List.mem_cons_self
  have notSign : ¬ (c = '-' ∨ c = '+') := by
    rintro (rfl | rfl)
    · exact absurd digit (by decide)
    · exact absurd digit (by decide)
  have kept : (c :: rest).dropWhile isSpace = c :: rest := by
    rw [List.dropWhile_cons_of_neg (by simp [isDigit_not_space digit])]
  have taken : (c :: rest).takeWhile Char.isDigit = c :: rest :=
    List.takeWhile_eq_self_iff.mpr digits
  have noMinus : c ≠ '-' := fun same => notSign (.inl same)
  have noPlus : c ≠ '+' := fun same => notSign (.inr same)
  rw [readInt, kept]
  simp only [noMinus, noPlus, decide_false, Bool.or_self, Bool.false_eq_true, if_false, taken]
  omega

/-! ## The text of a tuple -/

theorem cut_field {front field rest : Str} {d : Char} (clean : d ∉ field) :
    findFrom [d] (front ++ (field ++ d :: rest)) front.length = some (front ++ field).length ∧
      substrBetween (front ++ (field ++ d :: rest)) front.length (some (front ++ field).length) =
        field := by
  constructor
  · have found : find [d] (field ++ [d] ++ rest) = some field.length :=
      find_first rest fun inside => clean (by simpa using inside.subset (List.mem_singleton_self d))
    rw [List.append_assoc, List.singleton_append] at found
    rw [findFrom, List.drop_left, found, Option.map_some, List.length_append, Nat.add_comm]
  · rw [← List.append_assoc]
    exact substrBetween_middle _ _ _

theorem read_field {text front rest : Str} {n : Grammar.Num} {d : Char} (old : Int)
    (cut : text = front ++ (n.chars ++ d :: rest)) (separator : d.isDigit = false)
    (written : n.chars ≠ []) (fits : n.value ≤ 2147483647) :
    findFrom [d] text front.length = some (front ++ n.chars).length ∧
      readInt old (substrBetween text front.length (some (front ++ n.chars).length)) = n.value ∧
      ∃ next, afterFind (some (front ++ n.chars).length) = next.length ∧ text = next ++ rest := by
  have clean : d ∉ n.chars := Grammar.Num.not_mem separator
  obtain ⟨found, field⟩ := @cut_field front n.chars rest d clean
  rw [← cut] at found field
  refine ⟨found, ?_, front ++ n.chars ++ [d], ?_, ?_⟩
  · rw [field, readInt_num old written fits]
  · simp only [afterFind, List.length_append, List.length_singleton]
  · rw [cut]
    simp

theorem daysIn_le (year mon : Int) : daysIn year mon ≤ 31 := by
  unfold daysIn
  split
  · split <;> omega
  · split <;> omega

theorem getUTCTimeSec_text (mktime : Tm → Int) (now : Tm) {t : Grammar.TimeTuple}
    (inRange : t.InRange) : getUTCTimeSec mktime now t.text = mktime t.tm := by
  have mon : t.month.value - 1 ≤ 11 := inRange.calendar.mon.2
  have mday : t.day.value ≤ daysIn _ _ := inRange.calendar.mday.2
  have days := daysIn_le (t.tm.year + 1900) t.tm.mon
  have hour : t.hour.value ≤ 23 := inRange.calendar.hour.2
  have minute : t.minute.value ≤ 59 := inRange.calendar.min.2
  have second : t.second.value ≤ 60 := inRange.calendar.sec.2
  have written := inRange.written
  simp only [List.forall_mem_cons, List.not_mem_nil, false_imp_iff, implies_true, and_true] at written
  obtain ⟨someYear, someMonth, someDay, someHour, someMinute, someSecond⟩ := written
  generalize whole : t.text = text
  have cut : text = "datime(".toList ++ (t.year.chars ++ ',' :: (t.month.chars ++ ',' ::
      (t.day.chars ++ ',' :: (t.hour.chars ++ ',' :: (t.minute.chars ++ ',' ::
        (t.second.chars ++ [')', '.'])))))) := by
    rw [← whole]
    simp [Grammar.TimeTuple.text, Grammar.TimeTuple.tokens]
  obtain ⟨-, read₁, next₁, after₁, cut₁⟩ :=
    read_field now.year cut (by decide) someYear inRange.year
  obtain ⟨found₂, read₂, next₂, after₂, cut₂⟩ :=
    read_field now.mon cut₁ (by decide) someMonth (by omega)
  obtain ⟨found₃, read₃, next₃, after₃, cut₃⟩ :=
    read_field now.mday cut₂ (by decide) someDay (by omega)
  obtain ⟨found₄, read₄, next₄, after₄, cut₄⟩ :=
    read_field now.hour cut₃ (by decide) someHour (by omega)
  obtain ⟨found₅, read₅, next₅, after₅, cut₅⟩ :=
    read_field now.min cut₄ (by decide) someMinute (by omega)
  obtain ⟨found₆, read₆, -⟩ := read_field now.sec cut₅ (by decide) someSecond (by omega)
  have opening : afterFind (find ['('] text) = "datime(".toList.length := by
    rw [cut]
    rfl
  have first : find [','] text = some ("datime(".toList ++ t.year.chars).length := by
    have clean : ',' ∉ "datime(".toList ++ t.year.chars := by
      have notName : ',' ∉ "datime(".toList := by decide
      have notYear : ',' ∉ t.year.chars := Grammar.Num.not_mem (by decide)
      simp only [List.mem_append, notName, notYear, or_self, not_false_eq_true]
    have found := @find_first [','] ("datime(".toList ++ t.year.chars) (t.month.chars ++ ',' ::
      (t.day.chars ++ ',' :: (t.hour.chars ++ ',' :: (t.minute.chars ++ ',' ::
        (t.second.chars ++ [')', '.']))))) fun inside =>
          clean (by simpa using inside.subset (List.mem_singleton_self ','))
    rw [cut]
    simpa using found
  unfold getUTCTimeSec
  simp only [opening, first, read₁, after₁, found₂, read₂, after₂, found₃, read₃, after₃, found₄,
    read₄, after₄, found₅, read₅, after₅, found₆, read₆]
  rfl

/-! ## The test -/

theorem setCertificateStr_times (mktime : Tm → Int) (now : Tm) (c : Certificate) :
    (c.setCertificateStr mktime now).startTimeSec =
        (if c.startTime ≠ [] then getUTCTimeSec mktime now c.startTime else 0) ∧
      (c.setCertificateStr mktime now).stopTimeSec =
        (if c.stopTime ≠ [] then getUTCTimeSec mktime now c.stopTime else 0) := by
  unfold Certificate.setCertificateStr
  dsimp only
  split
  · exact ⟨rfl, rfl⟩
  · exact ⟨rfl, rfl⟩

/-- In any zone with a fixed offset, and whenever the credential was parsed, the time test
    accepts a certificate exactly from its first instant on and before its last. -/
theorem validTime_iff {clib : CLib} {offset : Int} (zoned : Zoned clib offset)
    {start stop : Grammar.TimeTuple} (startInRange : start.InRange) (stopInRange : stop.InRange)
    (cert : Certificate) (parsed now : Int) :
    validTime clib now (Certificate.setCertificateStr clib.mktime (clib.gmtime parsed)
        { cert with startTime := start.text, stopTime := stop.text }) = true ↔
      start.instant ≤ now ∧ now < stop.instant := by
  obtain ⟨current, inverse⟩ := zoned.gmtime now
  have tmp : clib.mktime (clib.gmtime now) = now + offset := by rw [zoned.mktime _ current, inverse]
  have startSec : getUTCTimeSec clib.mktime (clib.gmtime parsed) start.text =
      start.instant + offset := by
    rw [getUTCTimeSec_text _ _ startInRange, zoned.mktime _ startInRange.calendar,
      Grammar.TimeTuple.instant]
  have stopSec : getUTCTimeSec clib.mktime (clib.gmtime parsed) stop.text =
      stop.instant + offset := by
    rw [getUTCTimeSec_text _ _ stopInRange, zoned.mktime _ stopInRange.calendar,
      Grammar.TimeTuple.instant]
  obtain ⟨first, last⟩ := setCertificateStr_times clib.mktime (clib.gmtime parsed)
    { cert with startTime := start.text, stopTime := stop.text }
  rw [if_pos (AstWalker.timeTuple_text_ne_nil start), startSec] at first
  rw [if_pos (AstWalker.timeTuple_text_ne_nil stop), stopSec] at last
  simp only [validTime, first, last, tmp, Bool.and_eq_true, decide_eq_true_eq]
  omega

/-! ## A server in another zone -/

/-- UTC with an offset of some seconds: what `mktime` counts begins that much earlier. -/
def CLib.shifted (offset : Int) : CLib :=
  { mktime := fun tm => utcSeconds tm + offset, gmtime := CLib.utc.gmtime }

theorem utc_gmtime_inCalendar (t : Int) : InCalendar (CLib.utc.gmtime t) := by
  simp only [CLib.utc]
  generalize d : t / 86400 + 719468 = days
  generalize c : min 3 (days % 146097 / 36524) = century
  generalize ic : days % 146097 - 36524 * century = inCentury
  generalize y : min 3 (inCentury % 1461 / 365) = year
  generalize iy : inCentury % 1461 - 365 * year = inYear
  generalize m : (5 * inYear + 2) / 153 = month
  have inYear_bounds : 0 ≤ inYear ∧ inYear ≤ 365 := by omega
  have month_bounds : 0 ≤ month ∧ month ≤ 11 := by omega
  refine ⟨?_, ⟨?_, ?_⟩, ?_, ?_, ?_⟩
  · dsimp only
    omega
  · dsimp only
    omega
  · have longest : ∀ y mon : Int, mon ≠ 1 → 30 ≤ daysIn y mon ∧
        (mon = 0 ∨ mon = 2 ∨ mon = 4 ∨ mon = 6 ∨ mon = 7 ∨ mon = 9 ∨ mon = 11 → daysIn y mon = 31) := by
      intro y mon notFebruary
      unfold daysIn
      rw [if_neg notFebruary]
      split <;> omega
    by_cases february : month = 11
    · -- the last day of a year that begins in March is there only in a leap year
      have isFebruary : (month + 2) % 12 = 1 := by omega
      have leap : inYear = 365 → isLeap (400 * (days / 146097) + 100 * century +
          4 * (inCentury / 1461) + year + (month + 2) / 12 - 1900 + 1900) := by
        intro lastDay
        have inCentury_bounds : 0 ≤ inCentury ∧ inCentury ≤ 36524 := by omega
        have years : year = 3 ∧ inCentury % 1461 = 1460 := by omega
        have fours : inCentury / 1461 = 24 → century = 3 := by omega
        unfold isLeap
        omega
      dsimp only
      rw [isFebruary, daysIn, if_pos rfl]
      split
      · omega
      · rename_i common
        have earlier : inYear ≠ 365 := fun lastDay => common (leap lastDay)
        omega
    · obtain ⟨thirty, thirtyOne⟩ := longest (400 * (days / 146097) + 100 * century +
        4 * (inCentury / 1461) + year + (month + 2) / 12 - 1900 + 1900) ((month + 2) % 12) (by omega)
      dsimp only
      omega
  · dsimp only
    omega
  · dsimp only
    omega
  · dsimp only
    omega

theorem shifted_zoned (offset : Int) : Zoned (CLib.shifted offset) offset where
  gmtime t := ⟨utc_gmtime_inCalendar t, utc_mktime_gmtime t⟩
  mktime _ _ := rfl

/-- 29 February 2012, a second before midnight, with leading zeros. -/
def leapDay : Grammar.TimeTuple :=
  ⟨.of "02012", .of "02", .of "29", .of "23", .of "59", .of "059"⟩

def nextLeapDay : Grammar.TimeTuple := { leapDay with year := .of "2016" }

theorem leapDay_inRange : leapDay.InRange where
  written := by decide
  year := by decide
  calendar := ⟨by decide, by decide, by decide, by decide, by decide⟩

theorem nextLeapDay_inRange : nextLeapDay.InRange where
  written := by decide
  year := by decide
  calendar := ⟨by decide, by decide, by decide, by decide, by decide⟩

theorem validTime_iff_leapDay :
    validTime (CLib.shifted 3600) 1330560000 (Certificate.setCertificateStr
        (CLib.shifted 3600).mktime ((CLib.shifted 3600).gmtime 1300000000)
        { Certificate.empty with startTime := leapDay.text, stopTime := nextLeapDay.text }) = true ↔
      leapDay.instant ≤ 1330560000 ∧ 1330560000 < nextLeapDay.instant :=
  validTime_iff (shifted_zoned 3600) leapDay_inRange nextLeapDay_inRange .empty 1300000000 1330560000

example : leapDay.instant = 1330559999 := by decide

end RepositoryManager
