import Mathlib.Data.Nat.Find
import RepositoryManager.TransportService

/-! # The receive loops in their buffer

The do-while loops of `authenticateClient` and `processRequest`, with the zeroed buffer
of `MAX_BUFF + 1` bytes, the index that the next read writes to, and every index written.
The bound is tested after the read and leaves room for one more; a failed read is added
to the count, but it is the last. What is left in the buffer is the text that the
loops of the server return.
-/

namespace RepositoryManager

open ByteString Interaction Interaction.Prog

/-! ## The loop -/

/-- The result of a `read` of at most `MAX_READ` bytes; `none` is -1. -/
abbrev ReadResult := Option { bytes : Str // bytes.length ≤ maxRead }

/-- `numRead` after a read -/
def ReadResult.count : ReadResult → Int
  | some bytes => bytes.val.length
  | none => -1

/-- The bytes that a read stores. -/
def ReadResult.bytes : ReadResult → Str
  | some bytes => bytes.val
  | none => []

/-- Bytes stored from an index on. -/
def store (msgBuff : Str) (pos : Int) : Str → Str
  | [] => msgBuff
  | c :: bytes => store (if pos < 0 then msgBuff else msgBuff.set pos.toNat c) (pos + 1) bytes

/-- The variables of the loop, and the indices of the buffer that have been written. -/
structure Receiving where
  msgBuff : Str
  bytesRead : Int
  numRead : Int
  written : List Int
  deriving DecidableEq

/-- `memset(msgBuff, 0, MAX_BUFF + 1)` -/
def Receiving.zeroed : Receiving :=
  { msgBuff := List.replicate (maxBuff + 1) nul, bytesRead := 0, numRead := 0, written := [] }

/-- The body of the loop for one result of `read`. -/
def Receiving.pass (mark : Str) (r : ReadResult) (s : Receiving) : Receiving :=
  let pos := s.bytesRead
  let msgBuff := store s.msgBuff pos r.bytes
  { msgBuff
    bytesRead := s.bytesRead + r.count
    numRead := if (find mark (cstr msgBuff)).isSome then 0 else r.count
    written := s.written ++ (List.range r.bytes.length).map fun (i : Nat) => pos + i }

/-- `bytesRead + MAX_READ < MAX_BUFF && numRead > 0` -/
def Receiving.GoesOn (s : Receiving) : Prop := s.bytesRead + maxRead < maxBuff ∧ s.numRead > 0

instance (s : Receiving) : Decidable s.GoesOn := inferInstanceAs (Decidable (_ ∧ _))

/-- The loop from read `i` on: the number of reads when it ends, and its variables then. -/
def Receiving.loop (mark : Str) (reads : Nat → ReadResult) :
    Nat → Nat → Receiving → Option (Nat × Receiving)
  | 0, _, _ => none
  | fuel + 1, i, s =>
      if (s.pass mark (reads i)).GoesOn then loop mark reads fuel (i + 1) (s.pass mark (reads i))
      else some (i + 1, s.pass mark (reads i))

/-- The loop of `authenticateClient`. -/
def authenticateClientLoop (fuel : Nat) (reads : Nat → ReadResult) : Option (Nat × Receiving) :=
  Receiving.loop endResponseS reads fuel 0 .zeroed

/-- The loop of `processRequest`. -/
def processRequestLoop (fuel : Nat) (reads : Nat → ReadResult) : Option (Nat × Receiving) :=
  Receiving.loop endClientRequestS reads fuel 0 .zeroed

/-! ## What it is for -/

/-- The bytes of the first reads. -/
def got (reads : Nat → ReadResult) : Nat → Str
  | 0 => []
  | k + 1 => got reads k ++ (reads k).bytes

/-- The variables after the first passes. -/
def Receiving.reached (mark : Str) (reads : Nat → ReadResult) : Nat → Receiving
  | 0 => .zeroed
  | k + 1 => (reached mark reads k).pass mark (reads k)

/-- Only indices below `MAX_BUFF` have been written, and the byte behind them is a NUL. -/
structure Receiving.Safe (s : Receiving) : Prop where
  inside : ∀ i ∈ s.written, 0 ≤ i ∧ i < maxBuff
  size : s.msgBuff.length = maxBuff + 1
  terminated : s.msgBuff[maxBuff]? = some nul

/-- Before a read fails or brings nothing, the mark is complete within the bytes that leave
    room for a read, and there is no NUL. -/
structure CompleteBy (mark : Str) (reads : Nat → ReadResult) (k : Nat) : Prop where
  brings : ∀ i < k, (reads i).bytes ≠ []
  clean : nul ∉ got reads k
  inside : mark <:+: (got reads k).take (maxBuff - maxRead)

/-- The mark is complete after this many reads, and not after fewer. -/
def FirstComplete (mark : Str) (reads : Nat → ReadResult) (k : Nat) : Prop :=
  mark <:+: got reads k ∧ ∀ j < k, ¬ mark <:+: got reads j

/-- The loop ends, whatever more passes it could make; it keeps to its buffer after each pass; and
    it ends at the first read that completes the mark, if this is in time. -/
def StaysAndStops (loop : Nat → (Nat → ReadResult) → Option (Nat × Receiving)) (mark : Str)
    (reads : Nat → ReadResult) : Prop :=
  ∃ passes, (∀ fuel ≥ maxBuff, loop fuel reads = some (passes, .reached mark reads passes)) ∧
    (∀ j ≤ passes, (Receiving.reached mark reads j).Safe) ∧
    ∀ k, CompleteBy mark reads k → FirstComplete mark reads passes

/-! ## One pass -/

/-- The bytes read stand at the front of the buffer, and behind them zeros. -/
structure Receiving.Filled (s : Receiving) (text : Str) : Prop where
  buffer : s.msgBuff = text ++ List.replicate (maxBuff + 1 - text.length) nul
  fits : text.length ≤ maxBuff
  inside : ∀ i ∈ s.written, 0 ≤ i ∧ i < maxBuff

theorem store_append (front old bytes : Str) (room : bytes.length ≤ old.length) :
    store (front ++ old) front.length bytes = front ++ bytes ++ old.drop bytes.length := by
  induction bytes generalizing front old with
  | nil => simp [store]
  | cons c bytes ih =>
      obtain ⟨d, old, rfl⟩ : ∃ d rest, old = d :: rest :=
        List.exists_cons_of_ne_nil fun none => by simp [none] at room
      have notNegative : ¬ (front.length : Int) < 0 := by omega
      have put : (front ++ d :: old).set front.length c = (front ++ [c]) ++ old := by simp
      have next : (front.length : Int) + 1 = (front ++ [c]).length := by simp
      rw [store, if_neg notNegative, Int.toNat_natCast, put, next, ih _ _ (by simpa using room)]
      simp

theorem cstr_append_nuls (text : Str) (n : Nat) :
    cstr (text ++ List.replicate n nul) = cstr text := by
  induction text with
  | nil => cases n <;> simp [cstr, List.replicate_succ]
  | cons c text ih =>
      simp only [cstr, List.cons_append, List.takeWhile_cons] at ih ⊢
      split
      · rw [ih]
      · rfl

theorem Receiving.Filled.safe {s : Receiving} {text : Str} (filled : s.Filled text) : s.Safe := by
  have fits := filled.fits
  refine { inside := filled.inside, size := ?_, terminated := ?_ }
  · rw [filled.buffer, List.length_append, List.length_replicate]
    omega
  · rw [filled.buffer, List.getElem?_append_right fits, List.getElem?_replicate]
    exact if_pos (by omega)

theorem Receiving.Filled.cstr_eq {s : Receiving} {text : Str} (filled : s.Filled text) :
    cstr s.msgBuff = cstr text := by
  rw [filled.buffer, cstr_append_nuls]

theorem Receiving.zeroed_filled : Receiving.zeroed.Filled [] :=
  { buffer := rfl, fits := Nat.zero_le _, inside := fun _ none => absurd none (List.not_mem_nil) }

theorem ReadResult.bytes_le (r : ReadResult) : r.bytes.length ≤ maxRead := by
  cases r with
  | none => exact Nat.zero_le _
  | some bytes => exact bytes.property

/-- The state at the top of the loop: filled up to the index of the next read, with room for it. -/
structure Receiving.Ready (s : Receiving) (text : Str) : Prop where
  filled : s.Filled text
  index : s.bytesRead = text.length
  room : text.length + maxRead < maxBuff

namespace Receiving

variable {mark text : Str} {s : Receiving} {r : ReadResult}

theorem pass_filled (ready : s.Ready text) : (s.pass mark r).Filled (text ++ r.bytes) := by
  have short := r.bytes_le
  have room := ready.room
  refine { buffer := ?_, fits := ?_, inside := ?_ }
  · rw [pass]
    simp only
    rw [ready.filled.buffer, ready.index, store_append _ _ _ (by simp; omega),
      List.drop_replicate, List.length_append, Nat.sub_sub]
  · rw [List.length_append]
    omega
  · intro i member
    rcases List.mem_append.mp member with before | now
    · exact ready.filled.inside i before
    · obtain ⟨k, inRange, rfl⟩ := List.mem_map.mp now
      have bound := List.mem_range.mp inRange
      rw [ready.index]
      omega

theorem pass_goesOn (ready : s.Ready text) :
    (s.pass mark r).GoesOn ↔ r.bytes ≠ [] ∧ ¬ (find mark (cstr (text ++ r.bytes))).isSome ∧
      text.length + r.bytes.length + maxRead < maxBuff := by
  have seen : cstr (store s.msgBuff s.bytesRead r.bytes) = cstr (text ++ r.bytes) := by
    rw [← (@pass_filled mark _ _ _ ready).cstr_eq]
    rfl
  unfold GoesOn pass
  simp only [seen]
  by_cases found : (find mark (cstr (text ++ r.bytes))).isSome = true
  · simp [found]
  · simp only [found, Bool.false_eq_true, if_false, not_false_eq_true, true_and, ready.index]
    cases r with
    | none => simp [ReadResult.count, ReadResult.bytes]
    | some bytes =>
        simp only [ReadResult.count, ReadResult.bytes, ← List.length_pos_iff]
        omega

theorem pass_ready (ready : s.Ready text) (goesOn : (s.pass mark r).GoesOn) :
    (s.pass mark r).Ready (text ++ r.bytes) := by
  obtain ⟨some, -, room⟩ := (pass_goesOn ready).mp goesOn
  refine { filled := pass_filled ready, index := ?_, room := by rwa [List.length_append] }
  change s.bytesRead + r.count = _
  rw [ready.index]
  cases r with
  | none => exact absurd rfl some
  | some bytes => simp [ReadResult.count, ReadResult.bytes]

end Receiving

/-! ## All passes -/

namespace Receiving

variable (mark : Str) (reads : Nat → ReadResult)

theorem reached_ready {k : Nat} (goesOn : ∀ j < k, (reached mark reads (j + 1)).GoesOn) :
    (reached mark reads k).Ready (got reads k) := by
  induction k with
  | zero =>
      have room : 0 + maxRead < maxBuff := by decide
      exact { filled := zeroed_filled, index := rfl, room }
  | succ k ih =>
      exact pass_ready (ih fun j before => goesOn j (Nat.lt_succ_of_lt before))
        (goesOn k (Nat.lt_succ_self k))

theorem got_length {k : Nat} (goesOn : ∀ j < k, (reached mark reads (j + 1)).GoesOn) :
    k ≤ (got reads k).length := by
  induction k with
  | zero => exact Nat.zero_le _
  | succ k ih =>
      have before := fun j (inside : j < k) => goesOn j (Nat.lt_succ_of_lt inside)
      have longer := ih before
      have some := ((pass_goesOn (reached_ready mark reads before)).mp
        (goesOn k (Nat.lt_succ_self k))).1
      rw [got, List.length_append]
      have := List.length_pos_iff.mpr some
      omega

theorem exists_last : ∃ last < maxBuff, (∀ j < last, (reached mark reads (j + 1)).GoesOn) ∧
    ¬ (reached mark reads (last + 1)).GoesOn := by
  classical
  have stops : ∃ k, ¬ (reached mark reads (k + 1)).GoesOn := by
    by_contra endless
    simp only [not_exists, not_not] at endless
    have ready := @reached_ready mark reads maxBuff fun j _ => endless j
    have long := @got_length mark reads maxBuff fun j _ => endless j
    have room := ready.room
    omega
  have goesOn : ∀ j < Nat.find stops, (reached mark reads (j + 1)).GoesOn := fun j before =>
    not_not.mp (Nat.find_min stops before)
  have room := (reached_ready mark reads goesOn).room
  have long := got_length mark reads goesOn
  exact ⟨Nat.find stops, by omega, goesOn, Nat.find_spec stops⟩

theorem loop_eq {fuel i k : Nat} (goesOn : ∀ j, i ≤ j → j < k → (reached mark reads (j + 1)).GoesOn)
    (ends : ¬ (reached mark reads (k + 1)).GoesOn) (upTo : i ≤ k) (enough : k < i + fuel) :
    loop mark reads fuel i (reached mark reads i) = some (k + 1, reached mark reads (k + 1)) := by
  induction fuel generalizing i with
  | zero => omega
  | succ fuel ih =>
      rw [loop]
      rcases Nat.lt_or_eq_of_le upTo with before | rfl
      · have more : ((reached mark reads i).pass mark (reads i)).GoesOn :=
          goesOn i (Nat.le_refl i) before
        rw [if_pos more]
        exact ih (fun j later => goesOn j (Nat.le_of_succ_le later)) before (by omega)
      · exact if_neg ends

theorem not_infix_of_goesOn {k : Nat} (goesOn : ∀ j < k + 1, (reached mark reads (j + 1)).GoesOn)
    (clean : nul ∉ got reads (k + 1)) : ¬ mark <:+: got reads (k + 1) := by
  have ready := reached_ready mark reads fun j before => goesOn j (Nat.lt_succ_of_lt before)
  have notFound := ((pass_goesOn ready).mp (goesOn k (Nat.lt_succ_self k))).2.1
  intro found
  apply notFound
  rw [show got reads k ++ (reads k).bytes = got reads (k + 1) from rfl, cstr_of_clean clean]
  exact (find_isSome_iff _ _).mpr found

theorem got_upTo {j k : Nat} (le : j ≤ k) : got reads j <+: got reads k := by
  induction k, le using Nat.le_induction with
  | base => exact List.prefix_refl _
  | succ k _ ih => exact ih.trans (List.prefix_append _ _)

theorem firstComplete {last k : Nat} (some : mark ≠ [])
    (goesOn : ∀ j < last, (reached mark reads (j + 1)).GoesOn)
    (ends : ¬ (reached mark reads (last + 1)).GoesOn) (complete : CompleteBy mark reads k) :
    FirstComplete mark reads (last + 1) := by
  have cleanUpTo : ∀ j ≤ k, nul ∉ got reads j := fun j le member =>
    complete.clean ((got_upTo reads le).subset member)
  have marked : mark <:+: got reads k := complete.inside.trans (List.take_prefix _ _).isInfix
  -- the loop cannot pass the read that completes the mark
  have inTime : last < k := by
    by_contra late
    cases k with
    | zero => exact some (List.infix_nil.mp marked)
    | succ k =>
        exact not_infix_of_goesOn mark reads (fun j before => goesOn j (by omega)) complete.clean
          marked
  refine ⟨?_, fun j before found => ?_⟩
  · have ready := reached_ready mark reads goesOn
    have brings := complete.brings last inTime
    have clean := cleanUpTo (last + 1) inTime
    by_contra absent
    apply ends
    refine (pass_goesOn ready).mpr ⟨brings, fun found => ?_, ?_⟩
    · rw [show got reads last ++ (reads last).bytes = got reads (last + 1) from rfl,
        cstr_of_clean clean] at found
      exact absent ((find_isSome_iff _ _).mp found)
    · by_contra full
      have long : maxBuff - maxRead ≤ (got reads (last + 1)).length := by
        rw [got, List.length_append]
        omega
      obtain ⟨rest, same⟩ := got_upTo reads inTime
      have within := complete.inside
      rw [← same, List.take_append_of_le_length long] at within
      exact absent (within.trans (List.take_prefix _ _).isInfix)
  · cases j with
    | zero => exact some (List.infix_nil.mp found)
    | succ j =>
        exact not_infix_of_goesOn mark reads (fun i inside => goesOn i (by omega))
          (cleanUpTo (j + 1) (by omega)) found

theorem staysAndStops (some : mark ≠ []) :
    StaysAndStops (fun fuel reads => loop mark reads fuel 0 .zeroed) mark reads := by
  obtain ⟨last, inTime, goesOn, ends⟩ := exists_last mark reads
  refine ⟨last + 1, fun fuel enough => ?_, fun j upTo => ?_, fun k complete => ?_⟩
  · exact loop_eq mark reads (fun j _ before => goesOn j before) ends (Nat.zero_le _) (by omega)
  · cases j with
    | zero => exact zeroed_filled.safe
    | succ j =>
        have ready := reached_ready mark reads fun i (before : i < j) => goesOn i (by omega)
        exact (pass_filled ready).safe
  · exact firstComplete mark reads some goesOn ends complete

end Receiving

/-! ## The loops of the server -/

/-- The first reads and their results. -/
def readsFrom (fd : Int) (reads : Nat → ReadResult) (k : Nat) : History :=
  (List.range k).map fun i => ⟨.read fd maxRead, (reads i).map Subtype.val⟩

section Receive

variable (fd : Int) {mark : Str} {reads : Nat → ReadResult}

theorem receive_step {s : Receiving} {text : Str} (ready : s.Ready text) (r : ReadResult) :
    Steps (receive fd mark text) [⟨.read fd maxRead, r.map Subtype.val⟩]
      (if (s.pass mark r).GoesOn then receive fd mark (text ++ r.bytes)
        else .ret (cstr (s.pass mark r).msgBuff)) := by
  have seen : cstr (s.pass mark r).msgBuff = cstr (text ++ r.bytes) :=
    (Receiving.pass_filled ready).cstr_eq
  rw [receive, seen]
  refine .call ?_
  cases r with
  | none =>
      have ends : ¬ (s.pass mark none).GoesOn := fun goesOn =>
        ((Receiving.pass_goesOn ready).mp goesOn).1 rfl
      rw [if_neg ends]
      simp only [Option.map_none, ReadResult.bytes, List.append_nil]
      exact .refl _
  | some bytes =>
      have same := @Receiving.pass_goesOn mark text s (some bytes) ready
      simp only [ReadResult.bytes] at same
      simp only [Option.map_some, same, ReadResult.bytes]
      exact .refl _

theorem receive_reached {k : Nat}
    (goesOn : ∀ j < k, (Receiving.reached mark reads (j + 1)).GoesOn) :
    Steps (receive fd mark []) (readsFrom fd reads k) (receive fd mark (got reads k)) := by
  induction k with
  | zero => exact .refl _
  | succ k ih =>
      have before := fun j (inside : j < k) => goesOn j (Nat.lt_succ_of_lt inside)
      have ready := Receiving.reached_ready mark reads before
      have step := @receive_step fd mark _ _ ready (reads k)
      have more : ((Receiving.reached mark reads k).pass mark (reads k)).GoesOn :=
        goesOn k (Nat.lt_succ_self k)
      rw [if_pos more] at step
      rw [readsFrom, List.range_succ, List.map_append]
      exact (ih before).trans step

/-- The loop of the server makes the reads of the loop in the buffer, and gives the text that is
    left there. -/
theorem receive_loop {passes : Nat} {s : Receiving}
    (ended : Receiving.loop mark reads maxBuff 0 .zeroed = some (passes, s)) :
    Returns (receive fd mark []) (readsFrom fd reads passes) (cstr s.msgBuff) := by
  obtain ⟨last, inTime, goesOn, ends⟩ := Receiving.exists_last mark reads
  have run := Receiving.loop_eq mark reads (fun j _ before => goesOn j before) ends
    (Nat.zero_le last) (show last < 0 + maxBuff by omega)
  rw [Receiving.reached, ended] at run
  cases run
  have step := @receive_step fd mark _ _ (Receiving.reached_ready mark reads goesOn) (reads last)
  have stops : ¬ ((Receiving.reached mark reads last).pass mark (reads last)).GoesOn := ends
  rw [if_neg stops] at step
  rw [readsFrom, List.range_succ, List.map_append]
  exact (receive_reached fd goesOn).trans step

end Receive

/-- Both loops end, keep to their buffer, and stop at the first read that completes the END line. -/
theorem receiveLoops_stay (reads : Nat → ReadResult) :
    StaysAndStops authenticateClientLoop endResponseS reads ∧
      StaysAndStops processRequestLoop endClientRequestS reads :=
  ⟨Receiving.staysAndStops _ _ (by decide +kernel), Receiving.staysAndStops _ _ (by decide +kernel)⟩

end RepositoryManager
