import RepositoryManager.Isolation

/-! # The validity of certificates over time

The window of a certificate is tested once, while its holder is authenticated. What
stays true of it afterwards, as long as the clock goes forward, is that it has begun.
-/

namespace RepositoryManager

open ByteString Interaction Interaction.Prog ProcessPool ProcessPool.System SharedCell

/-! ## Clocks -/

/-- A clock that never goes back, at each call of a trace. The readings that a method
    takes lie between its call of `time` and the next call of its process. -/
structure Clocked (calls : List (Nat × Event Call Reply)) (clock : Nat → Int) : Prop where
  forward : ∀ k l, k ≤ l → clock k ≤ clock l
  after : ∀ k j (r : Nat → Int), calls[k]? = some (j, ⟨.time, r⟩) → ∀ n, clock k ≤ r n
  before : ∀ k l j (r : Nat → Int) e, calls[k]? = some (j, ⟨.time, r⟩) →
    calls[l]? = some (j, e) → k < l → ∀ n, r n ≤ clock l

/-- At `w` the process `i` replies `granted` to the query that it made at `l`. What it loaded
    for this query is the program `text`, which the process `j` wrote at `k`. -/
structure Grants (calls : List (Nat × Event Call Reply)) (k l w j i : Nat) (text : Str) : Prop where
  saved : calls[k]? = some (j, ⟨.saveBinder text, true⟩)
  queried : ∃ cmd ending, calls[l]? = some (i, ⟨.popen cmd, (some text, ending)⟩)
  kept : k < l ∧ ∀ m e, k < m → m < l → calls[m]? = some e → fileEffect e.2 = none
  granted : ∃ fd n, calls[w]? = some (i, ⟨.write fd (replyMsg grantS), n⟩)
  reply : l < w ∧ ∀ m e, l < m → m < w → calls[m]? = some (i, e) → ∃ n, e = ⟨.note n, ()⟩

/-- Every reply `granted` comes within the windows of all certificates whose clauses are in
    the program that was loaded. -/
def WithinWindows (clib : CLib) (calls : List (Nat × Event Call Reply)) (clock : Nat → Int) : Prop :=
  ∀ k l w j i text, Grants calls k l w j i text →
    ∀ v c checked, v < k → calls[v]? = some (j, ⟨.note (.verified c checked true), ()⟩) →
      ∀ cert ∈ c.certificates, validTime clib (clock w) cert = true

/-! ## What comes before a program file -/

/-- The save of a program: the text is that of a policy and a credential. -/
def Saves (policy : Policy) (checked : Credential) (e : Event Call Reply) : Prop :=
  ∀ text b, e = ⟨.saveBinder text, b⟩ → text = binderText policy checked

theorem authenticateClient_saves (p : Platform) (im : TransportService) (c : Credential)
    (policy : Policy) (checked : Credential) :
    (authenticateClient p im c).Only (Saves policy checked) := by
  rw [authenticateClient_eq]
  refine fun _ => ⟨by simp [Saves], fun _ => ⟨by simp [Saves], ?_⟩⟩
  refine Only.bind (Only.mono ?_ (receive_only _ _ _)) fun _ _ => ⟨by simp [Saves], trivial⟩
  rintro _ ⟨r, rfl⟩ text b same
  cases same

theorem admitClient_saves {p : Platform} {im : TransportService} {policy : Policy}
    {checked : Credential} (hasPolicy : im.ss.policy = some policy)
    (hasCredential : im.ss.credPtr = some checked) (c : Credential) :
    (admitClient p im c).Only (Saves policy checked) := by
  refine Only.bind_returns (authenticateClient_saves p im c policy checked) ?_
  rintro ⟨b, im'⟩ h run
  obtain ⟨n, reads, -, -, rfl, -⟩ := returns_authenticateClient run
  cases b with
  | false => exact fun _ => ⟨by simp [Saves], trivial⟩
  | true =>
      refine Only.bind ?_ fun written => fun _ => ⟨by simp [Saves], trivial⟩
      simp only [writeBinderFile, hasPolicy, hasCredential]
      refine fun isOpen => ⟨?_, trivial⟩
      intro text b same
      cases same
      rfl

theorem processMsg_saved {p : Platform} {im : TransportService} {past later : History}
    {text : Str} {b : Bool} {rest : Server TransportService}
    (run : Steps (processMsg p im) (past ++ ⟨.saveBinder text, b⟩ :: later) rest) :
    ∃ (front now : History) (curTimes : Nat → Int) (trusting ss : SecurityService) (policy : Policy)
      (c checked : Credential),
      past = front ++ ⟨.time, curTimes⟩ :: ⟨.note (.verified c checked true), ()⟩ :: now ∧
      im.ss.setPolicy im.policy = some trusting ∧
      verifyCredential p.openssl p.clib p.validateCertTime curTimes trusting (some c) =
        some (true, ss) ∧
      ss.policy = some policy ∧ ss.credPtr = some checked ∧ text = binderText policy checked := by
  have inRet : ∀ {α : Type} {a : α} {h : History} {q}, ¬ Steps (.ret a : Server α)
      (h ++ ⟨.saveBinder text, b⟩ :: later) q := by
    intro α a h q ended
    have empty := (steps_ret.mp ended).1
    simp at empty
  have inAbort : ∀ {α : Type} {h : History} {q}, ¬ Steps (abort : Server α)
      (h ++ ⟨.saveBinder text, b⟩ :: later) q := by
    intro α h q ended
    obtain ⟨r, -⟩ := ended.before (by simp)
    cases r
  unfold processMsg at run
  split at run
  · exact absurd run inRet
  split at run
  · exact absurd run inAbort
  obtain ⟨clock, past₁, rfl, builds⟩ := run.before (by simp)
  change Steps (buildClient p im _) _ _ at builds
  generalize AstWalker.getCredential _ _ _ _ = result at builds
  match result with
  | none => exact absurd builds inAbort
  | some none =>
      obtain ⟨_, past₂, rfl, closed⟩ := builds.before (by simp)
      exact absurd closed inRet
  | some (some c) =>
      obtain ⟨_, past₂, rfl, checks⟩ := builds.before (by simp)
      obtain ⟨curTimes, past₃, rfl, decides⟩ := checks.before (by simp)
      change Steps (decideClient p im c ((im.ss.setPolicy im.policy).bind fun ss =>
        verifyCredential p.openssl p.clib p.validateCertTime curTimes ss (some c))) _ _ at decides
      cases verdict : (im.ss.setPolicy im.policy).bind fun ss =>
        verifyCredential p.openssl p.clib p.validateCertTime curTimes ss (some c) with
      | none =>
          rw [verdict] at decides
          exact absurd decides inAbort
      | some result =>
          obtain ⟨verified, ss⟩ := result
          obtain ⟨trusting, trusts, checked⟩ := Option.bind_eq_some_iff.mp verdict
          rw [verdict] at decides
          obtain ⟨_, past₄, rfl, follows⟩ := decides.before (by simp)
          cases verified with
          | false =>
              obtain ⟨_, past₅, rfl, closed⟩ := follows.before (by simp)
              exact absurd closed inRet
          | true =>
              obtain ⟨policy, hasPolicy, -⟩ := setPolicy_policy trusts
              obtain ⟨_, _, policy', c', done, hasPolicy', -, hasCred, -⟩ :=
                verifyCredential_eq p.openssl p.clib p.validateCertTime curTimes hasPolicy c
              cases checked.symm.trans done
              have saves := follows.only (@admitClient_saves p { im with ss } _ _ hasPolicy' hasCred c)
              refine ⟨[⟨.time, clock⟩, ⟨.note (.built im.socketMsg c), ()⟩], past₄, curTimes, trusting,
                ss, policy', c, c', ?_, trusts, checked, hasPolicy', hasCred,
                saves _ (by simp) text b rfl⟩
              simp [hasCred]

theorem Admission.time_mem {p : Platform} {im : TransportService} (a : Admission p im)
    {r : Nat → Int} (member : (⟨.time, r⟩ : Event Call Reply) ∈ a.history) :
    r = a.clock ∨ r = a.curTimes := by
  have notRead : (⟨.time, r⟩ : Event Call Reply) ∉ a.answers := by
    intro read
    obtain ⟨r', same⟩ := a.reads _ read
    cases same
  simp only [Admission.history, List.mem_append, List.mem_cons, List.not_mem_nil, or_false,
    notRead] at member
  rcases member with (first | none | second | none | none | none) | none | none | none
  · cases first
    exact .inl rfl
  · cases none
  · cases second
    exact .inr rfl
  all_goals cases none

section Runs

variable {p : Platform} {xsb : Str → Option Str → QueryEnd → Prop} {policy : Str}
  {socketInit : Bool} {file : World} {s : Pool Call Reply Mode World}

theorem Life.cut_save {h past later : History} (life : Life p policy h) {text : Str} {b : Bool}
    (at_save : h = past ++ ⟨.saveBinder text, b⟩ :: later) :
    ∃ (o : Opening policy) (now later' : History) (rest : Server TransportService),
      past = o.history ++ now ∧
      Steps (processMsg p o.forked) (now ++ ⟨.saveBinder text, b⟩ :: later') rest := by
  have inOpening : ∀ o : Opening policy, (⟨.saveBinder text, b⟩ : Event Call Reply) ∉ o.history := by
    intro o member
    rcases List.mem_append.mp member with before | start
    · exact o.listened _ before
    · simp [Opening.start] at start
  cases life with
  | listening only =>
      rcases only ⟨.saveBinder text, b⟩ (by simp [at_save]) with listens | removal
      · exact listens.elim
      · cases removal
  | checking o run =>
      obtain ⟨now, past_eq, same⟩ := cut_second (inOpening o) at_save
      exact ⟨o, now, later, _, past_eq, same ▸ run⟩
  | @serving now rest c run =>
      have notServed : (⟨.saveBinder text, b⟩ : Event Call Reply) ∉ c.served ++ now := by
        intro member
        rcases List.mem_append.mp member with served | answering
        · exact (c.serving.only _ served).elim
        · exact (run.only (processRequest_only c.im) _ answering).elim
      rw [Connection.history, List.append_assoc, List.append_assoc] at at_save
      obtain ⟨past', past_eq, afterOpening⟩ := cut_second (inOpening c.toOpening) at_save
      obtain ⟨later', checks, -⟩ := cut_first notServed afterOpening
      have checked := c.checked
      rw [checks] at checked
      exact ⟨c.toOpening, past', later', _, past_eq, checked⟩

/-- Every program that is in the file was written by a process that has verified its
    credential before, and read the clock before that. -/
theorem saved_program
    (reach : (server p xsb).Reachable (startListening policy socketInit) file s) {k j : Nat}
    {text : Str} (saved : s.trace[k]? = some (j, ⟨.saveBinder text, true⟩)) :
    ∃ (u v : Nat) (r : Nat → Int) (c checked : Credential), u < v ∧ v < k ∧
      s.trace[u]? = some (j, ⟨.time, r⟩) ∧
      s.trace[v]? = some (j, ⟨.note (.verified c checked true), ()⟩) ∧
      text = programText policy (checked.certificates.flatMap Certificate.transformedCls) ∧
      ∀ n cert, c.certificates[n]? = some cert →
        Passes p.openssl p.clib p.validateCertTime (r n) cert := by
  obtain ⟨before, later, cut, rfl⟩ := cut_at saved
  obtain ⟨same, bounded⟩ := reach.traced
  have inside : j < s.procs.length := bounded (j, ⟨.saveBinder text, true⟩) (by simp [cut])
  have found := List.getElem?_eq_getElem inside
  have own : s.procs[j].own = callsOf j before ++ ⟨.saveBinder text, true⟩ :: callsOf j later := by
    rw [same j _ found, cut, callsOf_append]
    simp [callsOf]
  have listened := inherited_listens reach _ (List.getElem_mem inside)
  have life := (life_of_runs (reach.runs _ (List.getElem_mem inside))).1
  have whole : s.procs[j].history = (s.procs[j].inherited ++ callsOf j before) ++
      ⟨.saveBinder text, true⟩ :: callsOf j later := by
    rw [Process.history, own, List.append_assoc]
  obtain ⟨o, now, later', rest, past, run⟩ := life.cut_save whole
  obtain ⟨front, tail, r, trusting, ss, pol, c, checked, rfl, trusts, verified, hasPolicy, hasCred,
    rfl⟩ := processMsg_saved run
  have notInherited : (⟨.time, r⟩ : Event Call Reply) ∉ s.procs[j].inherited :=
    fun member => listened _ member
  have cutTime : s.procs[j].inherited ++ callsOf j before = (o.history ++ front) ++
      ⟨.time, r⟩ :: ⟨.note (.verified c checked true), ()⟩ :: tail := by
    rw [past, List.append_assoc]
  obtain ⟨mine, -, calls⟩ := cut_second notInherited cutTime
  obtain ⟨a, b, rfl, -, afterTime⟩ := cut_callsOf calls
  obtain ⟨d, e, rfl, -, -⟩ := cut_callsOf (a := []) afterTime
  obtain ⟨policy₁, set, sameText⟩ := setPolicy_policy trusts
  obtain ⟨_, _, policy₂, c', done, hasPolicy₂, text₂, hasCred₂, -, -, passes, -⟩ :=
    verifyCredential_eq p.openssl p.clib p.validateCertTime r set c
  cases verified.symm.trans done
  cases hasPolicy.symm.trans hasPolicy₂
  refine ⟨a.length, a.length + (d.length + 1), r, c, checked, by omega, by simp, ?_, ?_, ?_,
    passes.mp rfl⟩
  · simp [cut]
  · simp [cut]
  · rw [binderText_eq, text₂, sameText, o.policyKept]

/-- A grant with times validated. The session that wrote the loaded program read the clock
    before that, within the window of each of its certificates, and at the time of the
    reply each of these windows has begun. -/
theorem granted_after_check
    (reach : (server p xsb).Reachable (startListening policy socketInit) file s)
    (validate : p.validateCertTime = true)
    (ordered : ∀ a b, a ≤ b → p.clib.mktime (p.clib.gmtime a) ≤ p.clib.mktime (p.clib.gmtime b))
    {clock : Nat → Int} (clocked : Clocked s.trace clock) {k l w j i : Nat} {text : Str}
    (grants : Grants s.trace k l w j i text) :
    ∃ (u v : Nat) (r : Nat → Int) (c checked : Credential), u < v ∧ v < k ∧
      s.trace[u]? = some (j, ⟨.time, r⟩) ∧
      s.trace[v]? = some (j, ⟨.note (.verified c checked true), ()⟩) ∧
      text = programText policy (checked.certificates.flatMap Certificate.transformedCls) ∧
      ∀ n cert, c.certificates[n]? = some cert →
        r n ≤ clock w ∧ validTime p.clib (r n) cert = true ∧
          cert.startTimeSec ≤ p.clib.mktime (p.clib.gmtime (clock w)) := by
  obtain ⟨u, v, r, c, checked, earlier, before, read, verified, program, passes⟩ :=
    saved_program reach grants.saved
  refine ⟨u, v, r, c, checked, earlier, before, read, verified, program, ?_⟩
  intro n cert at_n
  obtain ⟨began, notOver⟩ := (passes n cert at_n).1 validate
  have later : v ≤ w := by
    have kept := grants.kept.1
    have reply := grants.reply.1
    omega
  have past : r n ≤ clock w :=
    Int.le_trans (clocked.before u v j r _ read verified earlier n) (clocked.forward v w later)
  refine ⟨past, ?_, Int.le_trans began (ordered _ _ past)⟩
  rw [validTime, Bool.and_eq_true]
  exact ⟨decide_eq_true began, decide_eq_true notOver⟩

end Runs

/-! ## The calendar in UTC -/

/-- The days from 1 March of the year 0 to a date, whose months begin with March. -/
def dayNumber (year month day : Int) : Int :=
  365 * year + year / 4 - year / 100 + year / 400 + (153 * month + 2) / 5 + day - 1

/-- The C library in UTC: dates of the Gregorian calendar, from years that begin in March. -/
def CLib.utc : CLib where
  mktime tm :=
    let year := tm.year + 1900 + (tm.mon - 2) / 12
    (dayNumber year ((tm.mon - 2) % 12) tm.mday - 719468) * 86400 + tm.hour * 3600 + tm.min * 60 +
      tm.sec
  gmtime t :=
    let days := t / 86400 + 719468
    let century := min 3 (days % 146097 / 36524)
    let inCentury := days % 146097 - 36524 * century
    let year := min 3 (inCentury % 1461 / 365)
    let inYear := inCentury % 1461 - 365 * year
    let month := (5 * inYear + 2) / 153
    { year := 400 * (days / 146097) + 100 * century + 4 * (inCentury / 1461) + year +
        (month + 2) / 12 - 1900
      mon := (month + 2) % 12
      mday := inYear - (153 * month + 2) / 5 + 1
      hour := t % 86400 / 3600
      min := t % 3600 / 60
      sec := t % 60 }

theorem dayNumber_year {era century four year : Int} (month day : Int) (c : 0 ≤ century ∧ century ≤ 3)
    (f : 0 ≤ four ∧ four ≤ 24) (y : 0 ≤ year ∧ year ≤ 3) :
    dayNumber (400 * era + 100 * century + 4 * four + year) month day =
      146097 * era + 36524 * century + 1461 * four + 365 * year + (153 * month + 2) / 5 + day - 1 := by
  unfold dayNumber
  have fours : (400 * era + 100 * century + 4 * four + year) / 4 = 100 * era + 25 * century + four := by
    omega
  have hundreds : (400 * era + 100 * century + 4 * four + year) / 100 = 4 * era + century := by omega
  have eras : (400 * era + 100 * century + 4 * four + year) / 400 = era := by omega
  rw [fours, hundreds, eras]
  omega

theorem utc_mktime_gmtime (t : Int) : CLib.utc.mktime (CLib.utc.gmtime t) = t := by
  simp only [CLib.utc]
  generalize d : t / 86400 + 719468 = days
  generalize c : min 3 (days % 146097 / 36524) = century
  generalize ic : days % 146097 - 36524 * century = inCentury
  generalize y : min 3 (inCentury % 1461 / 365) = year
  generalize iy : inCentury % 1461 - 365 * year = inYear
  generalize m : (5 * inYear + 2) / 153 = month
  have inCentury_bounds : 0 ≤ inCentury ∧ inCentury ≤ 36524 := by omega
  have inYear_bounds : 0 ≤ inYear ∧ inYear ≤ 365 := by omega
  have month_bounds : 0 ≤ month ∧ month ≤ 11 := by omega
  have civil_year : 400 * (days / 146097) + 100 * century + 4 * (inCentury / 1461) + year +
      (month + 2) / 12 - 1900 + 1900 + ((month + 2) % 12 - 2) / 12 =
        400 * (days / 146097) + 100 * century + 4 * (inCentury / 1461) + year := by omega
  have civil_month : ((month + 2) % 12 - 2) % 12 = month := by omega
  rw [civil_year, civil_month, dayNumber_year _ _ (by omega) (by omega) (by omega)]
  omega

/-! ## A session that outlives its certificate -/

/-- The village with its certificates checked against the calendar. -/
def datedPlatform : Platform := { villagePlatform with clib := .utc, validateCertTime := true }

theorem dated_antlr : datedPlatform.antlr = villagePlatform.antlr := rfl

/-- Some day of June 2011, and of June 2012. -/
def june2011 : Int := 1307000000
def june2012 : Int := 1339000000

/-- Alice's credential as it is dated, before and after its verification. -/
def datedCredential (digest : Str) (transformed : List Str) : Credential :=
  { userCredential alice digest transformed with
    certificates := (userCredential alice digest transformed).certificates.map fun cert =>
      { cert with startTimeSec := 1293840000, stopTimeSec := 1325376000 } }

def datedChecked : Credential := datedCredential (userDigest alice) [userLine alice]

theorem dated_built :
    AstWalker.getCredential (userTree alice) CLib.utc.mktime (CLib.utc.gmtime june2011) 100 =
      some (some (datedCredential [] [])) := by
  decide +kernel

theorem dated_verified :
    verifyCredential .trusting .utc true (fun _ => june2011)
      { policyStr := [], policy := some ⟨[], [], [], []⟩, credPtr := none }
      (some (datedCredential [] [])) = some (true,
        { policyStr := [], policy := some (userPolicy alice), credPtr := some datedChecked }) := by
  decide +kernel

/-- Alice is admitted in June 2011. -/
def datedAdmission : Admission datedPlatform (childImage [] 4 (userMsg alice)) where
  clock := fun _ => june2011
  tree := userTree alice
  credential := datedCredential [] []
  trusting := { policyStr := [], policy := some ⟨[], [], [], []⟩, credPtr := none }
  curTimes := fun _ => june2011
  ss := { policyStr := [], policy := some (userPolicy alice), credPtr := some datedChecked }
  policy := userPolicy alice
  checked := datedChecked
  sent := 1
  answers := oneRead 4 endResponseS
  nonempty := by
    rw [childImage, cstr_of_clean alice_known.clean]
    exact alice_known.nonempty
  parsed := by
    rw [childImage, cstr_of_clean alice_known.clean, dated_antlr]
    exact alice_known.parsed
  built := dated_built
  trusts := rfl
  verified := dated_verified
  hasPolicy := rfl
  hasCredential := rfl
  reads := oneRead_reads 4 endResponseS
  signed := response_signed alice 4 _ _

theorem dated_generates :
    generateQuery (some datedChecked) readRequest = some (readQuery alice) := by
  decide +kernel

/-- The calls of the session of alice. -/
def datedTrace : List (Nat × Event Call Reply) :=
  openingTrace 1 datedAdmission ++ (oneRead 4 readRequest ++ answerHistory 4 (readQuery alice)
    (some (binderText (userPolicy alice) datedChecked)) (some twiceYes) true).map fun e => (1, e)

theorem dated_run (xsb : Str → Option Str → QueryEnd → Prop)
    (answers : ∀ cmd file, xsb cmd file (.finished (some twiceYes))) :
    ∃ t, (server datedPlatform xsb).Reachable (startListening [] true) none t ∧
      t.trace = datedTrace := by
  have heard : datedAdmission.response = endResponseS := oneRead_text 4 endResponseS_clean
  obtain ⟨s, reach, -, -, -, ⟨q, at_1, -, waits⟩, world, trace⟩ :=
    open_session .init (atHome_init datedPlatform xsb [] none) (by decide) (by decide +kernel)
      datedAdmission (heard ▸ receive_oneRead 4 endResponseS_clean (by decide +kernel))
      fun file => reads_answered (by decide +kernel) file
  have clean : nul ∉ readRequest := by decide +kernel
  have allowed : readQuery alice ≠ [] := List.append_ne_nil_of_right_ne_nil _ (by decide +kernel)
  obtain ⟨t, reach', -, -, -, trace'⟩ := ask_query reach at_1 waits datedChecked rfl
    (receive_oneRead 4 clean (by decide +kernel))
    (fun file => reads_answered (by decide +kernel) file) ⟨rfl, by decide +kernel, by decide +kernel⟩
    dated_generates allowed (answers _ _) executeQueryProc_twiceYes
  refine ⟨t, reach', ?_⟩
  rw [trace', trace, world]
  rfl

/-- It is June 2011 until alice is admitted, and June 2012 when she makes her request. -/
def datedClock (k : Nat) : Int := if k < 15 then june2011 else june2012

theorem datedClock_forward (k l : Nat) (order : k ≤ l) : datedClock k ≤ datedClock l := by
  unfold datedClock june2011 june2012
  split <;> split <;> omega

theorem dated_readings {k j : Nat} {r : Nat → Int} (read : datedTrace[k]? = some (j, ⟨.time, r⟩)) :
    k < 15 ∧ r = fun _ => june2011 := by
  by_cases early : k < 15
  · refine ⟨early, ?_⟩
    rw [datedTrace, List.getElem?_append_left early] at read
    rcases List.mem_append.mp (List.mem_of_getElem? read) with opens | admits
    · simp at opens
    · obtain ⟨e, inHistory, same⟩ := List.mem_map.mp admits
      cases same
      rcases datedAdmission.time_mem inHistory with rfl | rfl
      · rfl
      · rfl
  · rw [datedTrace, List.getElem?_append_right (Nat.not_lt.mp early)] at read
    obtain ⟨e, answering, same⟩ := List.mem_map.mp (List.mem_of_getElem? read)
    cases same
    simp [oneRead, answerHistory] at answering

theorem dated_clocked : Clocked datedTrace datedClock where
  forward := datedClock_forward
  after k j r read n := by
    obtain ⟨early, rfl⟩ := dated_readings read
    exact Int.le_of_eq (if_pos early)
  before k l j r e read _ order n := by
    obtain ⟨early, rfl⟩ := dated_readings read
    have later := datedClock_forward k l (Nat.le_of_lt order)
    rw [datedClock, if_pos early] at later
    exact later

theorem dated_grants : Grants datedTrace 13 16 18 1 1
    (binderText (userPolicy alice) datedChecked) where
  saved := rfl
  queried := ⟨_, _, rfl⟩
  kept := by
    refine ⟨by decide, fun m e after before at_m => ?_⟩
    obtain rfl | rfl : m = 14 ∨ m = 15 := by omega
    · cases at_m
      rfl
    · cases at_m
      rfl
  granted := ⟨_, _, rfl⟩
  reply := by
    refine ⟨by decide, fun m e after before at_m => ?_⟩
    obtain rfl : m = 17 := by omega
    cases at_m
    exact ⟨_, rfl⟩

/-- Alice is granted her request half a year after her certificate is over. -/
theorem granted_after_expiry :
    ∃ (t : Pool Call Reply Mode World) (clock : Nat → Int),
      (server datedPlatform fun _ _ _ => True).Reachable (startListening [] true) none t ∧
      Clocked t.trace clock ∧ ¬ WithinWindows datedPlatform.clib t.trace clock := by
  obtain ⟨t, reach, trace⟩ := dated_run (fun _ _ _ => True) fun _ _ => trivial
  refine ⟨t, datedClock, reach, ?_, ?_⟩
  · rw [trace]
    exact dated_clocked
  · rw [trace]
    intro within
    have valid := within 13 16 18 1 1 _ dated_grants 8 (datedCredential [] []) datedChecked
      (by decide) rfl _ (List.mem_singleton.mpr rfl)
    revert valid
    decide +kernel

theorem granted_after_check_dated :
    ∃ (t : Pool Call Reply Mode World) (u v : Nat) (r : Nat → Int) (c checked : Credential),
      t.trace = datedTrace ∧ u < v ∧ v < 13 ∧ t.trace[u]? = some (1, ⟨.time, r⟩) ∧
      t.trace[v]? = some (1, ⟨.note (.verified c checked true), ()⟩) ∧
      ∀ n cert, c.certificates[n]? = some cert →
        r n ≤ june2012 ∧ validTime .utc (r n) cert = true ∧
          cert.startTimeSec ≤ CLib.utc.mktime (CLib.utc.gmtime june2012) := by
  obtain ⟨t, reach, trace⟩ := dated_run (fun _ _ _ => True) fun _ _ => trivial
  have ordered : ∀ a b, a ≤ b →
      CLib.utc.mktime (CLib.utc.gmtime a) ≤ CLib.utc.mktime (CLib.utc.gmtime b) := by
    intro a b order
    rw [utc_mktime_gmtime, utc_mktime_gmtime]
    exact order
  obtain ⟨u, v, r, c, checked, earlier, before, read, verified, -, certs⟩ :=
    granted_after_check reach rfl ordered (trace ▸ dated_clocked) (trace ▸ dated_grants)
  exact ⟨t, u, v, r, c, checked, trace, earlier, before, read, verified, certs⟩

end RepositoryManager
