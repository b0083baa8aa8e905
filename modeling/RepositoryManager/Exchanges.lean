import RepositoryManager.Server

/-! # What stands before a reply

In the history of a process a session stands before each reply, then what was read since the
last reply, and then what was asked about that. A history can be taken apart so in one way
only.
-/

namespace RepositoryManager

open ByteString Interaction Interaction.Prog ProcessPool ProcessPool.System

section Forks

variable {p : Platform} {xsb : Str → Option Str → QueryEnd → Prop} {policy : Str}
  {socketInit : Bool} {file : World} {s : Pool Call Reply Mode World}

theorem Life.before_fork {h : History} (life : Life p policy (h ++ [⟨.fork, .child⟩])) :
    ∀ e ∈ h, Listens e := by
  have ofOpening : ∀ (o : Opening policy) (tail : History), (∀ e ∈ tail, e ≠ ⟨.fork, .child⟩) →
      h ++ [⟨.fork, .child⟩] = o.history ++ tail → ∀ e ∈ h, Listens e := by
    intro o tail absent cut
    rcases List.eq_nil_or_concat tail with rfl | ⟨tail, e, rfl⟩
    · rw [List.append_nil, Opening.history, Opening.start] at cut
      have same : h = o.before ++ [⟨.accept, o.fd⟩, ⟨.read o.fd maxBuff, o.first⟩] :=
        (List.append_inj' (cut.trans (by simp)) rfl).1
      subst same
      intro e member
      rcases List.mem_append.mp member with before | start
      · exact o.listened e before
      · simp only [List.mem_cons, List.not_mem_nil, or_false] at start
        rcases start with rfl | rfl
        · trivial
        · trivial
    · rw [List.concat_eq_append, ← List.append_assoc] at cut
      have last := (List.append_inj' cut rfl).2
      exact absurd (List.cons.inj last).1.symm (absent e (by simp))
  generalize whole : h ++ [⟨.fork, .child⟩] = whole' at life
  cases life with
  | listening only =>
      rcases only ⟨.fork, .child⟩ (by simp [← whole]) with listens | removal
      · exact absurd rfl listens
      · cases removal
  | checking o run =>
      refine ofOpening o _ ?_ whole
      rintro e member rfl
      exact run.only processMsg_only _ member
  | serving c run =>
      refine ofOpening c.toOpening (c.checks ++ (c.served ++ _)) ?_
        (whole.trans (by simp only [Connection.history, List.append_assoc]; rfl))
      rintro e member rfl
      simp only [List.mem_append] at member
      rcases member with checks | served | now
      · exact c.checked.only processMsg_only _ checks
      · exact c.serving.only _ served
      · exact run.only (processRequest_only c.im) _ now

theorem inherited_listens
    (reach : (server p xsb).Reachable (startListening policy socketInit) file s) :
    ∀ q ∈ s.procs, ∀ e ∈ q.inherited, Listens e := by
  have both : ∀ q ∈ s.procs, Runs (serve p) (startListening policy socketInit) q.history q.rest ∧
      ∀ e ∈ q.inherited, Listens e := by
    refine Reachable.each (P := fun q => Runs (serve p) (startListening policy socketInit) q.history
      q.rest ∧ ∀ e ∈ q.inherited, Listens e) ⟨.start, by simp⟩ ?_ ?_ ?_ reach
    · rintro q c k r ⟨run, listened⟩ next
      rw [next] at run
      refine ⟨?_, listened⟩
      simpa only [Process.history, Process.after, List.append_assoc] using run.call r
    · rintro q c k r r' ⟨run, listened⟩ next double
      rw [next] at run
      have forked := run.call r'
      refine ⟨forked, ?_⟩
      cases c with
      | fork =>
          cases r with
          | parent =>
              cases double
              exact (life_of_runs forked).1.before_fork
          | _ => cases double
      | _ => cases double
    · rintro q m ⟨run, listened⟩ done
      rw [done] at run
      exact ⟨run.again, listened⟩
  exact fun q member => (both q member).2

end Forks

/-! ## The parts of a history -/

/-- What a session does about a request before it replies. -/
def Asks : Event Call Reply → Prop
  | ⟨.popen _, _⟩ => True
  | ⟨.note (.executed _ _), _⟩ => True
  | _ => False

def IsWrite : Event Call Reply → Prop
  | ⟨.write _ _, _⟩ => True
  | _ => False

theorem Reads.not_write {fd : Int} {e : Event Call Reply} (reads : Reads fd e) : ¬ IsWrite e := by
  obtain ⟨r, rfl⟩ := reads
  exact id

theorem Reads.not_asks {fd : Int} {e : Event Call Reply} (reads : Reads fd e) : ¬ Asks e := by
  obtain ⟨r, rfl⟩ := reads
  exact id

theorem Asks.not_write {e : Event Call Reply} (asks : Asks e) : ¬ IsWrite e := by
  obtain ⟨c, r⟩ := e
  cases c with
  | write => exact asks.elim
  | _ => exact id

/-- A history, taken apart. -/
structure Exchange (p : Platform) (policyText : Str) (past : History) where
  session : Session p policyText
  reads : History
  asked : History
  isRead : ∀ e ∈ reads, Reads session.fd e
  isAsked : ∀ e ∈ asked, Asks e
  whole : past = session.history ++ (reads ++ asked)

theorem replied_of_answerQuery {im : TransportService} {query : Str} {h : History}
    (run : Returns (answerQuery im query) h ()) : ∃ front e, h = front ++ [e] ∧ IsWrite e := by
  by_cases nonempty : query = []
  · subst nonempty
    obtain ⟨n, rest, rfl, done⟩ := returns_call.mp run
    obtain ⟨rfl, -⟩ := returns_ret.mp done
    exact ⟨[], ⟨.write _ _, n⟩, rfl, trivial⟩
  · rw [answerQuery_eq im nonempty] at run
    obtain ⟨granted, front, tail, rfl, -, replies⟩ := returns_bind.mp run
    obtain ⟨_, rest, rfl, writes⟩ := returns_call.mp replies
    obtain ⟨n, rest, rfl, done⟩ := returns_call.mp writes
    obtain ⟨rfl, -⟩ := returns_ret.mp done
    exact ⟨_, ⟨.write _ _, n⟩, (List.append_assoc front [_] [_]).symm, trivial⟩

theorem replied_of_processRequest {im im' : TransportService} {h : History}
    (run : Returns (processRequest im) h (true, im')) : ∃ front e, h = front ++ [e] ∧ IsWrite e := by
  obtain ⟨request, reads, now, rfl, -, handled⟩ := returns_bind.mp run
  by_cases isOpen : Open im request
  · rw [handleRequest_open isOpen, answerRequest] at handled
    obtain ⟨_, tail, rest, rfl, answered, done⟩ := returns_bind.mp handled
    obtain ⟨rfl, -⟩ := returns_ret.mp done
    cases made : generateQuery im.ss.credPtr request with
    | none =>
        rw [made] at answered
        exact (returns_abort answered).elim
    | some query =>
        rw [made] at answered
        obtain ⟨front, e, rfl, isWrite⟩ := replied_of_answerQuery answered
        exact ⟨reads ++ front, e, by simp, isWrite⟩
  · obtain ⟨closed, -, closes⟩ := handleRequest_closed isOpen
    rw [closes] at handled
    obtain ⟨_, rest, -, done⟩ := returns_call.mp handled
    cases (returns_ret.mp done).2

theorem Served.last {im : TransportService} {h : History} (served : Served im h) :
    ∀ e ∈ h.getLast?, IsWrite e := by
  cases served with
  | none => exact fun e member => absurd member (by simp)
  | @pass done h _ answered =>
      obtain ⟨front, e, rfl, isWrite⟩ := replied_of_processRequest answered
      rw [← List.append_assoc, List.getLast?_concat]
      intro e' same
      cases same
      exact isWrite

theorem Admission.history_cut {p : Platform} {im im' : TransportService} (a : Admission p im)
    (b : Admission p im') {rest rest' : History} (same : a.history ++ rest = b.history ++ rest') :
    a.credential = b.credential ∧ rest = rest' := by
  simp only [Admission.history, List.cons_append, List.nil_append, List.append_assoc,
    List.cons.injEq] at same
  obtain ⟨-, built, -, -, -, write, same⟩ := same
  have socket : im.clientSocketId = im'.clientSocketId := by
    injection write with call _
    injection call
  have credential : a.credential = b.credential := by
    injection built with call _
    injection call with noted
    injection noted
  obtain ⟨-, rests⟩ := span_unique a.reads (socket ▸ b.reads)
    (by simp [Reads]) (by simp [Reads]) same
  simp only [List.cons.injEq] at rests
  exact ⟨credential, rests.2.2.2⟩

section Parts

variable {p : Platform} {im im' : TransportService} {a : Admission p im} {b : Admission p im'}
  {front front' served served' reads reads' asked asked' : History} {fd fd' : Int}

/-- The calls of a session, whose connection was accepted behind `front`, up to a reply: the
    reads and the queries behind those that were replied to. -/
structure Parted (a : Admission p im) (front served reads asked : History) (fd : Int) : Prop where
  listened : ∀ e ∈ front, Listens e
  replied : ∀ e ∈ served.getLast?, IsWrite e
  isRead : ∀ e ∈ reads, Reads fd e
  isAsked : ∀ e ∈ asked, Asks e

theorem Parted.silent (parted : Parted a front served reads asked fd) :
    ∀ e ∈ (reads ++ asked).reverse, ¬ IsWrite e := by
  intro e member
  rcases List.mem_append.mp (List.mem_reverse.mp member) with read | asks
  · exact (parted.isRead e read).not_write
  · exact (parted.isAsked e asks).not_write

theorem Parted.stops (parted : Parted a front served reads asked fd) :
    ∀ e ∈ served.reverse.head?, ¬ ¬ IsWrite e := by
  intro e member none
  rw [List.head?_reverse] at member
  exact none (parted.replied e member)

theorem Parted.asks_first (parted : Parted a front served reads asked fd) :
    ∀ e ∈ asked.head?, ¬ ∃ fd, Reads fd e := by
  rintro e member ⟨_, read⟩
  exact read.not_asks (parted.isAsked e (List.mem_of_mem_head? member))

theorem Parted.unique (parted : Parted a front served reads asked fd)
    (parted' : Parted b front' served' reads' asked' fd')
    (same : front ++ ⟨.fork, .child⟩ :: (a.history ++ (served ++ (reads ++ asked))) =
      front' ++ ⟨.fork, .child⟩ :: (b.history ++ (served' ++ (reads' ++ asked')))) :
    front = front' ∧ a.credential = b.credential ∧ reads = reads' ∧ asked = asked' := by
  -- the child begins at the first fork that is its own
  obtain ⟨listening, children⟩ := span_unique parted.listened parted'.listened (by simp [Listens])
    (by simp [Listens]) same
  obtain ⟨credential, later⟩ := a.history_cut b (List.cons.inj children).2
  -- from the end, the last reply is the first write
  have backwards : (reads ++ asked).reverse ++ served.reverse =
      (reads' ++ asked').reverse ++ served'.reverse := by
    rw [← List.reverse_append, later, List.reverse_append]
  obtain ⟨since, -⟩ :=
    span_unique parted.silent parted'.silent parted.stops parted'.stops backwards
  obtain ⟨sameReads, sameAsked⟩ := span_unique (P := fun e => ∃ fd, Reads fd e)
    (fun e read => ⟨_, parted.isRead e read⟩) (fun e read => ⟨_, parted'.isRead e read⟩)
    parted.asks_first parted'.asks_first (List.reverse_injective since)
  exact ⟨listening, credential, sameReads, sameAsked⟩

end Parts

namespace Exchange

variable {p : Platform} {policyText : Str} {past : History}

/-- From the first call to the fork, as the parent has it. -/
def front (x : Exchange p policyText past) : History :=
  x.session.before ++ [⟨.accept, x.session.fd⟩, ⟨.read x.session.fd maxBuff, x.session.first⟩]

theorem parts (x : Exchange p policyText past) :
    past = x.front ++ ⟨.fork, .child⟩ ::
      (x.session.admission.history ++ (x.session.served ++ (x.reads ++ x.asked))) := by
  refine x.whole.trans ?_
  rw [Session.history, Opening.history, Opening.start, front]
  simp

theorem parted (x : Exchange p policyText past) :
    Parted x.session.admission x.front x.session.served x.reads x.asked x.session.fd where
  listened := List.forall_mem_append.mpr ⟨x.session.listened, by simp [Listens]⟩
  replied := x.session.serving.last
  isRead := x.isRead
  isAsked := x.isAsked

theorem unique (x y : Exchange p policyText past) :
    x.session.admission.credential = y.session.admission.credential ∧ x.reads = y.reads ∧
      x.asked = y.asked :=
  (x.parted.unique y.parted (x.parts.symm.trans y.parts)).2

end Exchange

end RepositoryManager
