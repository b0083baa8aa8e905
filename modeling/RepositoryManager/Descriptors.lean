import Mathlib.Data.List.Induction
import RepositoryManager.Schedules

/-! # The descriptors of the listener

Each `close` of the server is made by a child, in its own copy of the descriptor
table. The listening process accepts connections and closes none, so it holds a
descriptor for every client that it has ever accepted.
-/

namespace RepositoryManager

open ByteString Interaction Interaction.Prog ProcessPool ProcessPool.System

/-! ## The table -/

/-- The open connections after a call. A connection is open if `accept` did not fail. -/
def tableAfter (table : List Int) : Event Call Reply → List Int
  | ⟨.accept, fd⟩ => if 0 ≤ (fd : Int) then table ++ [fd] else table
  | ⟨.close fd, _⟩ => table.erase fd
  | _ => table

/-- The connections that a process with this history holds, besides the socket it listens
    on. `fork` copies them with the history. -/
def descriptors (h : History) : List Int := h.foldl tableAfter []

/-- The connection that is being handed over after a call: from `accept` to the fork. -/
def handedAfter (handed : Option Int) : Event Call Reply → Option Int
  | ⟨.accept, fd⟩ => if 0 ≤ (fd : Int) then some fd else none
  | ⟨.read _ _, _⟩ => handed
  | _ => none

def handedOver (h : History) : Option Int := h.foldl handedAfter none

/-- The listener holds at most the connection that it is handing over. -/
def Contained (h : History) : Prop := (descriptors h).Sublist (handedOver h).toList

def IsRead (e : Event Call Reply) : Prop := ∃ fd len r, e = ⟨.read fd len, r⟩

/-- No connection has been handed over: once one is accepted, the listener gets no further
    than to read from it. -/
def NothingHandedOver (h : History) : Prop :=
  ∀ before fd now, h = before ++ ⟨.accept, fd⟩ :: now → 0 ≤ (fd : Int) → ∀ e ∈ now, IsRead e

/-! ## What the listener does -/

/-- The listener accepts, reads, forks as a parent, looks at its timer, and removes the
    program file at its end. -/
def ListenerCall (e : Event Call Reply) : Prop := Listens e ∨ e = ⟨.removeBinder, ()⟩

theorem handed_or_read (e : Event Call Reply) :
    IsRead e ∨ (∃ fd : Int, 0 ≤ fd ∧ e = ⟨.accept, fd⟩) ∨ ∀ handed, handedAfter handed e = none := by
  obtain ⟨c, r⟩ := e
  cases c with
  | read fd len => exact .inl ⟨fd, len, r, rfl⟩
  | accept =>
      by_cases opened : 0 ≤ (r : Int)
      · exact .inr (.inl ⟨r, opened, rfl⟩)
      · exact .inr (.inr fun _ => if_neg opened)
  | _ => exact .inr (.inr fun _ => rfl)

theorem ListenerCall.tableAfter {e : Event Call Reply} (listener : ListenerCall e) (table : List Int) :
    (∃ fd : Int, 0 ≤ fd ∧ e = ⟨.accept, fd⟩ ∧ RepositoryManager.tableAfter table e = table ++ [fd]) ∨
      ((∀ fd : Int, 0 ≤ fd → e ≠ ⟨.accept, fd⟩) ∧ RepositoryManager.tableAfter table e = table) := by
  obtain ⟨c, r⟩ := e
  cases c with
  | accept =>
      by_cases opened : 0 ≤ (r : Int)
      · exact .inl ⟨r, opened, rfl, if_pos opened⟩
      · refine .inr ⟨?_, if_neg opened⟩
        intro fd some same
        cases same
        exact opened some
  | close fd =>
      rcases listener with listens | same
      · exact listens.elim
      · cases same
  | _ => exact .inr ⟨by simp, rfl⟩

theorem descriptors_snoc (h : History) (e : Event Call Reply) :
    descriptors (h ++ [e]) = tableAfter (descriptors h) e := by
  simp only [descriptors, List.foldl_append, List.foldl_cons, List.foldl_nil]

theorem handedOver_snoc (h : History) (e : Event Call Reply) :
    handedOver (h ++ [e]) = handedAfter (handedOver h) e := by
  simp only [handedOver, List.foldl_append, List.foldl_cons, List.foldl_nil]

theorem IsRead.tableAfter {e : Event Call Reply} (read : IsRead e) (table : List Int) :
    RepositoryManager.tableAfter table e = table := by
  obtain ⟨fd, len, r, rfl⟩ := read
  rfl

theorem IsRead.handedAfter {e : Event Call Reply} (read : IsRead e) (handed : Option Int) :
    RepositoryManager.handedAfter handed e = handed := by
  obtain ⟨fd, len, r, rfl⟩ := read
  rfl

theorem mem_descriptors {h : History} (listener : ∀ e ∈ h, ListenerCall e) (fd : Int) :
    fd ∈ descriptors h ↔ 0 ≤ fd ∧ ⟨.accept, fd⟩ ∈ h := by
  induction h using List.reverseRecOn with
  | nil => simp [descriptors]
  | append_singleton h e ih =>
      have before := ih fun x member => listener x (List.mem_append_left _ member)
      rw [descriptors_snoc, List.mem_append, List.mem_singleton]
      rcases (listener e (by simp)).tableAfter (descriptors h) with
        ⟨opened, positive, rfl, table⟩ | ⟨other, table⟩
      · rw [table, List.mem_append, List.mem_singleton, before]
        constructor
        · rintro (⟨nonneg, member⟩ | rfl)
          · exact ⟨nonneg, .inl member⟩
          · exact ⟨positive, .inr rfl⟩
        · rintro ⟨nonneg, member | same⟩
          · exact .inl ⟨nonneg, member⟩
          · cases same
            exact .inr rfl
      · rw [table, before]
        constructor
        · exact fun held => ⟨held.1, .inl held.2⟩
        · rintro ⟨nonneg, member | rfl⟩
          · exact ⟨nonneg, member⟩
          · exact absurd rfl (other fd nonneg)

theorem nothing_of_empty {h : History} (listener : ∀ e ∈ h, ListenerCall e)
    (empty : descriptors h = []) : NothingHandedOver h := by
  intro before fd now cut nonneg
  have held : fd ∈ descriptors h := (mem_descriptors listener fd).mpr ⟨nonneg, by simp [cut]⟩
  rw [empty] at held
  cases held

theorem nothing_snoc {h : History} (listener : ∀ e ∈ h, ListenerCall e) (e : Event Call Reply) :
    NothingHandedOver (h ++ [e]) ↔ NothingHandedOver h ∧ (IsRead e ∨ descriptors h = []) := by
  constructor
  · intro nothing
    refine ⟨?_, ?_⟩
    · rintro before fd now rfl nonneg x member
      exact nothing before fd (now ++ [e]) (by simp) nonneg x (List.mem_append_left _ member)
    · by_cases empty : descriptors h = []
      · exact .inr empty
      · obtain ⟨fd, held⟩ := List.exists_mem_of_ne_nil _ empty
        obtain ⟨nonneg, accepted⟩ := (mem_descriptors listener fd).mp held
        obtain ⟨before, now, rfl⟩ := List.append_of_mem accepted
        exact .inl (nothing before fd (now ++ [e]) (by simp) nonneg e (by simp))
  · rintro ⟨nothing, last⟩ before fd now cut nonneg x member
    rcases List.eq_nil_or_concat' now with rfl | ⟨now, e', rfl⟩
    · cases member
    · have ends : h ++ [e] = (before ++ ⟨.accept, fd⟩ :: now) ++ [e'] := by simpa using cut
      obtain ⟨rfl, same⟩ := List.append_inj' ends rfl
      cases same
      rcases List.mem_append.mp member with inNow | isLast
      · exact nothing before fd now rfl nonneg x inNow
      · rw [List.mem_singleton.mp isLast]
        rcases last with read | empty
        · exact read
        · have held : fd ∈ descriptors (before ++ ⟨.accept, fd⟩ :: now) :=
            (mem_descriptors listener fd).mpr ⟨nonneg, by simp⟩
          rw [empty] at held
          cases held

theorem contained_iff_nothing {h : History} (listener : ∀ e ∈ h, ListenerCall e) :
    Contained h ↔ NothingHandedOver h := by
  induction h using List.reverseRecOn with
  | nil => exact ⟨fun _ => nothing_of_empty listener rfl, fun _ => List.Sublist.refl _⟩
  | append_singleton h e ih =>
      have listened : ∀ x ∈ h, ListenerCall x :=
        fun x member => listener x (List.mem_append_left _ member)
      rw [nothing_snoc listened, Contained, descriptors_snoc, handedOver_snoc]
      rcases handed_or_read e with read | ⟨fd, nonneg, rfl⟩ | ends
      · rw [read.tableAfter, read.handedAfter]
        exact ⟨fun contained => ⟨(ih listened).mp contained, .inl read⟩,
          fun nothing => (ih listened).mpr nothing.1⟩
      · have table : tableAfter (descriptors h) ⟨.accept, fd⟩ = descriptors h ++ [fd] := if_pos nonneg
        have handed : handedAfter (handedOver h) ⟨.accept, fd⟩ = some fd := if_pos nonneg
        rw [table, handed, Option.toList_some]
        constructor
        · intro contained
          have short := contained.length_le
          rw [List.length_append] at short
          have empty : descriptors h = [] := List.length_eq_zero_iff.mp (Nat.le_zero.mp
            (Nat.le_of_add_le_add_right short))
          exact ⟨nothing_of_empty listened empty, .inr empty⟩
        · rintro ⟨-, ⟨_, _, _, same⟩ | empty⟩
          · cases same
          · rw [empty]
            exact List.Sublist.refl _
      · rw [ends, Option.toList_none, List.sublist_nil]
        rcases (listener e (by simp)).tableAfter (descriptors h) with
          ⟨fd, nonneg, rfl, -⟩ | ⟨-, table⟩
        · have handed : handedAfter none ⟨.accept, fd⟩ = some fd := if_pos nonneg
          rw [ends] at handed
          cases handed
        · rw [table]
          constructor
          · exact fun empty => ⟨nothing_of_empty listened empty, .inr empty⟩
          · rintro ⟨-, read | empty⟩
            · obtain ⟨fd, len, r, rfl⟩ := read
              exact absurd (ends (some 0)) (by simp [handedAfter])
            · exact empty

/-! ## Runs -/

section Runs

variable {p : Platform} {xsb : Str → Option Str → QueryEnd → Prop} {policy : Str}
  {socketInit : Bool} {file : World} {s last : Pool Call Reply Mode World}
  {past : List (Pool Call Reply Mode World)}

theorem listener_of_reachable
    (reach : (server p xsb).Reachable (startListening policy socketInit) file s) :
    ∃ q, s.procs[0]? = some q ∧ q.inherited = [] ∧ ∀ e ∈ q.history, ListenerCall e := by
  obtain ⟨q, at_0, none, notForked⟩ := Reachable.first
    (P := fun q => q.inherited = [] ∧ (⟨.fork, .child⟩ : Event Call Reply) ∉ q.own)
    ⟨rfl, List.not_mem_nil⟩ (by
      rintro q c k r w w' ⟨none, notForked⟩ next allowed
      refine ⟨none, fun member => ?_⟩
      rcases List.mem_append.mp member with before | now
      · exact notForked before
      · cases List.mem_singleton.mp now
        exact allowed.1 rfl) (fun holds _ => holds) reach
  have history : q.history = q.own := by rw [Process.history, none, List.nil_append]
  have life := (life_of_runs (reach.runs q (List.mem_of_getElem? at_0))).1
  rw [history] at life
  refine ⟨q, at_0, none, ?_⟩
  rw [history]
  have forked : ∀ (o : Opening policy) (tail : History), q.own ≠ o.history ++ tail := by
    intro o tail same
    apply notForked
    simp [same, Opening.history, Opening.start]
  generalize own : q.own = h at life forked
  cases life with
  | listening only => exact only
  | checking o run => exact absurd rfl (forked o _)
  | @serving now rest c run =>
      refine absurd ?_ (forked c.toOpening (c.checks ++ (c.served ++ now)))
      simp only [Connection.history, List.append_assoc]

/-- At each point of the run the descriptors of the listener are those of the socket it
    listens on and of the connection it is handing over, if there is one. -/
def HoldsOnlyHanded (past : List (Pool Call Reply Mode World))
    (last : Pool Call Reply Mode World) : Prop :=
  ∀ s ∈ past ++ [last], ∀ q, s.procs[0]? = some q → Contained q.history

/-- At no point of the run has the listener handed a connection over. -/
def NeverHandsOver (past : List (Pool Call Reply Mode World))
    (last : Pool Call Reply Mode World) : Prop :=
  ∀ s ∈ past ++ [last], ∀ q, s.procs[0]? = some q → NothingHandedOver q.history

theorem Contained.released {h : History} {cid : Fork}
    (contained : Contained (h ++ [⟨.fork, cid⟩])) : descriptors (h ++ [⟨.fork, cid⟩]) = [] := by
  rw [Contained, handedOver_snoc] at contained
  exact List.sublist_nil.mp contained

theorem holdsOnlyHanded_iff
    (run : (server p xsb).Run (startListening policy socketInit) file past last) :
    HoldsOnlyHanded past last ↔ NeverHandsOver past last := by
  have each : ∀ s ∈ past ++ [last], ∀ q, s.procs[0]? = some q →
      (Contained q.history ↔ NothingHandedOver q.history) := by
    intro s member q at_0
    obtain ⟨q', found, -, listener⟩ := listener_of_reachable (run.through s member)
    rw [at_0, Option.some.injEq] at found
    subst found
    exact contained_iff_nothing listener
  constructor
  · exact fun holds s member q at_0 => (each s member q at_0).mp (holds s member q at_0)
  · exact fun never s member q at_0 => (each s member q at_0).mpr (never s member q at_0)

end Runs

/-! ## A listener with many clients -/

theorem descriptors_append (h now : History) :
    descriptors (h ++ now) = now.foldl tableAfter (descriptors h) := by
  simp only [descriptors, List.foldl_append]

/-- After any number of clients the listener still holds the socket of each. -/
theorem listener_holds_all (p : Platform) (xsb : Str → Option Str → QueryEnd → Prop) (policy : Str)
    (start : World) (n : Nat) :
    ∃ s, (server p xsb).Reachable (startListening policy true) start s ∧ AtHome p policy s ∧
      descriptors (callsOf 0 s.trace) = (List.range n).map (fun i : Nat => (i : Int) + 4) ∧
      handedOver (callsOf 0 s.trace) = none := by
  induction n with
  | zero => exact ⟨_, .init, atHome_init p xsb policy start, rfl, rfl⟩
  | succ n ih =>
      obtain ⟨s, reach, home, held, -⟩ := ih
      have inside : 0 < s.procs.length := by
        obtain ⟨q, -, at_0, -⟩ := home
        exact (List.getElem?_eq_some_iff.mp at_0).1
      obtain ⟨t, reach₁, -, -, waits, -, -, trace₁⟩ :=
        hand_over reach home (show (n : Int) + 4 ≠ 0 by omega)
          (show ([] : Str).length ≤ maxBuff from Nat.zero_le _)
      obtain ⟨u, reach₂, home₂, -, -, -, trace₂⟩ := listen_again reach₁ waits
      have mine : callsOf 0 u.trace = callsOf 0 s.trace ++
          [⟨.accept, (n : Int) + 4⟩, ⟨.read ((n : Int) + 4) maxBuff, some []⟩, ⟨.fork, .parent⟩,
            ⟨.elapsed, (0 : Nat)⟩] := by
        rw [trace₂, trace₁, callsOf_append, callsOf_append, List.append_assoc]
        simp [callsOf, Nat.pos_iff_ne_zero.mp inside]
      have opened : 0 ≤ (n : Int) + 4 := by omega
      refine ⟨u, reach₂, home₂, ?_, ?_⟩
      · rw [mine, descriptors_append, held, List.range_succ, List.map_append]
        simp [tableAfter, opened]
      · rw [mine, handedOver, List.foldl_append]
        rfl

/-- One client connects, its session is forked, and the listener keeps its socket. -/
theorem client_socket_kept :
    ∃ past last, (server villagePlatform fun _ _ _ => False).Run (startListening [] true) none past
      last ∧ ¬ HoldsOnlyHanded past last := by
  obtain ⟨s, reach, -, held, none⟩ :=
    listener_holds_all villagePlatform (fun _ _ _ => False) [] none 1
  obtain ⟨past, run⟩ := reach.run
  refine ⟨past, s, run, fun holds => ?_⟩
  obtain ⟨q, at_0, first, -⟩ := listener_of_reachable reach
  have history : q.history = callsOf 0 s.trace := by
    rw [Process.history, first, List.nil_append]
    exact reach.traced.own 0 q at_0
  have contained := holds s (by simp) q at_0
  rw [Contained, history, held, none] at contained
  exact absurd contained (by simp [List.range_succ])

theorem holdsOnlyHanded_iff_village :
    ∃ past last, (server villagePlatform fun _ _ _ => False).Run (startListening [] true) none past
      last ∧ (HoldsOnlyHanded past last ↔ NeverHandsOver past last) := by
  obtain ⟨s, reach, -⟩ := listener_holds_all villagePlatform (fun _ _ _ => False) [] none 1
  obtain ⟨past, run⟩ := reach.run
  exact ⟨past, s, run, holdsOnlyHanded_iff run⟩

end RepositoryManager
