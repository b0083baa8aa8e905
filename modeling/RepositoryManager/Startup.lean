import RepositoryManager.Server

/-! # Starting the server

`RepositoryManager.cpp` and the constructor of `TransportService.h`: the arguments, the policy
file, and the socket. The constructor reports a policy that cannot be read and goes on without
one, and the indicator of the socket is set only where the socket could be bound.
-/

namespace RepositoryManager

open ByteString Interaction Interaction.Prog ProcessPool

/-- What `main` finds. -/
structure Launch where
  args : List Str
  /-- What a file holds, if it can be opened. -/
  files : Str → Option Str
  socketId : Int
  bindErr : Int
  listenErr : Int
  /-- What is in `socketInit` before it is set. -/
  leftOver : Bool

/-- Reads the server policy into a buffer. The policy is the text up to the first NUL. -/
def readPolicy (files : Str → Option Str) (policyFileName : Str) : Option Str :=
  if policyFileName ≠ [] then
    match files policyFileName with
    | some text =>
        let len := toInt text.length
        if len > 0 then some (cstr (text.take len.toNat)) else none
    | none => none
  else none

namespace Launch

variable (launch : Launch)

/-- The policy of the service, which is empty when it cannot be read. -/
def policy : Str := (readPolicy launch.files (launch.args.getD 2 [])).getD []

def socketInit : Bool :=
  if launch.socketId > 0 then
    if launch.bindErr = 0 then decide (launch.listenErr = 0) else launch.leftOver
  else launch.leftOver

/-- The times of certificates are validated with exactly three arguments. -/
def platform (p : Platform) : Platform :=
  { p with validateCertTime := decide (launch.args.length = 4) }

/-- `main`, up to the loops. -/
def main : Mode :=
  if launch.args.length < 3 then .exited else startListening launch.policy launch.socketInit

/-- There are enough arguments, and `socketInit` is set. -/
def Opens : Prop := 3 ≤ launch.args.length ∧ launch.socketInit = true

end Launch

variable {launch : Launch}

theorem Launch.main_eq (enough : 3 ≤ launch.args.length) :
    launch.main = startListening launch.policy launch.socketInit :=
  if_neg (Nat.not_lt.mpr enough)

theorem Launch.closed {p : Platform} {xsb : Str → Option Str → QueryEnd → Prop} {file : World}
    {s : Pool Call Reply Mode World} (reach : (server p xsb).Reachable launch.main file s)
    (closed : ¬ launch.Opens) :
    ∀ proc ∈ s.procs, ∀ e ∈ proc.history, e = ⟨.removeBinder, ()⟩ := by
  -- no pass begins with a socket that listens
  let Stopped : History → Mode → Prop := fun past m =>
    (∀ e ∈ past, e = ⟨.removeBinder, ()⟩) ∧
      (m = .exited ∨ ∃ im, m = .listening im ∧ im.socketListening = false)
  have pass : ∀ {past now : History} {m : Mode} {rest : Server Mode}, Stopped past m →
      Steps (serve p m) now rest →
      (∀ e ∈ past ++ now, e = ⟨.removeBinder, ()⟩) ∧
        ∀ m', rest = .ret m' → Stopped (past ++ now) m' := by
    rintro past now _ rest ⟨before, rfl | ⟨im, rfl, stopped⟩⟩ run
    · obtain ⟨rfl, rfl⟩ := steps_ret.mp run
      rw [List.append_nil]
      refine ⟨before, ?_⟩
      rintro m' same
      cases same
      exact ⟨before, .inl rfl⟩
    · have ends : serve p (.listening im) = .call .removeBinder fun _ => .ret .exited := by
        simp only [serve, stopped, Bool.false_eq_true, if_false]
        rfl
      rw [ends] at run
      rcases steps_call.mp run with ⟨rfl, rfl⟩ | ⟨_, _, rfl, done⟩
      · rw [List.append_nil]
        refine ⟨before, ?_⟩
        rintro m' same
        cases same
      · obtain ⟨rfl, rfl⟩ := steps_ret.mp done
        have all : ∀ e ∈ past ++ [(⟨.removeBinder, ()⟩ : Event Call Reply)],
            e = ⟨.removeBinder, ()⟩ :=
          List.forall_mem_append.mpr ⟨before, List.forall_mem_singleton.mpr rfl⟩
        refine ⟨all, ?_⟩
        rintro m' same
        cases same
        exact ⟨all, .inl rfl⟩
  have first : Stopped [] launch.main := by
    refine ⟨List.forall_mem_nil _, ?_⟩
    unfold Launch.main
    split
    · exact .inl rfl
    · next enough =>
        have notInit : launch.socketInit = false :=
          Bool.eq_false_iff.mpr fun init => closed ⟨Nat.not_lt.mp enough, init⟩
        refine .inr ⟨_, rfl, ?_⟩
        rw [notInit]
        rfl
  intro proc member e inside
  obtain ⟨past, now, m, cut, stage, steps⟩ := (reach.runs proc member).invariant first
    fun stage run => (pass stage run).2 _ rfl
  rw [cut] at inside
  exact (pass stage steps).1 e inside

end RepositoryManager
