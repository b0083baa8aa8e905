import RepositoryManager.Schedules

/-! # The challenges of different sessions

A challenge is drawn in the child, from the copy of the generator that it was forked
with. The listening process never draws, so this copy is always the generator as
`srand` left it: every session takes the same segment of the stream.
-/

namespace RepositoryManager

open ByteString Interaction Interaction.Prog ProcessPool

variable {p : Platform} {xsb : Str → Option Str → QueryEnd → Prop} {policy : Str}
  {socketInit : Bool} {file : World} {s : Pool Call Reply Mode World}

/-- The session of process `i` has drawn a challenge, from position `draws` of the stream. -/
def Drew (s : Pool Call Reply Mode World) (i draws : Nat) : Prop :=
  ∃ challenge, (i, (⟨.note (.challenged draws challenge), ()⟩ : Event Call Reply)) ∈ s.trace

/-- The position `k` of the stream was taken by a challenge drawn from `draws` on. -/
def InSegment (draws k : Nat) : Prop := draws ≤ k ∧ k < draws + maxChallengeBuf

/-- No two sessions have drawn from overlapping segments. -/
def FreshDraws (s : Pool Call Reply Mode World) : Prop :=
  ∀ i j draws draws', i ≠ j → Drew s i draws → Drew s j draws' →
    ∀ k, ¬ (InSegment draws k ∧ InSegment draws' k)

/-- Every challenge of every run is the first one of the generator. -/
theorem first_draw (reach : (server p xsb).Reachable (startListening policy socketInit) file s)
    {i draws : Nat} {challenge : Str}
    (made : (i, (⟨.note (.challenged draws challenge), ()⟩ : Event Call Reply)) ∈ s.trace) :
    draws = 0 ∧ challenge = (generateChallenge p.prng.rand 0).1 := by
  obtain ⟨proc, -, own, life⟩ := event_of_trace reach made
  rcases life.event _ (List.mem_append_right _ own) with listens | removal | forked | checks | serves
  · exact listens.elim
  · cases removal
  · cases forked
  · obtain ⟨fd, first⟩ := checks
    exact first
  · obtain ⟨fd, never⟩ := serves
    exact never.elim

/-- Challenges are fresh exactly while no two sessions have drawn one. -/
theorem freshDraws_iff (reach : (server p xsb).Reachable (startListening policy socketInit) file s) :
    FreshDraws s ↔ ∀ i j draws draws', Drew s i draws → Drew s j draws' → i = j := by
  constructor
  · intro fresh i j draws draws' first second
    by_contra different
    have start : draws = 0 := (first_draw reach first.choose_spec).1
    have start' : draws' = 0 := (first_draw reach second.choose_spec).1
    have positive : 0 < maxChallengeBuf := by decide
    exact fresh i j draws draws' different first second 0
      ⟨⟨by omega, by omega⟩, ⟨by omega, by omega⟩⟩
  · intro single i j draws draws' different first second
    exact absurd (single i j draws draws' first second) different

theorem admission_drew {im : TransportService} (a : Admission p im) :
    (⟨.note (.challenged im.draws a.challenge), ()⟩ : Event Call Reply) ∈ a.history := by
  simp [Admission.history]

theorem both_drew {t : Pool Call Reply Mode World}
    (trace : t.trace = openingTrace 1 (userAdmission alice_known 4) ++
      openingTrace 2 (userAdmission bob_known 5)) : Drew t 1 0 ∧ Drew t 2 0 := by
  have opened : ∀ {fd first} (i : Nat) (a : Admission villagePlatform (childImage [] fd first)),
      (i, (⟨.note (.challenged 0 a.challenge), ()⟩ : Event Call Reply)) ∈ openingTrace i a :=
    fun i a => List.mem_append_right _ (List.mem_map_of_mem (admission_drew a))
  rw [Drew, Drew, trace]
  exact ⟨⟨_, List.mem_append_left _ (opened 1 _)⟩, ⟨_, List.mem_append_right _ (opened 2 _)⟩⟩

theorem freshDraws_iff_village : ∃ t : Pool Call Reply Mode World, Drew t 1 0 ∧ Drew t 2 0 ∧
    (FreshDraws t ↔ ∀ i j draws draws', Drew t i draws → Drew t j draws' → i = j) := by
  obtain ⟨t, reach, -, -, trace⟩ := alice_then_bob fun _ _ _ => True
  exact ⟨t, (both_drew trace).1, (both_drew trace).2, freshDraws_iff reach⟩

/-- Alice and bob are served by the same run, and get the same challenge. -/
theorem alice_and_bob_share_draws : ¬ ∀ t : Pool Call Reply Mode World,
    (server villagePlatform fun _ _ _ => True).Reachable (startListening [] true) none t →
      FreshDraws t := by
  intro always
  obtain ⟨t, reach, -, -, trace⟩ := alice_then_bob fun _ _ _ => True
  obtain ⟨alice_drew, bob_drew⟩ := both_drew trace
  exact always t reach 1 2 0 0 (by decide) alice_drew bob_drew 0 ⟨⟨by decide, by decide⟩,
    ⟨by decide, by decide⟩⟩

end RepositoryManager
