import RepositoryManager.Schedules

/-! # Segmentation of the stream

TCP does not keep the boundaries of messages. The first message is taken to be what one
`read` returns; the loops that read the others stop at the first `read` that brings the
END line, and drop nothing of it, so whatever follows that line is taken for a part of
the message.
-/

namespace RepositoryManager

open ByteString Interaction Interaction.Prog

/-! ## Streams and their segments -/

def endCredentialS : Str := "-----END MPKI CREDENTIAL-----".toList

/-- A message as the protocol has it: it ends with its END line. -/
structure Message (mark : Str) where
  text : Str
  ends : ∃ body newline, text = body ++ mark ++ newline ∧ (newline = [] ∨ newline = ['\n'])
  short : text.length < maxBuff - maxRead

/-- What a client sends on a connection. -/
structure Stream where
  credential : Message endCredentialS
  response : Message endResponseS
  requests : List (Message endClientRequestS)

def Stream.requestTexts (s : Stream) : List Str := s.requests.map Message.text

def Stream.text (s : Stream) : Str :=
  s.credential.text ++ (s.response.text ++ s.requestTexts.flatten)

/-- The results of the `read` calls that get this stream. -/
structure Segments (s : Stream) where
  first : Str
  rest : List Str
  nonempty : ∀ c ∈ first :: rest, c ≠ []
  fits : first.length ≤ maxBuff ∧ ∀ c ∈ rest, c.length ≤ maxRead
  whole : first ++ rest.flatten = s.text

/-- The calls of `read` in a reading loop. -/
def readsOf (fd : Int) (chunks : List Str) : History := chunks.map fun c => ⟨.read fd maxRead, some c⟩

/-- The session goes on after this request. -/
def GoesOn (request : Str) : Prop := find finS request = none ∧ request ≠ []

/-- The requests that a session reads, one with each call of `processRequest`, until the
    chunks are used up or a request ends the session. -/
inductive Requests (fd : Int) : List Str → List Str → Prop where
  | none : Requests fd [] []
  | last {group rest request} (received :
      Returns (receive fd endClientRequestS []) (readsOf fd group) request)
      (ends : ¬ GoesOn request) : Requests fd (group ++ rest) [request]
  | next {group rest request more} (received :
      Returns (receive fd endClientRequestS []) (readsOf fd group) request)
      (goesOn : GoesOn request) (later : Requests fd rest more) :
      Requests fd (group ++ rest) (request :: more)

/-- The server reads its messages as the client has sent them. -/
structure Extracted (fd : Int) {s : Stream} (seg : Segments s) : Prop where
  credential : cstr seg.first = s.credential.text
  session : ∃ group rest, seg.rest = group ++ rest ∧
    Returns (receive fd endResponseS []) (readsOf fd group) s.response.text ∧
    Requests fd rest s.requestTexts

/-- The chunks of one message, of which the last is the first to bring the END line. -/
structure Group (mark text : Str) (chunks : List Str) : Prop where
  whole : chunks.flatten = text
  notBefore : ∀ front back, chunks = front ++ back → back ≠ [] → ¬ mark <:+: front.flatten

/-- No chunk goes over the end of a message, the first chunk is the credential, each END
    line comes with the last chunk of its message, and only the last request ends the
    session. Nor is there a NUL. -/
structure Aligned {s : Stream} (seg : Segments s) : Prop where
  clean : nul ∉ s.text
  credential : seg.first = s.credential.text
  groups : ∃ group groups, seg.rest = group ++ groups.flatten ∧
    Group endResponseS s.response.text group ∧
    List.Forall₂ (fun chunks text => Group endClientRequestS text chunks) groups s.requestTexts
  onlyLast : ∀ request ∈ s.requestTexts.dropLast, find finS request = none

/-! ## One message -/

theorem Message.mark_infix {mark : Str} (m : Message mark) : mark <:+: m.text := by
  obtain ⟨body, newline, same, -⟩ := m.ends
  exact ⟨body, newline, same.symm⟩

theorem flatten_eq_nil {chunks : List Str} (nonempty : ∀ c ∈ chunks, c ≠ [])
    (empty : chunks.flatten = []) : chunks = [] := by
  cases chunks with
  | nil => rfl
  | cons c chunks => exact absurd (List.flatten_eq_nil_iff.mp empty c (by simp)) (nonempty c (by simp))

theorem bytesOf_readsOf (fd : Int) (chunks : List Str) :
    bytesOf (readsOf fd chunks) = chunks.flatten := by
  induction chunks with
  | nil => rfl
  | cons c chunks ih =>
      simp only [readsOf, List.map_cons, bytesOf, List.flatten_cons]
      exact congrArg (c ++ ·) ih

theorem receive_notBefore {fd : Int} {mark buf text : Str} {chunks : List Str}
    (received : Returns (receive fd mark buf) (readsOf fd chunks) text) :
    ∀ front back, chunks = front ++ back → front ≠ [] → back ≠ [] →
      ¬ mark <:+: cstr (buf ++ front.flatten) := by
  induction chunks generalizing buf with
  | nil =>
      intro front back same someFront
      exact absurd (List.append_eq_nil_iff.mp same.symm).1 someFront
  | cons c chunks ih =>
      rw [receive] at received
      obtain ⟨r, h, same, after⟩ := returns_call.mp received
      obtain ⟨isRead, rfl⟩ := List.cons.inj same
      cases isRead
      dsimp only at after
      intro front back cut someFront someBack
      obtain ⟨first, front, rfl⟩ := List.exists_cons_of_ne_nil someFront
      obtain ⟨rfl, rfl⟩ := List.cons.inj cut
      split at after
      · rename_i more
        cases front with
        | nil =>
            rw [List.flatten_cons, List.flatten_nil, List.append_nil]
            intro found
            exact more.2.1 ((find_isSome_iff _ _).mpr found)
        | cons d front =>
            have later := ih after (d :: front) back rfl (List.cons_ne_nil d front) someBack
            rw [List.flatten_cons, ← List.append_assoc]
            exact later
      · obtain ⟨none, -⟩ := returns_ret.mp after
        have used := List.map_eq_nil_iff.mp none
        exact absurd (List.append_eq_nil_iff.mp used).2 someBack

theorem receive_group {fd : Int} {mark buf : Str} {chunks : List Str} (someChunk : chunks ≠ [])
    (nonempty : ∀ c ∈ chunks, c ≠ []) (clean : nul ∉ buf ++ chunks.flatten)
    (short : (buf ++ chunks.flatten).length < maxBuff - maxRead)
    (complete : mark <:+: buf ++ chunks.flatten)
    (notBefore : ∀ front back, chunks = front ++ back → front ≠ [] → back ≠ [] →
      ¬ mark <:+: buf ++ front.flatten) :
    Returns (receive fd mark buf) (readsOf fd chunks) (buf ++ chunks.flatten) := by
  induction chunks generalizing buf with
  | nil => exact absurd rfl someChunk
  | cons c chunks ih =>
      rw [receive]
      refine .call ?_
      dsimp only
      cases chunks with
      | nil =>
          simp only [List.flatten_cons, List.flatten_nil, List.append_nil] at complete clean ⊢
          rw [cstr_of_clean clean]
          have found := (find_isSome_iff _ _).mpr complete
          rw [if_neg (fun more => more.2.1 found)]
          exact .refl _
      | cons d chunks =>
          rw [List.flatten_cons, ← List.append_assoc] at clean short complete ⊢
          have cleanFront : nul ∉ buf ++ c := fun member => clean (List.mem_append_left _ member)
          have notYet := notBefore [c] (d :: chunks) rfl (List.cons_ne_nil c [])
            (List.cons_ne_nil d chunks)
          rw [List.flatten_cons, List.flatten_nil, List.append_nil] at notYet
          have room : buf.length + c.length + maxRead < maxBuff := by
            simp only [List.length_append] at short
            simp only [maxBuff, maxRead] at short ⊢
            omega
          rw [cstr_of_clean cleanFront, if_pos ⟨nonempty c (by simp), fun found =>
            notYet ((find_isSome_iff _ _).mp found), room⟩]
          apply ih (List.cons_ne_nil d chunks)
            (fun x member => nonempty x (List.mem_cons_of_mem c member)) clean short complete
          intro front back cut someFront someBack
          have before := notBefore (c :: front) back (by rw [cut]; rfl) (List.cons_ne_nil c front)
            someBack
          rw [List.flatten_cons, ← List.append_assoc] at before
          exact before

theorem endClientRequestS_ne_nil : endClientRequestS ≠ [] := by decide +kernel

theorem endResponseS_ne_nil : endResponseS ≠ [] := by decide +kernel

theorem not_infix_nil {mark : Str} (some : mark ≠ []) : ¬ mark <:+: [] :=
  fun none => some (List.infix_nil.mp none)

theorem group_of_receive {fd : Int} {mark text : Str} {chunks : List Str} (some : mark ≠ [])
    (received : Returns (receive fd mark []) (readsOf fd chunks) text)
    (clean : nul ∉ chunks.flatten) : Group mark text chunks := by
  have same := returns_receive received
  rw [bytesOf_readsOf, List.nil_append, cstr_of_clean clean] at same
  refine ⟨same.symm, fun front back cut someBack => ?_⟩
  by_cases none : front = []
  · rw [none]
    exact not_infix_nil some
  · have notBefore := receive_notBefore received front back cut none someBack
    have cleanFront : nul ∉ front.flatten := by
      intro member
      apply clean
      rw [cut, List.flatten_append]
      exact List.mem_append_left _ member
    rw [List.nil_append, cstr_of_clean cleanFront] at notBefore
    exact notBefore

theorem Message.text_ne_nil {mark : Str} (m : Message mark) (some : mark ≠ []) : m.text ≠ [] := by
  intro none
  have infix_ := m.mark_infix
  rw [none] at infix_
  exact not_infix_nil some infix_

theorem receive_of_group (fd : Int) {mark : Str} (m : Message mark) (some : mark ≠ [])
    {chunks : List Str} (group : Group mark m.text chunks) (nonempty : ∀ c ∈ chunks, c ≠ [])
    (clean : nul ∉ m.text) : Returns (receive fd mark []) (readsOf fd chunks) m.text := by
  have whole := group.whole
  rw [← whole] at clean ⊢
  refine receive_group ?_ nonempty clean (whole ▸ m.short) (whole ▸ m.mark_infix)
    fun front back cut _ someBack => group.notBefore front back cut someBack
  rintro rfl
  exact m.text_ne_nil some whole.symm

/-! ## All requests -/

theorem clean_front {group rest texts : List Str} (clean : nul ∉ texts.flatten)
    (whole : (group ++ rest).flatten = texts.flatten) : nul ∉ group.flatten := by
  intro member
  apply clean
  rw [← whole, List.flatten_append]
  exact List.mem_append_left _ member

theorem groups_of_requests {fd : Int} {chunks texts : List Str} (read : Requests fd chunks texts)
    (nonempty : ∀ c ∈ chunks, c ≠ []) (clean : nul ∉ texts.flatten)
    (whole : chunks.flatten = texts.flatten) :
    ∃ groups, chunks = groups.flatten ∧
      List.Forall₂ (fun chunks text => Group endClientRequestS text chunks) groups texts ∧
      ∀ request ∈ texts.dropLast, find finS request = none := by
  induction read with
  | none => exact ⟨[], rfl, .nil, by simp⟩
  | @last group rest request received ends =>
      have isGroup := group_of_receive endClientRequestS_ne_nil received (clean_front clean whole)
      rw [List.flatten_append, isGroup.whole, List.flatten_singleton] at whole
      have restEmpty : rest = [] := flatten_eq_nil
        (fun c member => nonempty c (List.mem_append_right _ member))
        (List.append_right_eq_self.mp whole)
      exact ⟨[group], by simp [restEmpty], .cons isGroup .nil, by simp⟩
  | @next group rest request more received goesOn later ih =>
      have isGroup := group_of_receive endClientRequestS_ne_nil received (clean_front clean whole)
      rw [List.flatten_append, isGroup.whole, List.flatten_cons] at whole
      rw [List.flatten_cons, List.mem_append, not_or] at clean
      obtain ⟨groups, rfl, each, onlyLast⟩ := ih
        (fun c member => nonempty c (List.mem_append_right _ member)) clean.2
        (List.append_cancel_left whole)
      refine ⟨group :: groups, rfl, .cons isGroup each, ?_⟩
      cases more with
      | nil => simp
      | cons r more =>
          intro x member
          rcases List.mem_cons.mp member with rfl | inMore
          · exact goesOn.1
          · exact onlyLast x inMore

theorem requests_of_groups (fd : Int) (messages : List (Message endClientRequestS))
    {groups : List (List Str)}
    (each : List.Forall₂ (fun chunks text => Group endClientRequestS text chunks) groups
      (messages.map Message.text))
    (nonempty : ∀ c ∈ groups.flatten, c ≠ []) (clean : nul ∉ (messages.map Message.text).flatten)
    (onlyLast : ∀ request ∈ (messages.map Message.text).dropLast, find finS request = none) :
    Requests fd groups.flatten (messages.map Message.text) := by
  induction messages generalizing groups with
  | nil =>
      cases each
      exact .none
  | cons m messages ih =>
      cases each with
      | @cons group _ groups _ isGroup later =>
          rw [List.map_cons, List.flatten_cons, List.mem_append, not_or] at clean
          rw [List.flatten_cons] at nonempty ⊢
          have received := receive_of_group fd m endClientRequestS_ne_nil isGroup
            (fun c member => nonempty c (List.mem_append_left _ member)) clean.1
          cases messages with
          | nil =>
              cases later
              by_cases goesOn : GoesOn m.text
              · exact .next received goesOn .none
              · exact .last received goesOn
          | cons m' messages =>
              refine .next received
                ⟨onlyLast m.text (by simp), m.text_ne_nil endClientRequestS_ne_nil⟩ ?_
              apply ih later (fun c member => nonempty c (List.mem_append_right _ member)) clean.2
              intro request member
              exact onlyLast request (List.mem_cons_of_mem _ member)

theorem requests_clean {fd : Int} {chunks texts : List Str} (read : Requests fd chunks texts) :
    nul ∉ texts.flatten := by
  induction read with
  | none => simp
  | last received =>
      rw [returns_receive received, List.flatten_singleton]
      exact nul_not_mem_cstr _
  | next received _ _ ih =>
      rw [returns_receive received, List.flatten_cons, List.mem_append, not_or]
      exact ⟨nul_not_mem_cstr _, ih⟩

/-! ## The stream -/

theorem aligned_of_extracted {fd : Int} {s : Stream} {seg : Segments s} (read : Extracted fd seg) :
    Aligned seg := by
  obtain ⟨group, rest, cut, response, requests⟩ := read.session
  have cleanCredential : nul ∉ s.credential.text := read.credential ▸ nul_not_mem_cstr _
  have cleanResponse : nul ∉ s.response.text := by
    rw [returns_receive response]
    exact nul_not_mem_cstr _
  have clean : nul ∉ s.text := by
    simp only [Stream.text, List.mem_append, not_or]
    exact ⟨cleanCredential, cleanResponse, requests_clean requests⟩
  have cleanFirst : nul ∉ seg.first := by
    intro member
    exact clean (seg.whole ▸ List.mem_append_left _ member)
  have first : seg.first = s.credential.text := by
    rw [← read.credential, cstr_of_clean cleanFirst]
  have whole := seg.whole
  rw [Stream.text, first, cut, List.flatten_append] at whole
  have later := List.append_cancel_left whole
  have cleanGroup : nul ∉ group.flatten := by
    intro member
    have inLater := List.mem_append_left rest.flatten member
    rw [later] at inLater
    exact clean (List.mem_append_right _ inLater)
  have isGroup := group_of_receive endResponseS_ne_nil response cleanGroup
  rw [isGroup.whole] at later
  have nonempty : ∀ c ∈ rest, c ≠ [] := by
    intro c member
    apply seg.nonempty c
    rw [cut]
    exact List.mem_cons_of_mem _ (List.mem_append_right _ member)
  obtain ⟨groups, rfl, each, onlyLast⟩ := groups_of_requests requests nonempty
    (requests_clean requests) (List.append_cancel_left later)
  exact ⟨clean, first, ⟨group, groups, cut, isGroup, each⟩, onlyLast⟩

theorem extracted_of_aligned (fd : Int) {s : Stream} {seg : Segments s} (aligned : Aligned seg) :
    Extracted fd seg := by
  obtain ⟨clean, first, ⟨group, groups, cut, isGroup, each⟩, onlyLast⟩ := aligned
  simp only [Stream.text, List.mem_append, not_or] at clean
  have nonempty : ∀ c ∈ group ++ groups.flatten, c ≠ [] := by
    intro c member
    exact seg.nonempty c (List.mem_cons_of_mem _ (cut ▸ member))
  refine ⟨by rw [first, cstr_of_clean clean.1], group, groups.flatten, cut, ?_, ?_⟩
  · exact receive_of_group fd s.response endResponseS_ne_nil isGroup
      (fun c member => nonempty c (List.mem_append_left _ member)) clean.2.1
  · exact requests_of_groups fd s.requests each
      (fun c member => nonempty c (List.mem_append_right _ member)) clean.2.2 onlyLast

/-- Which segmentations the server reads as the messages that were sent. -/
theorem extracted_iff_aligned (fd : Int) {s : Stream} (seg : Segments s) :
    Extracted fd seg ↔ Aligned seg :=
  ⟨aligned_of_extracted, extracted_of_aligned fd⟩

/-! ## Two requests at once -/

theorem readRequest_ends : ∃ body newline,
    readRequest = body ++ endClientRequestS ++ newline ∧ (newline = [] ∨ newline = ['\n']) := by
  unfold readRequest
  exact ⟨_, [], (List.append_nil _).symm, .inl rfl⟩

/-- Alice's credential, some response, and her request sent twice. -/
def aliceStream : Stream where
  credential :=
    { text := userMsg alice
      ends := ⟨(userMsg alice).take 400, ['\n'], by decide +kernel, .inr rfl⟩
      short := by decide +kernel }
  response := { text := endResponseS, ends := ⟨[], [], by simp, .inl rfl⟩, short := by decide +kernel }
  requests :=
    let request : Message endClientRequestS :=
      { text := readRequest
        ends := readRequest_ends
        short := by decide +kernel }
    [request, request]

/-- The two requests come with one read. -/
def oneSegment : Segments aliceStream where
  first := userMsg alice
  rest := [endResponseS, readRequest ++ readRequest]
  nonempty := by
    intro c member
    simp only [List.mem_cons, List.not_mem_nil, or_false] at member
    rcases member with rfl | rfl | rfl
    · exact alice_known.nonempty
    · exact endResponseS_ne_nil
    · decide +kernel
  fits := by
    refine ⟨by decide +kernel, fun c member => ?_⟩
    simp only [List.mem_cons, List.not_mem_nil, or_false] at member
    rcases member with rfl | rfl
    · decide +kernel
    · decide +kernel
  whole := by simp [Stream.text, Stream.requestTexts, aliceStream]

theorem two_requests_merged : ¬ Extracted 4 oneSegment := by
  intro read
  obtain ⟨-, -, ⟨group, groups, cut, isGroup, each⟩, -⟩ := aligned_of_extracted read
  have request : readRequest ≠ [] := List.append_ne_nil_of_right_ne_nil _ endClientRequestS_ne_nil
  have someChunk : ∀ {mark text : Str} {chunks : List Str}, text ≠ [] → Group mark text chunks →
      0 < chunks.length := by
    intro mark text chunks some isGroup
    apply List.length_pos_iff.mpr
    rintro rfl
    exact some isGroup.whole.symm
  cases each with
  | cons first later =>
      cases later with
      | cons second none =>
          cases none
          have lengths := congrArg List.length cut
          have chunks : oneSegment.rest.length = 2 := rfl
          have ofResponse := someChunk endResponseS_ne_nil isGroup
          have ofFirst := someChunk request first
          have ofSecond := someChunk request second
          simp only [chunks, List.flatten_cons, List.flatten_nil, List.length_append,
            List.append_nil] at lengths
          omega

end RepositoryManager
