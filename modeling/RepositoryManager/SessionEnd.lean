import RepositoryManager.Queries
import RepositoryManager.QueryThread

/-! # What ends a session

`processRequest` looks for `exit` in the whole of what it read. So a request whose
operation, resource or trailing bytes hold this word is not answered, and ends the
session.
-/

namespace RepositoryManager

open ByteString Interaction Interaction.Prog

/-- The exit command: the word alone, or in the frame in which a client sends what it asks, with
    any bytes behind it. -/
inductive IsExit : Str → Prop where
  | bare (g h : Gap) : IsExit (g.chars ++ finS ++ h.chars)
  | framed (g beforeWord beforeEnd : Gap) (after : Str) :
      IsExit (g.chars ++ beginClientRequestS ++ beforeWord.chars ++ finS ++ beforeEnd.chars ++
        endClientRequestS ++ after)

/-- The message is a request, laid out in some way and with any bytes behind it. -/
def IsRequest (msg : Str) : Prop := ∃ l r after, msg = RequestLayout.message l r after

/-- What a message in an open session should lead to: a request gets one reply and the
    session goes on, and only an empty message or the exit command ends it. -/
structure EndsOnlyByExit (im : TransportService) (reads : History) (msg : Str) (course : Course) :
    Prop where
  answered : IsRequest msg → ∀ query, generateQuery im.ss.credPtr msg = some query →
    AnsweredOnce im reads query course
  closing : ∀ h again im', Returns (processRequest im) (reads ++ h) (again, im') →
    im'.processingRequests = false → msg = [] ∨ IsExit msg

theorem isRequest_ne_nil {msg : Str} (isRequest : IsRequest msg) : msg ≠ [] := by
  obtain ⟨l, r, after, rfl⟩ := isRequest
  exact l.message_ne_nil r after

theorem message_packed (l : RequestLayout) (r : Request) (after : Str) :
    ∃ rest, packed (l.message r after) =
      packed beginClientRequestS ++ (packed "request".toList ++ rest) := by
  unfold RequestLayout.message RequestLayout.front RequestLayout.body
  simp only [packed_append, Gap.packed, List.append_assoc, List.nil_append]
  exact ⟨_, rfl⟩

/-- A request is not the exit command: the bare word has no parenthesis, and in the frame its
    first character is another. -/
theorem isRequest_not_exit {msg : Str} (isRequest : IsRequest msg) : ¬ IsExit msg := by
  obtain ⟨l, r, after, rfl⟩ := isRequest
  intro isExit
  generalize whole : l.message r after = msg at isExit
  cases isExit with
  | bare g h =>
      have notExit : '(' ∉ finS := by decide
      have notIn : '(' ∉ g.chars ++ finS ++ h.chars := by
        simp only [List.mem_append, Gap.not_mem (show isSpace '(' = false by decide), notExit,
          or_self, not_false_eq_true]
      rw [← whole] at notIn
      exact notIn (l.open_mem r after)
  | framed g beforeWord beforeEnd after' =>
      obtain ⟨rest, same⟩ := message_packed l r after
      rw [whole] at same
      simp only [packed_append, Gap.packed, List.append_assoc, List.nil_append,
        List.append_cancel_left_eq] at same
      exact absurd (congrArg List.head? same) (by simp [packed, finS, isSpace])

theorem isRequest_query {msg query : Str} (isRequest : IsRequest msg) {c : Credential}
    (generated : generateQuery (some c) msg = some query) : query ≠ [] := by
  obtain ⟨l, r, after, rfl⟩ := isRequest
  rcases generateQuery_eq c (l.message_ne_nil r after) with ⟨-, noArgs⟩ | made
  · rw [argumentText_message] at noArgs
    simp at noArgs
  · cases generated.symm.trans made
    exact List.append_ne_nil_of_right_ne_nil _ (by decide +kernel)

section Received

variable {im : TransportService} {reads : History} {msg : Str}
  (received : Returns (receive im.clientSocketId endClientRequestS []) reads msg)

include received

theorem goesOn_iff {h : History} {again : Bool} {im' : TransportService}
    (run : Returns (processRequest im) (reads ++ h) (again, im')) :
    Open im msg ↔ again = true ∧ im'.processingRequests = true := by
  rw [returns_received received] at run
  by_cases isOpen : Open im msg
  · rw [handleRequest_open isOpen] at run
    obtain ⟨_, _, _, -, -, last⟩ := returns_bind.mp run
    cases (returns_ret.mp last).2
    exact iff_of_true isOpen ⟨rfl, isOpen.processing⟩
  · obtain ⟨im'', cleared, closes⟩ := handleRequest_closed isOpen
    rw [closes] at run
    obtain ⟨_, _, -, last⟩ := returns_call.mp run
    cases (returns_ret.mp last).2
    exact iff_of_false isOpen fun both => Bool.noConfusion both.1

theorem closing_of_closed (closed : ¬ Open im msg) :
    ∃ h im', Returns (processRequest im) (reads ++ h) (false, im') ∧
      im'.processingRequests = false := by
  obtain ⟨im', cleared, closes⟩ := handleRequest_closed closed
  refine ⟨[⟨.close im.clientSocketId, ()⟩], im', ?_, cleared⟩
  rw [returns_received received, closes]
  exact .call (.refl _)

end Received

/-- A message in an open session gets its due exactly if `exit` stands in it only as the exit
    command, and no signal finds the thread of its query running. -/
theorem endsOnlyByExit_iff {p : Platform} {policy : Str} (session : Session p policy) {reads : History}
    {msg : Str} (received : Returns (receive session.im.clientSocketId endClientRequestS []) reads msg)
    (authenticated : session.im.processingRequests = true) {course : Course}
    (complete : course.Complete) :
    EndsOnlyByExit session.im reads msg course ↔
      (msg = [] ∨ IsExit msg ∨ ¬ finS <:+: msg) ∧ (IsRequest msg → course.Harmless) := by
  have isOpen_iff : Open session.im msg ↔ msg ≠ [] ∧ ¬ finS <:+: msg := by
    rw [← find_eq_none_iff]
    exact ⟨fun isOpen => ⟨isOpen.nonempty, isOpen.goesOn⟩,
      fun both => ⟨authenticated, both.2, both.1⟩⟩
  have generates : IsRequest msg → ∃ query, query ≠ [] ∧
      generateQuery session.im.ss.credPtr msg = some query := by
    intro isRequest
    rw [session.credPtr]
    rcases generateQuery_eq session.credential (isRequest_ne_nil isRequest) with ⟨none, -⟩ | made
    · exact absurd rfl (isRequest_query isRequest none)
    · exact ⟨_, isRequest_query isRequest made, made⟩
  constructor
  · intro ends
    have served : IsRequest msg → Open session.im msg ∧ course.Harmless := by
      intro isRequest
      obtain ⟨query, isQuery, generated⟩ := generates isRequest
      have once := ends.answered isRequest query generated
      have isOpen : Open session.im msg := by
        obtain ⟨b, -, runs⟩ := once
        exact (goesOn_iff received (runs none 1)).mpr ⟨rfl, authenticated⟩
      exact ⟨isOpen, ((answered_iff_harmless received isOpen generated complete).mp once).resolve_left
        isQuery⟩
    refine ⟨?_, fun isRequest => (served isRequest).2⟩
    by_contra other
    simp only [not_or, not_not] at other
    obtain ⟨nonempty, notExit, holds⟩ := other
    have closed : ¬ Open session.im msg := fun isOpen => (isOpen_iff.mp isOpen).2 holds
    obtain ⟨h, im', run, cleared⟩ := closing_of_closed received closed
    exact (ends.closing h false im' run cleared).elim nonempty notExit
  · rintro ⟨ends, harmless⟩
    constructor
    · intro isRequest query generated
      have nonempty := isRequest_ne_nil isRequest
      have clean := (ends.resolve_left nonempty).resolve_left (isRequest_not_exit isRequest)
      exact (answered_iff_harmless received (isOpen_iff.mpr ⟨nonempty, clean⟩) generated complete).mpr
        (.inr (harmless isRequest))
    · intro h again im' run cleared
      have closed : ¬ Open session.im msg := by
        intro isOpen
        rw [((goesOn_iff received run).mp isOpen).2] at cleared
        cases cleared
      rcases ends with empty | isExit | clean
      · exact .inl empty
      · exact .inr isExit
      · exact .inl (by_contra fun nonempty => closed (isOpen_iff.mpr ⟨nonempty, clean⟩))

def fileMsg : Str := linesLayout.message viewFile ['\n']

theorem endsOnlyByExit_iff_alice :
    EndsOnlyByExit (userSession alice_known 4).im (oneRead 4 fileMsg) fileMsg inTime ↔
      (fileMsg = [] ∨ IsExit fileMsg ∨ ¬ finS <:+: fileMsg) ∧
        (IsRequest fileMsg → inTime.Harmless) :=
  endsOnlyByExit_iff (userSession alice_known 4)
    (receive_oneRead 4 (by decide +kernel) (by decide +kernel)) rfl (.inr ⟨false, by decide⟩)

/-- A file whose name begins with the word. -/
def exitsMsg : Str :=
  linesLayout.message { viewFile with text := .of "exits", someText := by decide } ['\n']

/-- The request for this file is not answered, although its query would be. -/
theorem exit_in_resource : inTime.Harmless ∧ ¬ EndsOnlyByExit (userSession alice_known 4).im
    (oneRead 4 exitsMsg) exitsMsg inTime := by
  have received : Returns (receive 4 endClientRequestS []) (oneRead 4 exitsMsg) exitsMsg :=
    receive_oneRead 4 (by decide +kernel) (by decide +kernel)
  have inTimeComplete : inTime.Complete := .inr ⟨false, by decide⟩
  refine ⟨(Threads.alive_iff inTimeComplete).mp (by decide), fun ends => ?_⟩
  have closed : ¬ Open (userSession alice_known 4).im exitsMsg := by
    intro isOpen
    have holds : (find finS exitsMsg).isSome := by decide +kernel
    rw [isOpen.goesOn] at holds
    cases holds
  obtain ⟨h, im', run, cleared⟩ := closing_of_closed received closed
  have isRequest : IsRequest exitsMsg := ⟨_, _, _, rfl⟩
  rcases ends.closing h false im' run cleared with empty | isExit
  · exact isRequest_ne_nil isRequest empty
  · exact isRequest_not_exit isRequest isExit

end RepositoryManager
