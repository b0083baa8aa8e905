import RepositoryManager.Lib.ShellWords
import RepositoryManager.Grammar
import RepositoryManager.Schedules

/-! # From the request to the shell

A request is cut at commas and parentheses, pasted into a goal for XSB, and the goal is
pasted between the double quotes of a shell command. Nothing on the way looks at the
other characters. The command runs that goal and nothing else exactly when the
characters that are kept are harmless.
-/

namespace RepositoryManager

open ByteString Interaction Interaction.Prog ProcessPool

/-! ## What should come out -/

/-- What an argument of a query may hold: white space and characters of `TEXT`. -/
def isArgChar (c : Char) : Bool := isSpace c || Grammar.isTextChar c

/-- `allow(D,a1,...,an).` -/
def allowQuery (keyDigest : Str) (args : List Str) : Str :=
  "allow(".toList ++ keyDigest ++ ",".toList ++ [','].intercalate args ++ ").".toList

/-- The command and its options, up to `-e`. -/
def xsbOptions : List Str :=
  ["xsb", "--quietload", "--nobanner", "--noprompt", "-e"].map String.toList

/-- What XSB is given after `-e` to answer a query. -/
def xsbGoal (query : Str) : Str := "[rlf_tmp]. ".toList ++ query ++ " halt.".toList

/-- The command for a query is read by the shell as one call of XSB with this query, and
    the query is about the permission of one key. -/
structure Uninjected (keyDigest query cmd : Str) : Prop where
  goal : ∃ args, (∀ a ∈ args, ∀ c ∈ a, isArgChar c = true) ∧ query = allowQuery keyDigest args
  command : ShellWords.words cmd = some (xsbOptions ++ [xsbGoal query])

/-- The part of a request in which `generateQuery` looks for arguments: what stands
    between the first `(` and the end mark. -/
def argumentText (request : Str) : Str :=
  match find endClientRequestS request, findFirstOf "request".toList request with
  | some idx, some pos =>
      let msg := substrBetween request pos (some idx)
      msg.drop (afterFind (findFirstOf ['('] msg))
  | _, _ => []

/-- Each character before a comma or a closing parenthesis is an argument's, or a comma
    or parenthesis itself. -/
def Harmless (text : Str) : Prop :=
  ∀ before c after, text = before ++ c :: after → (',' ∈ after ∨ ')' ∈ after) →
    isArgChar c = true ∨ c = ',' ∨ c = '(' ∨ c = ')'

/-! ## What the scan keeps -/

theorem forall_cut_cons {Q : Char → Str → Prop} {d : Char} {s : Str} :
    (∀ before c after, d :: s = before ++ c :: after → Q c after) ↔
      Q d s ∧ ∀ before c after, s = before ++ c :: after → Q c after := by
  constructor
  · intro all
    exact ⟨all [] d s rfl, fun before c after cut => all (d :: before) c after (by rw [cut]; rfl)⟩
  · rintro ⟨here, later⟩ before c after cut
    cases before with
    | nil =>
        cases cut
        exact here
    | cons e before =>
        cases cut
        exact later before c after rfl

theorem scanArgs_chars {P : Char → Prop} (comma : P ',') (s tmp : Str) (args : List Str) :
    (∀ a ∈ scanArgs s tmp args, ∀ c ∈ a, P c) ↔
      (∀ a ∈ args, ∀ c ∈ a, P c) ∧ ((',' ∈ s ∨ ')' ∈ s) → ∀ c ∈ tmp, P c) ∧
      ∀ before c after, s = before ++ c :: after → (',' ∈ after ∨ ')' ∈ after) →
        P c ∨ c = '(' ∨ c = ')' := by
  induction s generalizing tmp args with
  | nil => simp [scanArgs]
  | cons d s ih =>
      rw [@forall_cut_cons fun c after => (',' ∈ after ∨ ')' ∈ after) → P c ∨ c = '(' ∨ c = ')']
      by_cases closes : (d = ',' ∧ tmp ≠ []) ∨ d = ')'
      · have here : P d ∨ d = '(' ∨ d = ')' := by
          rcases closes with ⟨rfl, -⟩ | rfl
          · exact .inl comma
          · exact .inr (.inr rfl)
        have closed : ',' ∈ d :: s ∨ ')' ∈ d :: s := by
          rcases closes with ⟨rfl, -⟩ | rfl <;> simp
        rw [scanArgs, if_pos closes, ih]
        simp only [List.mem_append, List.mem_singleton, closed, here, forall_const, implies_true,
          true_and, List.not_mem_nil, false_imp_iff]
        constructor
        · rintro ⟨kept, later⟩
          exact ⟨fun a member => kept a (.inl member), kept tmp (.inr rfl), later⟩
        · rintro ⟨old, new, later⟩
          refine ⟨fun a member => ?_, later⟩
          rcases member with inOld | rfl
          · exact old a inOld
          · exact new
      · by_cases opens : d = '('
        · have notKept : ¬ (d ≠ '(' ∧ d ≠ ')') := fun both => both.1 opens
          rw [scanArgs, if_neg closes, if_neg notKept, ih]
          subst opens
          simp
        · have notClosing : d ≠ ')' := fun same => closes (.inr same)
          rw [scanArgs, if_neg closes, if_pos ⟨opens, notClosing⟩, ih]
          by_cases isComma : d = ','
          · -- a comma with no argument before it is kept
            have none : tmp = [] := by
              by_contra some
              exact closes (.inl ⟨isComma, some⟩)
            subst isComma none
            simp [comma]
          · simp only [List.mem_append, List.mem_cons, List.not_mem_nil, Ne.symm isComma,
              Ne.symm notClosing, false_or, opens, notClosing, or_false]
            constructor
            · rintro ⟨old, kept, later⟩
              exact ⟨old, fun behind c member => kept behind c (.inl member),
                fun behind => kept behind d (.inr rfl), later⟩
            · rintro ⟨old, kept, here, later⟩
              refine ⟨old, fun behind c member => ?_, later⟩
              rcases member with inTmp | rfl
              · exact kept behind c inTmp
              · exact here behind

theorem harmless_scanned (text : Str) :
    Harmless text ↔ ∀ before c after, text ++ [nul] = before ++ c :: after →
      (',' ∈ after ∨ ')' ∈ after) → (isArgChar c = true ∨ c = ',') ∨ c = '(' ∨ c = ')' := by
  constructor
  · intro harmless before c after cut closes
    rcases List.eq_nil_or_concat after with rfl | ⟨after, e, rfl⟩
    · simp at closes
    · rw [List.concat_eq_append] at cut closes
      have split : text ++ [nul] = (before ++ c :: after) ++ [e] := by simpa using cut
      obtain ⟨inside, same⟩ := List.append_inj' split rfl
      cases same
      have notNul : ¬ (',' = nul ∨ ')' = nul) := by decide
      have closes : ',' ∈ after ∨ ')' ∈ after := by
        simpa [not_or.mp notNul] using closes
      exact or_assoc.mpr (harmless before c after inside closes)
  · intro all before c after cut closes
    refine or_assoc.mp (all before c (after ++ [nul]) (by rw [cut]; simp) ?_)
    exact closes.imp (List.mem_append_left _) (List.mem_append_left _)

/-! ## Arguments between commas -/

theorem exists_args {text : Str} (chars : ∀ c ∈ text, isArgChar c = true ∨ c = ',') :
    ∃ a args, (∀ b ∈ a :: args, ∀ c ∈ b, isArgChar c = true) ∧
      [','].intercalate (a :: args) = text := by
  induction text with
  | nil => exact ⟨[], [], by simp, rfl⟩
  | cons d text ih =>
      obtain ⟨a, args, ok, rfl⟩ := ih fun c member => chars c (List.mem_cons_of_mem _ member)
      rcases chars d List.mem_cons_self with argChar | rfl
      · refine ⟨d :: a, args, ?_, ?_⟩
        · intro b member c inside
          rcases List.mem_cons.mp member with rfl | later
          · rcases List.mem_cons.mp inside with rfl | inA
            · exact argChar
            · exact ok a List.mem_cons_self c inA
          · exact ok b (List.mem_cons_of_mem _ later) c inside
        · exact List.intercalate_cons_cons_left
      · refine ⟨[], a :: args, ?_, ?_⟩
        · intro b member c inside
          rcases List.mem_cons.mp member with rfl | later
          · cases inside
          · exact ok b later c inside
        · rw [List.intercalate_cons_cons]
          rfl

theorem allowQuery_iff (keyDigest : Str) (args : List Str) :
    (∃ args', (∀ a ∈ args', ∀ c ∈ a, isArgChar c = true) ∧
      allowQuery keyDigest args = allowQuery keyDigest args') ↔
      ∀ a ∈ args, ∀ c ∈ a, isArgChar c = true ∨ c = ',' := by
  constructor
  · rintro ⟨args', ok, same⟩ a member c inside
    have same : [','].intercalate args = [','].intercalate args' :=
      List.append_cancel_left (List.append_cancel_right same)
    have kept := mem_intercalate_of_mem [','] member inside
    rw [same] at kept
    rcases mem_of_mem_intercalate kept with comma | ⟨a', member', inside'⟩
    · exact .inr (List.mem_singleton.mp comma)
    · exact .inl (ok a' member' c inside')
  · intro chars
    have text : ∀ c ∈ [','].intercalate args, isArgChar c = true ∨ c = ',' := by
      intro c member
      rcases mem_of_mem_intercalate member with comma | ⟨a, inArgs, inside⟩
      · exact .inr (List.mem_singleton.mp comma)
      · exact chars a inArgs c inside
    obtain ⟨a, args', ok, same⟩ := exists_args text
    exact ⟨a :: args', ok, congrArg (_ ++ · ++ _) same.symm⟩

/-! ## The command -/

theorem isArgChar_inert {c : Char} (argChar : isArgChar c = true) : ShellWords.isActive c = false := by
  cases active : ShellWords.isActive c with
  | false => rfl
  | true =>
      simp only [ShellWords.isActive, Bool.or_eq_true, decide_eq_true_eq] at active
      rcases active with ((rfl | rfl) | rfl) | rfl
      all_goals cases argChar

theorem isArgChar_of_digest {c : Char}
    (digest : c ∈ "rsa_".toList ∨ c ∈ "0123456789abcdef".toList) : isArgChar c = true := by
  have mark : ∀ d ∈ "rsa_".toList, isArgChar d = true := forall_mem_of_all (by decide)
  have hex : ∀ d ∈ "0123456789abcdef".toList, isArgChar d = true :=
    forall_mem_of_all (by decide +kernel)
  exact digest.elim (mark c) (hex c)

theorem allowQuery_chars (o : OpenSSL) (pKey : Str) {args : List Str}
    (ok : ∀ a ∈ args, ∀ c ∈ a, isArgChar c = true) :
    ∀ c ∈ allowQuery (getKeyDigest o pKey) args,
      isArgChar c = true ∨ c ∈ ['(', ',', ')', '.'] := by
  have inFixed : ∀ c ∈ "allow(,).".toList, isArgChar c = true ∨ c ∈ ['(', ',', ')', '.'] :=
    forall_mem_of_all (by decide +kernel)
  intro c member
  rcases List.mem_append.mp member with rest | closes
  · rcases List.mem_append.mp rest with rest | inArgs
    · rcases List.mem_append.mp rest with rest | comma
      · rcases List.mem_append.mp rest with name | digest
        · exact inFixed c (List.IsPrefix.subset (by decide +kernel) name)
        · exact .inl (isArgChar_of_digest (getKeyDigest_chars o pKey c digest))
      · exact inFixed c (List.IsInfix.subset (by decide +kernel) comma)
    · rcases mem_of_mem_intercalate inArgs with isComma | ⟨a, inList, inside⟩
      · rw [List.mem_singleton.mp isComma]
        exact .inr (by decide)
      · exact .inl (ok a inList c inside)
  · exact inFixed c (List.IsSuffix.subset (by decide +kernel) closes)

theorem queryCommand_eq (query : Str) :
    queryCommand query = ShellWords.command xsbOptions (xsbGoal query) := by
  have options : "xsb --quietload --nobanner --noprompt -e ".toList =
      xsbOptions.flatMap (· ++ [' ']) := by decide +kernel
  have opens : "\"[".toList ++ tmpFileS ++ "]. ".toList =
      ShellWords.doubleQuote :: "[rlf_tmp]. ".toList := by decide +kernel
  have closes : " halt.\"".toList = " halt.".toList ++ [ShellWords.doubleQuote] := by decide +kernel
  have joined : ∀ {before after loads halts : Str}, before = ShellWords.doubleQuote :: loads →
      after = halts ++ [ShellWords.doubleQuote] → before ++ query ++ after =
        ShellWords.doubleQuote :: ((loads ++ query ++ halts) ++ [ShellWords.doubleQuote]) := by
    rintro _ _ _ _ rfl rfl
    simp
  rw [ShellWords.command, ← options]
  exact congrArg (_ ++ ·) (joined opens closes)

theorem words_queryCommand {query : Str}
    (chars : ∀ c ∈ query, isArgChar c = true ∨ c ∈ ['(', ',', ')', '.']) :
    ShellWords.words (cstr (queryCommand query)) = some (xsbOptions ++ [xsbGoal query]) := by
  have inQuery : ∀ c ∈ query, ShellWords.isActive c = false ∧ c ≠ nul := by
    intro c member
    rcases chars c member with argChar | other
    · refine ⟨isArgChar_inert argChar, ?_⟩
      rintro rfl
      cases argChar
    · have fixed : ∀ d ∈ ['(', ',', ')', '.'], ShellWords.isActive d = false ∧ d ≠ nul :=
        forall_mem_of_all (by decide)
      exact fixed c other
  have loading : ∀ c ∈ "[rlf_tmp]. ".toList, ShellWords.isActive c = false ∧ c ≠ nul :=
    forall_mem_of_all (by decide +kernel)
  have halting : ∀ c ∈ " halt.".toList, ShellWords.isActive c = false ∧ c ≠ nul :=
    forall_mem_of_all (by decide +kernel)
  have inGoal : ∀ c ∈ xsbGoal query, ShellWords.isActive c = false ∧ c ≠ nul := by
    intro c member
    rcases List.mem_append.mp member with rest | halts
    · rcases List.mem_append.mp rest with loads | inside
      · exact loading c loads
      · exact inQuery c inside
    · exact halting c halts
  have tested : (xsbOptions.all fun u => u ≠ [] ∧ u.all ShellWords.isPlain = true) = true := by
    decide +kernel
  have options : ∀ u ∈ xsbOptions, u ≠ [] ∧ ∀ c ∈ u, ShellWords.isPlain c = true := by
    intro u member
    obtain ⟨nonempty, plain⟩ := of_decide_eq_true (List.all_eq_true.mp tested u member)
    exact ⟨nonempty, List.all_eq_true.mp plain⟩
  have inOptions : nul ∉ xsbOptions.flatMap (· ++ [' ']) := by decide +kernel
  have clean : nul ∉ queryCommand query := by
    rw [queryCommand_eq, ShellWords.command]
    intro member
    rcases List.mem_append.mp member with before | quoted
    · exact inOptions before
    · have notQuote : nul ≠ ShellWords.doubleQuote := by decide
      simp only [List.mem_cons, notQuote, List.mem_append, List.not_mem_nil, or_false,
        false_or] at quoted
      exact (inGoal nul quoted).2 rfl
  rw [cstr_of_clean clean, queryCommand_eq]
  exact ShellWords.words_command options fun c member => (inGoal c member).1

/-! ## Requests of an open session -/

theorem generateQuery_eq (cred : Credential) {request : Str} (nonempty : request ≠ []) :
    (generateQuery (some cred) request = some [] ∧ argumentText request = []) ∨
    generateQuery (some cred) request = some (allowQuery cred.keyDigest
      (scanArgs (argumentText request ++ [nul]) [] [])) := by
  unfold generateQuery argumentText
  rw [if_pos nonempty]
  cases find endClientRequestS request with
  | none => exact .inl ⟨rfl, rfl⟩
  | some idx =>
      cases findFirstOf "request".toList request with
      | none => exact .inl ⟨rfl, rfl⟩
      | some pos => exact .inr rfl

/-- The query is about the permission of the client exactly for harmless requests. -/
theorem goal_iff (cred : Credential) {request query : Str} (nonempty : request ≠ [])
    (generated : generateQuery (some cred) request = some query) (isQuery : query ≠ []) :
    (∃ args, (∀ a ∈ args, ∀ c ∈ a, isArgChar c = true) ∧ query = allowQuery cred.keyDigest args) ↔
      Harmless (argumentText request) := by
  rcases generateQuery_eq cred nonempty with ⟨empty, -⟩ | made
  · cases generated.symm.trans empty
    exact absurd rfl isQuery
  · cases generated.symm.trans made
    rw [allowQuery_iff, @scanArgs_chars (fun c => isArgChar c = true ∨ c = ',') (.inr rfl),
      harmless_scanned]
    simp

theorem popen_of_handleRequest {im : TransportService} {request query : Str}
    (isOpen : Open im request) (generated : generateQuery im.ss.credPtr request = some query) :
    (handleRequest im request).Only fun e => ∀ cmd reply, e = ⟨.popen cmd, reply⟩ →
      query ≠ [] ∧ cmd = cstr (queryCommand query) := by
  rw [handleRequest_open isOpen, answerRequest, generated]
  refine Only.bind (Only.mono ?_ (answerQuery_only im query)) fun _ => trivial
  rintro _ answers cmd reply rfl
  exact answers

theorem handleRequest_asks {im : TransportService} {request query : Str} (isOpen : Open im request)
    (generated : generateQuery im.ss.credPtr request = some query) (isQuery : query ≠ []) :
    ∃ rest, Steps (handleRequest im request)
      [⟨.popen (cstr (queryCommand query)), (none, .noThread)⟩] rest := by
  have executes : Steps (executeQuery query)
      [⟨.popen (cstr (queryCommand query)), (none, .noThread)⟩] (.ret false) := by
    rw [executeQuery, if_neg isQuery]
    exact .call (.refl _)
  rw [handleRequest_open isOpen, answerRequest, generated]
  dsimp only
  rw [answerQuery_eq _ isQuery]
  exact ⟨_, (executes.bind _).bind _⟩

/-- The commands that are run for a request of a session ask XSB for the query of this
    client, and nothing else. -/
def NoInjection {p : Platform} {policy : Str} (session : Session p policy) (reads : History)
    (request : Str) : Prop :=
  ∀ now rest cmd reply, Steps (processRequest session.im) (reads ++ now) rest →
    ⟨.popen cmd, reply⟩ ∈ now → ∃ query,
      generateQuery (some session.credential) request = some query ∧
      Uninjected (getKeyDigest p.openssl session.admission.credential.pubKey) query cmd

/-- No injection. Whatever the client of an open session sends, the commands that are run
    for it are what they should be exactly when its request is harmless. -/
theorem noInjection_iff {p : Platform} {policy : Str} (session : Session p policy)
    {reads : History} {request : Str}
    (received : Returns (receive session.im.clientSocketId endClientRequestS []) reads request)
    (isOpen : Open session.im request) :
    NoInjection session reads request ↔ Harmless (argumentText request) := by
  have digest : session.credential.keyDigest =
      getKeyDigest p.openssl session.admission.credential.pubKey :=
    session.admission.credential_policy.2.1
  have handles : Steps (processRequest session.im) reads (handleRequest session.im request) :=
    received.bind _
  have generates : ∃ query, generateQuery (some session.credential) request = some query := by
    rcases generateQuery_eq session.credential isOpen.nonempty with ⟨empty, -⟩ | made
    · exact ⟨_, empty⟩
    · exact ⟨_, made⟩
  obtain ⟨query, generated⟩ := generates
  have generatedIn : generateQuery session.im.ss.credPtr request = some query := by
    rw [session.credPtr, generated]
  rw [NoInjection, generated]
  constructor
  · intro uninjected
    by_cases isQuery : query = []
    · rcases generateQuery_eq session.credential isOpen.nonempty with ⟨-, none⟩ | made
      · rw [none]
        intro before c after cut
        simp at cut
      · cases generated.symm.trans made
        exact absurd isQuery (List.append_ne_nil_of_right_ne_nil _ (by decide +kernel))
    · obtain ⟨rest, asks⟩ := handleRequest_asks isOpen generatedIn isQuery
      obtain ⟨_, same, clean⟩ := uninjected _ _ _ _ (handles.trans asks) List.mem_cons_self
      cases same
      exact (goal_iff session.credential isOpen.nonempty generated isQuery).mp (digest ▸ clean.goal)
  · intro harmless now rest cmd reply run member
    obtain ⟨isQuery, rfl⟩ := (handles.resume run).only
      (popen_of_handleRequest isOpen generatedIn) _ member cmd reply rfl
    have goal := (goal_iff session.credential isOpen.nonempty generated isQuery).mpr harmless
    rw [digest] at goal
    obtain ⟨args, ok, rfl⟩ := goal
    exact ⟨_, rfl, ⟨args, ok, rfl⟩, words_queryCommand (allowQuery_chars _ _ ok)⟩

theorem noInjection_iff_alice :
    NoInjection (userSession alice_known 4) (oneRead 4 readRequest) readRequest := by
  have text : argumentText readRequest = "read,file)".toList := by decide +kernel
  have chars : ∀ c ∈ "read,file)".toList,
      isArgChar c = true ∨ c = ',' ∨ c = '(' ∨ c = ')' := forall_mem_of_all (by decide +kernel)
  refine (noInjection_iff (userSession alice_known 4)
    (receive_oneRead 4 (by decide +kernel) (by decide +kernel))
    ⟨rfl, by decide +kernel, by decide +kernel⟩).mpr ?_
  rw [text]
  exact fun before c after cut _ => chars c (by rw [cut]; simp)

/-- A request with a command between backquotes. -/
def rebootRequest : Str := "request(read,`reboot`)".toList ++ endClientRequestS

def rebootQuery : Str := "allow(".toList ++ userDigest alice ++ ",read,`reboot`).".toList

/-- The shell runs the command while it reads the query. -/
theorem reboot_injected : ¬ ∀ (session : Session villagePlatform []) (reads : History)
    (request : Str),
    Returns (receive session.im.clientSocketId endClientRequestS []) reads request →
      Open session.im request → NoInjection session reads request := by
  intro always
  have received : Returns (receive 4 endClientRequestS []) (oneRead 4 rebootRequest) rebootRequest :=
    receive_oneRead 4 (by decide +kernel) (by decide +kernel)
  have isOpen : Open (userSession alice_known 4).im rebootRequest :=
    ⟨rfl, by decide +kernel, by decide +kernel⟩
  have generated : generateQuery (some (userChecked alice)) rebootRequest = some rebootQuery := by
    decide +kernel
  have isQuery : rebootQuery ≠ [] := List.append_ne_nil_of_right_ne_nil _ (by decide +kernel)
  obtain ⟨rest, asks⟩ := handleRequest_asks isOpen generated isQuery
  obtain ⟨query, same, clean⟩ := always (userSession alice_known 4) _ _ received isOpen _ _ _ _
    (received.bind _ |>.trans asks) List.mem_cons_self
  cases generated.symm.trans same
  obtain ⟨args, ok, isAllow⟩ := clean.goal
  have member : ShellWords.backquote ∈ rebootQuery := by decide +kernel
  rw [isAllow] at member
  have outside : ¬ (isArgChar ShellWords.backquote = true ∨
      ShellWords.backquote ∈ ['(', ',', ')', '.']) := by decide
  exact outside (allowQuery_chars _ _ ok _ member)

end RepositoryManager
