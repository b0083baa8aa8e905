import RepositoryManager.Injection
import RepositoryManager.Verification

/-! # Queries

What `generateQuery` makes of a message: of any bytes a text or nothing, without a
read or a cut outside the message although its counters wrap, and of a request laid
out in any way the query about this request.
-/

namespace RepositoryManager

open ByteString

theorem verifyCredential_credPtr {o : OpenSSL} {clib : CLib} {validate : Bool} {clock : Nat → Int}
    {before ss : SecurityService} {c : Credential} {retVal : Bool}
    (verified : verifyCredential o clib validate clock before (some c) = some (retVal, ss)) :
    ∃ c', ss.credPtr = some c' ∧ c'.keyDigest = getKeyDigest o c.pubKey := by
  simp only [verifyCredential, Option.bind_eq_bind, Option.bind_eq_some_iff, Option.pure_def,
    Option.some.injEq] at verified
  obtain ⟨_, -, same⟩ := verified
  cases same
  exact ⟨_, rfl, rfl⟩

/-! ## Positions that wrap -/

namespace Checked

/-- `string::npos` -/
def npos : Nat := 18446744073709551615

/-- `pos + 1` in `size_t` -/
def succ (pos : Nat) : Nat := (pos + 1) % 18446744073709551616

/-- `idx - pos` in `size_t` -/
def sub (idx pos : Nat) : Nat := (idx + 18446744073709551616 - pos) % 18446744073709551616

/-- `msg[pos]`, which is NUL at the end of the text. -/
def charAt (msg : Str) (pos : Nat) : Option Char :=
  if pos < msg.length then msg[pos]? else if pos = msg.length then some nul else none

/-- The loop of `generateQuery`, over positions; `none` for a read outside the text, or
    when the passes run out. -/
def scanArgs (msg : Str) : Nat → Nat → Str → List Str → Option (List Str)
  | 0, _, _, _ => none
  | passes + 1, pos, tmp, args =>
      if pos ≠ msg.length ∧ succ pos ≠ npos then do
        let c ← charAt msg (succ pos)
        if (c = ',' ∧ tmp ≠ []) ∨ c = ')' then scanArgs msg passes (succ pos) [] (args ++ [tmp])
        else if c ≠ '(' ∧ c ≠ ')' then scanArgs msg passes (succ pos) (tmp ++ [c]) args
        else scanArgs msg passes (succ pos) tmp args
      else some args

/-- `generateQuery` over positions. -/
def generateQuery (passes : Nat) (credPtr : Option Credential) (msg : Str) : Option Str :=
  if msg ≠ [] then
    match find endClientRequestS msg, findFirstOf "request".toList msg with
    | some idx, some pos => do
        let msg ← substr msg pos (sub idx pos)
        let pos := (findFirstOf ['('] msg).getD npos
        let args ← scanArgs msg passes pos [] []
        let credPtr ← credPtr
        return allowQuery credPtr.keyDigest args
    | _, _ => some []
  else some []

theorem scanArgs_drop {msg : Str} (short : msg.length < npos) {passes pos : Nat} (tmp : Str)
    (args : List Str) (notEnd : pos ≠ msg.length) (inside : succ pos ≤ msg.length)
    (enough : msg.length - succ pos + 2 ≤ passes) :
    scanArgs msg passes pos tmp args =
      some (RepositoryManager.scanArgs (msg.drop (succ pos) ++ [nul]) tmp args) := by
  induction passes generalizing pos tmp args with
  | zero => omega
  | succ passes ih =>
      have notNpos : succ pos ≠ npos := by omega
      rw [scanArgs, if_pos ⟨notEnd, notNpos⟩]
      rcases Nat.lt_or_ge (succ pos) msg.length with before | atEnd
      · have next : succ (succ pos) = succ pos + 1 := by
          rw [succ, Nat.mod_eq_of_lt]
          simp only [npos] at short
          omega
        have rest : ∀ tmp args, scanArgs msg passes (succ pos) tmp args =
            some (RepositoryManager.scanArgs (msg.drop (succ pos + 1) ++ [nul]) tmp args) := by
          intro tmp args
          rw [ih tmp args (by omega) (by omega) (by omega), next]
        rw [charAt, if_pos before, List.getElem?_eq_getElem before, Option.bind_eq_bind,
          Option.bind_some, List.drop_eq_getElem_cons before, List.cons_append,
          RepositoryManager.scanArgs]
        simp only [rest]
        split
        · rfl
        · split <;> rfl
      · have last : succ pos = msg.length := by omega
        have stops : ∀ tmp args, scanArgs msg passes msg.length tmp args = some args := by
          intro tmp args
          obtain ⟨more, rfl⟩ : ∃ more, passes = more + 1 := ⟨passes - 1, by omega⟩
          simp [scanArgs]
        have notComma : nul ≠ ',' := by decide
        have notClosing : nul ≠ ')' := by decide
        rw [last, charAt, if_neg (Nat.lt_irrefl _), if_pos rfl, List.drop_length]
        simp [stops, RepositoryManager.scanArgs, notComma, notClosing]

theorem sub_eq {idx pos : Nat} (idxFits : idx ≤ npos) (posFits : pos ≤ npos) :
    sub idx pos = if pos ≤ idx then idx - pos else idx + 18446744073709551616 - pos := by
  simp only [npos] at idxFits posFits
  rw [sub]
  split <;> omega

/-- A cut with a wrapped length reaches to the end of the text. -/
theorem substr_sub {msg : Str} {idx pos : Nat} (short : msg.length < npos)
    (idxInside : idx ≤ msg.length) (posInside : pos ≤ msg.length) :
    substr msg pos (sub idx pos) = some (substrBetween msg pos (some idx)) := by
  rw [substr_inside posInside, sub_eq (by omega) (by omega), substrBetween]
  split
  · rfl
  · simp only [npos] at short
    rw [List.take_of_length_le]
    simp only [List.length_drop]
    omega

theorem substrBetween_length_le (s : Str) (pos : Nat) (idx : Option Nat) :
    (substrBetween s pos idx).length ≤ s.length := by
  cases idx with
  | none => simp [substrBetween]
  | some i =>
      rw [substrBetween]
      split
      · simp only [List.length_take, List.length_drop]
        omega
      · simp

theorem scanArgs_scanned {msg : Str} (short : msg.length < npos) {passes : Nat}
    (enough : msg.length + 2 ≤ passes) :
    scanArgs msg passes ((findFirstOf ['('] msg).getD npos) [] [] =
      some (RepositoryManager.scanArgs (scanned msg) [] []) := by
  have begins : ∀ pos, succ pos = afterFind (findFirstOf ['('] msg) → pos ≠ msg.length →
      succ pos ≤ msg.length → scanArgs msg passes pos [] [] =
        some (RepositoryManager.scanArgs (scanned msg) [] []) := by
    intro pos next notEnd inside
    rw [scanArgs_drop short [] [] notEnd inside (by omega), scanned, next]
  cases found : findFirstOf ['('] msg with
  | none =>
      have wraps : succ npos = 0 := by decide
      rw [found] at begins
      exact begins npos wraps (Nat.ne_of_gt short) (by omega)
  | some pos =>
      obtain ⟨before, c, after, rfl, rfl, -⟩ := findFirstOf_split found
      rw [found] at begins
      have inside : before.length + 1 ≤ (before ++ c :: after).length := by simp
      have next : succ before.length = before.length + 1 := by
        rw [succ, Nat.mod_eq_of_lt]
        simp only [npos] at short
        omega
      exact begins before.length next (by omega) (by omega)

/-- Over positions `generateQuery` reads and cuts inside the text only, ends after as many
    passes as there are characters, and gives the same query. -/
theorem generateQuery_eq {msg : Str} (short : msg.length < npos) (credPtr : Option Credential) :
    generateQuery (msg.length + 2) credPtr msg = RepositoryManager.generateQuery credPtr msg := by
  rw [generateQuery, RepositoryManager.generateQuery]
  split
  · cases mark : find endClientRequestS msg with
    | none => rfl
    | some idx =>
        cases letter : findFirstOf "request".toList msg with
        | none => rfl
        | some pos =>
            have idxInside : idx ≤ msg.length := Nat.le_of_add_right_le (find_end_le mark)
            have posInside : pos ≤ msg.length := by
              obtain ⟨before, c, after, rfl, rfl, -⟩ := findFirstOf_split letter
              simp
            have shorter := substrBetween_length_le msg pos (some idx)
            dsimp only
            rw [substr_sub short idxInside posInside]
            simp only [Option.bind_eq_bind, Option.bind_some]
            rw [scanArgs_scanned (Nat.lt_of_le_of_lt shorter short) (by omega)]
            rfl
  · rfl

end Checked

/-! ## Any message -/

theorem generateQuery_empty_iff {credPtr : Option Credential} {msg query : Str}
    (generated : generateQuery credPtr msg = some query) :
    query = [] ↔ msg = [] ∨ ¬ endClientRequestS <:+: msg ∨ ∀ c ∈ "request".toList, c ∉ msg := by
  unfold generateQuery at generated
  have letters : findFirstOf "request".toList msg = none ↔ ∀ c ∈ "request".toList, c ∉ msg := by
    rw [findFirstOf_eq_none_iff]
    exact ⟨fun clean c inSet inMsg => clean c inMsg inSet,
      fun clean c inMsg inSet => clean c inSet inMsg⟩
  by_cases empty : msg = []
  · simpa [empty, eq_comm] using generated
  · rw [if_pos empty] at generated
    cases mark : find endClientRequestS msg with
    | none =>
        rw [mark] at generated
        cases generated
        exact iff_of_true rfl (.inr (.inl ((find_eq_none_iff _ _).mp mark)))
    | some idx =>
        have hasMark : endClientRequestS <:+: msg := (find_isSome_iff _ _).mp (by simp [mark])
        rw [mark] at generated
        cases letter : findFirstOf "request".toList msg with
        | none =>
            rw [letter] at generated
            cases generated
            exact iff_of_true rfl (.inr (.inr (letters.mp letter)))
        | some pos =>
            have hasLetter : ¬ ∀ c ∈ "request".toList, c ∉ msg := by
              rw [← letters, letter]
              simp
            rw [letter] at generated
            simp only [Option.bind_eq_bind, Option.bind_eq_some_iff, Option.pure_def,
              Option.some.injEq] at generated
            obtain ⟨c, -, rfl⟩ := generated
            refine iff_of_false (List.append_ne_nil_of_right_ne_nil _ (by decide)) ?_
            exact not_or.mpr ⟨empty, not_or.mpr ⟨not_not.mpr hasMark, hasLetter⟩⟩

/-- For every message, with a verified credential, the method ends, and reads and cuts
    inside the message only; it gives the empty text or a goal `allow(D,...).`. -/
theorem generateQuery_total {o : OpenSSL} {clib : CLib} {validate : Bool} {clock : Nat → Int}
    {before ss : SecurityService} {c : Credential}
    (verified : verifyCredential o clib validate clock before (some c) = some (true, ss))
    {msg : Str} (short : msg.length < Checked.npos) :
    ∃ query, Checked.generateQuery (msg.length + 2) ss.credPtr msg = some query ∧
      (query = [] ↔ msg = [] ∨ ¬ endClientRequestS <:+: msg ∨ ∀ c ∈ "request".toList, c ∉ msg) ∧
      (query ≠ [] → ∃ text, query = "allow(".toList ++ getKeyDigest o c.pubKey ++ ",".toList ++
        text ++ ").".toList) := by
  obtain ⟨c', holds, digest⟩ := verifyCredential_credPtr verified
  rw [Checked.generateQuery_eq short, holds]
  by_cases empty : msg = []
  · subst empty
    exact ⟨[], rfl, by simp, by simp⟩
  · rcases generateQuery_eq c' empty with ⟨none, -⟩ | made
    · exact ⟨[], none, generateQuery_empty_iff none, fun isQuery => absurd rfl isQuery⟩
    · refine ⟨_, made, generateQuery_empty_iff made, fun _ => ?_⟩
      rw [digest]
      exact ⟨_, rfl⟩

theorem generateQuery_total_alice :
    ∃ query, Checked.generateQuery (readRequest.length + 2) (some (userChecked alice)) readRequest =
        some query ∧
      (query = [] ↔ readRequest = [] ∨ ¬ endClientRequestS <:+: readRequest ∨
        ∀ c ∈ "request".toList, c ∉ readRequest) ∧
      (query ≠ [] → ∃ text, query = "allow(".toList ++ userDigest alice ++ ",".toList ++ text ++
        ").".toList) :=
  generateQuery_total alice_known.verified (by decide +kernel)

/-! ## Well-formed requests -/

/-- White space of any length. -/
structure Gap where
  chars : Str
  white : ∀ c ∈ chars, isSpace c = true

/-- `REQUEST_HEADER 'request' '(' op ',' text ')' REQUEST_END` -/
structure Request where
  op : Grammar.Text
  text : Grammar.Text
  someOp : op.chars ≠ []
  someText : text.chars ≠ []

/-- The white space in front of each token of a request. -/
structure RequestLayout where
  beforeHeader : Gap
  beforeRequest : Gap
  beforeOpen : Gap
  beforeOp : Gap
  beforeComma : Gap
  beforeText : Gap
  beforeClose : Gap
  beforeEnd : Gap

/-- What stands between the parentheses of a request. -/
def RequestLayout.argsText (l : RequestLayout) (r : Request) : Str :=
  l.beforeOp.chars ++ r.op.chars ++ l.beforeComma.chars ++ ',' ::
    (l.beforeText.chars ++ r.text.chars ++ l.beforeClose.chars)

/-- A request from its name on. -/
def RequestLayout.body (l : RequestLayout) (r : Request) : Str :=
  "request".toList ++ l.beforeOpen.chars ++ '(' ::
    (l.argsText r ++ ')' :: l.beforeEnd.chars)

/-- A request up to its end mark. -/
def RequestLayout.front (l : RequestLayout) (r : Request) : Str :=
  l.beforeHeader.chars ++ beginClientRequestS ++ l.beforeRequest.chars ++ l.body r

/-- A request with any bytes behind it. -/
def RequestLayout.message (l : RequestLayout) (r : Request) (after : Str) : Str :=
  l.front r ++ endClientRequestS ++ after

/-- A text without its white space. -/
def packed (s : Str) : Str := s.filter fun c => !isSpace c

@[simp] theorem packed_append (s t : Str) : packed (s ++ t) = packed s ++ packed t :=
  List.filter_append s t

theorem packed_of_solid {s : Str} (solid : ∀ c ∈ s, isSpace c = false) : packed s = s := by
  rw [packed, List.filter_eq_self]
  intro c member
  simp [solid c member]

@[simp] theorem Gap.packed (g : Gap) : packed g.chars = [] := by
  rw [RepositoryManager.packed, List.filter_eq_nil_iff]
  intro c member
  simp [g.white c member]

theorem Gap.not_mem {g : Gap} {c : Char} (solid : isSpace c = false) : c ∉ g.chars := by
  intro member
  rw [g.white c member] at solid
  cases solid

theorem Text.solid (t : Grammar.Text) : ∀ c ∈ t.chars, isSpace c = false := by
  intro c member
  have inClass := t.inClass c member
  cases space : isSpace c with
  | false => rfl
  | true =>
      have outside : ∀ d ∈ [' ', '\t', '\n', Char.ofNat 11, Char.ofNat 12, '\r'],
          Grammar.isTextChar d = false := forall_mem_of_all (by decide)
      rw [outside c (isSpace_mem space)] at inClass
      cases inClass

theorem no_gap_inside {x y z : Char} {g h w : Str} (xSolid : isSpace x = false)
    (space : isSpace y = true) (zSolid : isSpace z = false) (gWhite : ∀ c ∈ g, isSpace c = true)
    (word : ∀ c ∈ w, isSpace c = false) (hWhite : ∀ c ∈ h, isSpace c = true) :
    ¬ [x, y, z].Sublist (g ++ w ++ h) := by
  intro inside
  obtain ⟨front, last, cut, inFront, inLast⟩ := List.sublist_append_iff.mp inside
  obtain ⟨first, mid, rfl, inFirst, inMid⟩ := List.sublist_append_iff.mp inFront
  have firstNil : first = [] := by
    cases first with
    | nil => rfl
    | cons c first =>
        simp only [List.cons_append, List.cons.injEq] at cut
        rw [cut.1, gWhite c (inFirst.subset List.mem_cons_self)] at xSolid
        cases xSolid
  have lastNil : last = [] := by
    rcases List.eq_nil_or_concat last with rfl | ⟨last, c, rfl⟩
    · rfl
    · rw [List.concat_eq_append, ← List.append_assoc] at cut
      have ends : [x, y] ++ [z] = first ++ mid ++ last ++ [c] := cut
      cases (List.append_inj' ends rfl).2
      rw [hWhite z (inLast.subset (by simp))] at zSolid
      cases zSolid
  rw [firstNil, lastNil, List.nil_append, List.append_nil] at cut
  rw [← cut] at inMid
  rw [word y (inMid.subset (by simp))] at space
  cases space

/-! ## Where the end mark is found -/

theorem endMark_not_around (g h : Gap) (t : Grammar.Text) :
    ¬ endClientRequestS <:+: g.chars ++ t.chars ++ h.chars := by
  intro inside
  have spaced : ['-', ' ', '-'].Sublist endClientRequestS := by decide +kernel
  exact no_gap_inside (by decide) (by decide) (by decide) g.white (Text.solid t) h.white
    (spaced.trans inside.sublist)

theorem RequestLayout.endMark_absent (l : RequestLayout) (r : Request) :
    ¬ endClientRequestS <:+: l.front r ++ endClientRequestS.dropLast := by
  have noOpen : '(' ∉ endClientRequestS := by decide +kernel
  have noComma : ',' ∉ endClientRequestS := by decide +kernel
  have noClose : ')' ∉ endClientRequestS := by decide +kernel
  have split : l.front r ++ endClientRequestS.dropLast =
      (l.beforeHeader.chars ++ beginClientRequestS ++ l.beforeRequest.chars ++ "request".toList ++
        l.beforeOpen.chars) ++ '(' ::
      ((l.beforeOp.chars ++ r.op.chars ++ l.beforeComma.chars) ++ ',' ::
      ((l.beforeText.chars ++ r.text.chars ++ l.beforeClose.chars) ++ ')' ::
      (l.beforeEnd.chars ++ endClientRequestS.dropLast))) := by
    unfold front body argsText
    generalize beginClientRequestS = header, endClientRequestS.dropLast = mark,
      "request".toList = name
    simp only [List.append_assoc, List.cons_append]
  rw [split, infix_separator noOpen, infix_separator noComma, infix_separator noClose]
  rintro (inHeader | inOp | inText | inEnd)
  · have letter : 'D' ∈ endClientRequestS := by decide +kernel
    have noLetter : 'D' ∉ beginClientRequestS ∧ 'D' ∉ "request".toList := by decide +kernel
    have member := inHeader.subset letter
    simp only [List.mem_append, noLetter, Gap.not_mem (show isSpace 'D' = false by decide),
      or_self] at member
  · exact endMark_not_around _ _ _ inOp
  · exact endMark_not_around _ _ _ inText
  · have dashes := inEnd.sublist.count_le '-'
    have noDash : l.beforeEnd.chars.count '-' = 0 :=
      List.count_eq_zero.mpr (Gap.not_mem (by decide))
    have fewer : endClientRequestS.dropLast.count '-' < endClientRequestS.count '-' := by
      decide +kernel
    rw [List.count_append, noDash] at dashes
    omega

/-! ## The arguments of a request -/

theorem scanArgs_kept {s : Str} (clean : ∀ c ∈ s, c ∉ ['(', ',', ')']) (rest tmp : Str)
    (args : List Str) : scanArgs (s ++ rest) tmp args = scanArgs rest (tmp ++ s) args := by
  induction s generalizing tmp with
  | nil => rw [List.nil_append, List.append_nil]
  | cons c s ih =>
      obtain ⟨here, later⟩ := List.forall_mem_cons.mp clean
      simp only [List.mem_cons, List.not_mem_nil, or_false, not_or] at here
      have notClosing : ¬ ((c = ',' ∧ tmp ≠ []) ∨ c = ')') := by simp [here]
      rw [List.cons_append, scanArgs, if_neg notClosing, if_pos ⟨here.1, here.2.2⟩, ih later,
        List.append_assoc, List.singleton_append]

theorem around_clean (g h : Gap) (t : Grammar.Text) :
    ∀ c ∈ g.chars ++ t.chars ++ h.chars, c ∉ ['(', ',', ')'] := by
  have solid : ∀ c ∈ ['(', ',', ')'], isSpace c = false ∧ Grammar.isTextChar c = false :=
    forall_mem_of_all (by decide)
  intro c member separator
  obtain ⟨notSpace, notText⟩ := solid c separator
  simp only [List.mem_append, Gap.not_mem notSpace, Grammar.Text.not_mem notText, or_self] at member

theorem scanArgs_request (l : RequestLayout) (r : Request) :
    scanArgs (l.argsText r ++ ')' :: l.beforeEnd.chars ++ [nul]) [] [] =
      [l.beforeOp.chars ++ r.op.chars ++ l.beforeComma.chars,
        l.beforeText.chars ++ r.text.chars ++ l.beforeClose.chars] := by
  have someOp : l.beforeOp.chars ++ r.op.chars ++ l.beforeComma.chars ≠ [] := by
    simp [r.someOp]
  have behind : ∀ c ∈ l.beforeEnd.chars ++ [nul], c ∉ ['(', ',', ')'] := by
    intro c member separator
    have solid : ∀ c ∈ ['(', ',', ')'], isSpace c = false ∧ c ≠ nul :=
      forall_mem_of_all (by decide)
    obtain ⟨notSpace, notNul⟩ := solid c separator
    simp only [List.mem_append, Gap.not_mem notSpace, List.mem_singleton, notNul, or_self] at member
  have split : l.argsText r ++ ')' :: l.beforeEnd.chars ++ [nul] =
      (l.beforeOp.chars ++ r.op.chars ++ l.beforeComma.chars) ++ ',' ::
        ((l.beforeText.chars ++ r.text.chars ++ l.beforeClose.chars) ++ ')' ::
          ((l.beforeEnd.chars ++ [nul]) ++ [])) := by
    unfold RequestLayout.argsText
    simp only [List.append_assoc, List.cons_append, List.append_nil]
  rw [split, scanArgs_kept (around_clean _ _ _), List.nil_append, scanArgs,
    if_pos (.inl ⟨rfl, someOp⟩), scanArgs_kept (around_clean _ _ _), scanArgs, if_pos (.inr rfl),
    scanArgs_kept behind]
  rfl

theorem drop_behind (a b : Str) (c : Char) : (a ++ c :: b).drop (a.length + 1) = b := by
  simp

theorem argumentText_message (l : RequestLayout) (r : Request) (after : Str) :
    argumentText (l.message r after) = l.argsText r ++ ')' :: l.beforeEnd.chars := by
  have mark : find endClientRequestS (l.message r after) = some (l.front r).length :=
    find_first after (l.endMark_absent r)
  have name : "request".toList = 'r' :: "equest".toList := by decide +kernel
  have noLetter : ∀ c ∈ l.beforeHeader.chars ++ beginClientRequestS ++ l.beforeRequest.chars,
      c ∉ "request".toList := by
    have solid : ∀ c ∈ "request".toList, isSpace c = false ∧ c ∉ beginClientRequestS :=
      forall_mem_of_all (by decide +kernel)
    intro c member letter
    obtain ⟨notSpace, notHeader⟩ := solid c letter
    simp only [List.mem_append, Gap.not_mem notSpace, notHeader, or_self] at member
  have noOpen : ∀ c ∈ "request".toList ++ l.beforeOpen.chars, c ∉ ['('] := by
    have notName : '(' ∉ "request".toList := by decide +kernel
    intro c member isOpen
    rw [List.mem_singleton.mp isOpen] at member
    simp only [List.mem_append, notName, Gap.not_mem (show isSpace '(' = false by decide),
      or_self] at member
  have letter : findFirstOf "request".toList (l.message r after) =
      some (l.beforeHeader.chars ++ beginClientRequestS ++ l.beforeRequest.chars).length := by
    have begins : l.message r after =
        (l.beforeHeader.chars ++ beginClientRequestS ++ l.beforeRequest.chars) ++ 'r' ::
          ("equest".toList ++ l.beforeOpen.chars ++ '(' ::
            (l.argsText r ++ ')' :: l.beforeEnd.chars) ++ endClientRequestS ++ after) := by
      unfold RequestLayout.message RequestLayout.front RequestLayout.body
      rw [name]
      generalize beginClientRequestS = header, endClientRequestS = mark, "equest".toList = more
      simp only [List.append_assoc, List.cons_append]
    rw [begins]
    exact findFirstOf_eq (by rw [name]; exact List.mem_cons_self) noLetter
  have cut : substrBetween (l.message r after)
      (l.beforeHeader.chars ++ beginClientRequestS ++ l.beforeRequest.chars).length
      (some (l.front r).length) = l.body r := by
    rw [RequestLayout.message, List.append_assoc]
    exact substrBetween_middle _ _ _
  have opening : findFirstOf ['('] (l.body r) = some ("request".toList ++ l.beforeOpen.chars).length :=
    findFirstOf_eq List.mem_cons_self noOpen
  rw [argumentText, mark, letter]
  dsimp only
  rw [cut, opening]
  exact drop_behind _ _ _

theorem RequestLayout.message_ne_nil (l : RequestLayout) (r : Request) (after : Str) :
    l.message r after ≠ [] := by
  have someHeader : beginClientRequestS ≠ [] := by decide +kernel
  simp [message, front, someHeader]

theorem RequestLayout.open_mem (l : RequestLayout) (r : Request) (after : Str) :
    '(' ∈ l.message r after := by
  have inBody : '(' ∈ l.body r := List.mem_append_right _ List.mem_cons_self
  exact List.mem_append_left _ (List.mem_append_left _ (List.mem_append_right _ inBody))

theorem packed_digest (o : OpenSSL) (pKey : Str) :
    packed (getKeyDigest o pKey) = getKeyDigest o pKey := by
  have mark : ∀ c ∈ "rsa_".toList, isSpace c = false := forall_mem_of_all (by decide)
  have hex : ∀ c ∈ "0123456789abcdef".toList, isSpace c = false :=
    forall_mem_of_all (by decide +kernel)
  refine packed_of_solid fun c member => ?_
  exact (getKeyDigest_chars o pKey c member).elim (mark c) (hex c)

/-- A well-formed request becomes the query about this operation and this resource. -/
theorem generateQuery_faithful {o : OpenSSL} {clib : CLib} {validate : Bool} {clock : Nat → Int}
    {before ss : SecurityService} {c : Credential}
    (verified : verifyCredential o clib validate clock before (some c) = some (true, ss))
    (l : RequestLayout) (r : Request) (after : Str) :
    ∃ query, generateQuery ss.credPtr (l.message r after) = some query ∧
      packed query = "allow(".toList ++ getKeyDigest o c.pubKey ++ ",".toList ++ r.op.chars ++
        ",".toList ++ r.text.chars ++ ").".toList := by
  obtain ⟨c', holds, digest⟩ := verifyCredential_credPtr verified
  rw [holds]
  rcases generateQuery_eq c' (l.message_ne_nil r after) with ⟨-, noArgs⟩ | made
  · rw [argumentText_message] at noArgs
    simp at noArgs
  · rw [argumentText_message, scanArgs_request, digest] at made
    refine ⟨_, made, ?_⟩
    have opening : packed "allow(".toList = "allow(".toList := by decide
    have comma : packed ",".toList = ",".toList := by decide
    have closing : packed ").".toList = ").".toList := by decide
    have between : packed [','] = ",".toList := by decide
    unfold allowQuery
    rw [List.intercalate_cons_cons, List.intercalate_singleton]
    simp only [packed_append, opening, comma, closing, between, packed_digest, Gap.packed,
      packed_of_solid (Text.solid r.op), packed_of_solid (Text.solid r.text), List.append_assoc,
      List.nil_append]

/-- A request over three lines. -/
def linesLayout : RequestLayout :=
  let none : Gap := ⟨[], by simp⟩
  let newline : Gap := ⟨['\n'], forall_mem_of_all (by decide)⟩
  let blank : Gap := ⟨[' '], forall_mem_of_all (by decide)⟩
  { beforeHeader := none, beforeRequest := newline, beforeOpen := none, beforeOp := none
    beforeComma := none, beforeText := blank, beforeClose := none, beforeEnd := newline }

def viewFile : Request :=
  { op := .of "view", text := .of "file", someOp := by decide, someText := by decide }

theorem generateQuery_faithful_alice :
    ∃ query, generateQuery (some (userChecked alice)) (linesLayout.message viewFile ['\n']) =
        some query ∧
      packed query = "allow(".toList ++ userDigest alice ++ ",".toList ++ "view".toList ++
        ",".toList ++ "file".toList ++ ").".toList :=
  generateQuery_faithful alice_known.verified linesLayout viewFile ['\n']

end RepositoryManager
