import RepositoryManager.Lib.Terminated
import RepositoryManager.AstWalker
import RepositoryManager.Grammar

/-! # The walk recovers the credential

On the child list that the rewrite rules leave for a credential, the walker gives
this credential back. Every loop is described by what lies ahead of the index
before and after it; the fuel it needs is the number of children ahead.
-/

namespace RepositoryManager.AstWalker

open ByteString Terminated

/-- The children from the index on. -/
def ahead (t : Tree) (w : Walker) : List Str := t.children.drop w.idx

/-- Where a loop leaves the walker: `rest` ahead, the label and the count of null
    children as they were. -/
structure Reaches (t : Tree) (w w' : Walker) (rest : List Str) : Prop where
  ahead : ahead t w' = rest
  label : w'.label = w.label
  nulls : w'.nullChildren = w.nullChildren

/-- What one pass of the loop of `makeCertificate` does to the walker. -/
structure Passes (t : Tree) (w w' : Walker) (rest : List Str) : Prop where
  ahead : AstWalker.ahead t w' = rest
  inside : w'.idx ≤ t.children.length
  nulls : w'.nullChildren = w.nullChildren

variable {t : Tree} {w : Walker} {s : Str} {rest : List Str}

theorem child_of_ahead (here : ahead t w = s :: rest) : t.children[w.idx]? = some s := by
  have first : (t.children.drop w.idx)[0]? = some s := by
    rw [show t.children.drop w.idx = s :: rest from here]
    rfl
  simpa [List.getElem?_drop] using first

theorem ahead_succ {w' : Walker} (here : ahead t w = s :: rest) (moved : w'.idx = w.idx + 1) :
    ahead t w' = rest := by
  simp only [ahead] at here ⊢
  rw [moved, ← List.drop_drop, here]
  rfl

theorem idx_lt_of_ahead (here : ahead t w = s :: rest) : w.idx < t.children.length := by
  have := congrArg List.length here
  simp only [ahead, List.length_drop, List.length_cons] at this
  omega

theorem getChildStr_ahead (here : ahead t w = s :: rest) :
    getChildStr t w.idx w = { w with sstr := s } := by
  simp only [getChildStr, child_of_ahead here]

theorem nextChildStr_ahead (here : ahead t w = s :: rest) :
    nextChildStr t w = { w with idx := w.idx + 1, sstr := s } := by
  simp only [nextChildStr, getChildStr_ahead here]

/-! ## The inner loops -/

theorem getClauseStr_tokens {tokens : List Str} (noStop : ∀ s ∈ tokens, s ≠ ['.'])
    (fuel : Nat) (acc : Str) (w : Walker) (enough : tokens.length < fuel)
    (here : ahead t w = tokens ++ ['.'] :: rest) :
    ∃ w', getClauseStr t fuel acc w = some (acc ++ tokens.flatten ++ ['.'], w') ∧
      Reaches t w w' rest ∧ w'.idx ≤ t.children.length := by
  induction tokens generalizing fuel acc w with
  | nil =>
      obtain ⟨fuel, rfl⟩ : ∃ f, fuel = f + 1 := ⟨fuel - 1, by simp at enough; omega⟩
      rw [List.nil_append] at here
      refine ⟨{ w with idx := w.idx + 1, sstr := ['.'] }, ?_, ⟨ahead_succ here rfl, rfl, rfl⟩,
        idx_lt_of_ahead here⟩
      have again : ahead t { w with sstr := ['.'] } = ['.'] :: rest := here
      simp [getClauseStr, getChildStr_ahead here, nextChildStr_ahead again]
  | cons s tokens ih =>
      obtain ⟨fuel, rfl⟩ : ∃ f, fuel = f + 1 := ⟨fuel - 1, by simp at enough; omega⟩
      rw [List.cons_append] at here
      have again : ahead t { w with sstr := s } = s :: (tokens ++ ['.'] :: rest) := here
      obtain ⟨w', runs, reaches, inside⟩ :=
        ih (fun x member => noStop x (List.mem_cons_of_mem _ member)) fuel (acc ++ s)
          { w with idx := w.idx + 1, sstr := s } (by simp at enough; omega) (ahead_succ here rfl)
      refine ⟨w', ?_, ⟨reaches.ahead, reaches.label, reaches.nulls⟩, inside⟩
      simp only [getClauseStr, getChildStr_ahead here, nextChildStr_ahead again]
      rw [if_pos (noStop s List.mem_cons_self), runs]
      simp

theorem appendUntil_lines {stop : Str} {lines : List Str} (noStop : ∀ s ∈ lines, s ≠ stop)
    (fuel : Nat) (acc : Str) (w : Walker) (enough : lines.length < fuel)
    (here : ahead t w = lines ++ stop :: rest) :
    ∃ w', appendUntil t stop fuel acc w = some (acc ++ lines.flatMap ('\n' :: ·), w') ∧
      Reaches t w w' rest ∧ ahead t { w' with idx := w'.idx - 1 } = stop :: rest := by
  induction lines generalizing fuel acc w with
  | nil =>
      obtain ⟨fuel, rfl⟩ : ∃ f, fuel = f + 1 := ⟨fuel - 1, by simp at enough; omega⟩
      rw [List.nil_append] at here
      refine ⟨{ w with idx := w.idx + 1, sstr := stop }, ?_, ⟨ahead_succ here rfl, rfl, rfl⟩, here⟩
      simp [appendUntil, nextChildStr_ahead here]
  | cons s lines ih =>
      obtain ⟨fuel, rfl⟩ : ∃ f, fuel = f + 1 := ⟨fuel - 1, by simp at enough; omega⟩
      rw [List.cons_append] at here
      obtain ⟨w', runs, reaches, back⟩ :=
        ih (fun x member => noStop x (List.mem_cons_of_mem _ member)) fuel (acc ++ '\n' :: s)
          { w with idx := w.idx + 1, sstr := s } (by simp at enough; omega) (ahead_succ here rfl)
      refine ⟨w', ?_, ⟨reaches.ahead, reaches.label, reaches.nulls⟩, back⟩
      simp only [appendUntil, nextChildStr_ahead here]
      rw [if_pos (noStop s List.mem_cons_self), runs]
      simp

theorem appendUntilCert_lines {lines : List Str} (noCert : ∀ s ∈ lines, s ≠ certS)
    (fuel : Nat) (cred : Credential) (w : Walker) (enough : lines.length < fuel)
    (here : ahead t w = lines ++ certS :: rest) :
    ∃ w', appendUntilCert t fuel cred w =
        some (cred.appendToPubKey (lines.flatMap ('\n' :: ·)), w') ∧
      Reaches t w w' (certS :: rest) := by
  induction lines generalizing fuel cred w with
  | nil =>
      obtain ⟨fuel, rfl⟩ : ∃ f, fuel = f + 1 := ⟨fuel - 1, by simp at enough; omega⟩
      rw [List.nil_append] at here
      refine ⟨{ w with sstr := certS }, ?_, here, rfl, rfl⟩
      simp [appendUntilCert, getChildStr_ahead here, Credential.appendToPubKey]
  | cons s lines ih =>
      obtain ⟨fuel, rfl⟩ : ∃ f, fuel = f + 1 := ⟨fuel - 1, by simp at enough; omega⟩
      rw [List.cons_append] at here
      have again : ahead t { w with sstr := s } = s :: (lines ++ certS :: rest) := here
      obtain ⟨w', runs, reaches⟩ := ih (fun x member => noCert x (List.mem_cons_of_mem _ member))
        fuel (cred.appendToPubKey ('\n' :: s)) { w with idx := w.idx + 1, sstr := s }
        (by simp at enough; omega) (ahead_succ here rfl)
      refine ⟨w', ?_, reaches.ahead, reaches.label, reaches.nulls⟩
      simp only [appendUntilCert, getChildStr_ahead here, nextChildStr_ahead again]
      rw [if_pos (noCert s List.mem_cons_self), runs]
      simp [Credential.appendToPubKey]

/-! ## Clauses and time tuples -/

open Grammar

theorem predicate_noStop (p : Predicate) : ∀ s ∈ p.tokens, s ≠ ['.'] := by
  intro s member
  simp only [Predicate.tokens, List.mem_append, List.mem_cons, List.not_mem_nil, or_false,
    List.mem_flatMap] at member
  rcases member with (((rfl | rfl | rfl) | ⟨a, _, rfl | rfl⟩) | rfl)
  · exact Text.ne List.mem_cons_self rfl
  · decide
  · exact Text.ne List.mem_cons_self rfl
  · decide
  · exact Text.ne List.mem_cons_self rfl
  · decide

theorem literal_noStop (l : Literal) : ∀ s ∈ l.tokens, s ≠ ['.'] := by
  cases l with
  | predicate p => exact predicate_noStop p
  | saysThat speaker p =>
      intro s member
      simp only [Literal.tokens, List.mem_append, List.mem_cons, List.not_mem_nil,
        or_false] at member
      rcases member with (((rfl | rfl | rfl | rfl) | inside) | rfl)
      · decide
      · decide
      · exact Text.ne List.mem_cons_self rfl
      · decide
      · exact predicate_noStop p s inside
      · decide

theorem clause_tokens (c : Clause) :
    ∃ tokens, c.tokens = tokens ++ [['.']] ∧ (∀ s ∈ tokens, s ≠ ['.']) ∧
      c.text = tokens.flatten ++ ['.'] := by
  cases c with
  | fact head => exact ⟨head.tokens, rfl, literal_noStop head, by simp [Clause.text, Clause.tokens]⟩
  | rule head first more =>
      refine ⟨head.tokens ++ [":-".toList] ++ first.tokens ++
        more.flatMap (fun l => [','] :: l.tokens), rfl, ?_,
        by simp [Clause.text, Clause.tokens]⟩
      intro s member
      simp only [List.mem_append, List.mem_flatMap, List.mem_cons, List.not_mem_nil,
        or_false] at member
      rcases member with (((inHead | rfl) | inFirst) | ⟨l, _, rfl | inMore⟩)
      · exact literal_noStop head s inHead
      · decide
      · exact literal_noStop first s inFirst
      · decide
      · exact literal_noStop l s inMore

theorem timeTuple_tokens (tt : TimeTuple) :
    ∃ tokens, tt.tokens = tokens ++ [['.']] ∧ (∀ s ∈ tokens, s ≠ ['.']) ∧
      tt.text = tokens.flatten ++ ['.'] := by
  refine ⟨["datime".toList, ['('], tt.year.chars, [','], tt.month.chars, [','], tt.day.chars,
    [','], tt.hour.chars, [','], tt.minute.chars, [','], tt.second.chars, [')']], rfl, ?_,
    by simp [TimeTuple.text, TimeTuple.tokens]⟩
  intro s member
  simp only [List.mem_cons, List.not_mem_nil, or_false] at member
  rcases member with rfl | rfl | rfl | rfl | rfl | rfl | rfl | rfl | rfl | rfl | rfl | rfl |
    rfl | rfl
  all_goals first | exact Num.ne List.mem_cons_self rfl | decide

/-- What `addClauses` takes for one clause: it ends with its only full stop, and does not
    begin with the marker that ends the clauses. -/
def ClauseWord (word : List Str) : Prop := Ends ['.'] word ∧ word.head? ≠ some startTimeS

theorem Clause.clauseWord {c : Clause} (noMarker : c.tokens.head? ≠ some startTimeS) :
    ClauseWord c.tokens := by
  obtain ⟨tokens, same, noStop, -⟩ := clause_tokens c
  refine ⟨?_, noMarker⟩
  rw [same]
  exact .of fun member => noStop _ member rfl

theorem addClauses_words {words : List (List Str)} (each : ∀ word ∈ words, ClauseWord word)
    (fuel : Nat) (cert : Certificate) (w : Walker) (enough : words.flatten.length < fuel)
    (here : ahead t w = words.flatten ++ startTimeS :: rest) :
    ∃ w', addClauses t fuel cert w =
        some ({ cert with clauses := cert.clauses ++ words.map List.flatten }, w') ∧
      Reaches t w w' (startTimeS :: rest) := by
  induction words generalizing fuel cert w with
  | nil =>
      obtain ⟨fuel, rfl⟩ : ∃ f, fuel = f + 1 := ⟨fuel - 1, by simp at enough; omega⟩
      rw [List.flatten_nil, List.nil_append] at here
      refine ⟨{ w with sstr := startTimeS }, ?_, here, rfl, rfl⟩
      simp [addClauses, getChildStr_ahead here]
  | cons word words ih =>
      obtain ⟨fuel, rfl⟩ : ∃ f, fuel = f + 1 := ⟨fuel - 1, by omega⟩
      obtain ⟨⟨tokens, rfl, noStop⟩, differs⟩ := each word List.mem_cons_self
      have noStop : ∀ s ∈ tokens, s ≠ ['.'] := by
        rintro s member rfl
        exact noStop member
      simp only [List.flatten_cons, List.append_assoc, List.length_append,
        List.length_singleton] at enough here
      have begins : ∃ first more, tokens ++ ([['.']] ++ (words.flatten ++ startTimeS :: rest)) =
          first :: more ∧ first ≠ startTimeS := by
        cases tokens with
        | nil => exact ⟨['.'], _, rfl, by decide⟩
        | cons first more => exact ⟨first, _, rfl, by simpa using differs⟩
      obtain ⟨first, more, shape, notMarker⟩ := begins
      have child := getChildStr_ahead (here.trans shape)
      obtain ⟨w₁, read, reaches₁, -⟩ := getClauseStr_tokens noStop fuel []
        { w with sstr := first } (by omega) here
      obtain ⟨w₂, more, reaches₂⟩ :=
        ih (fun x member => each x (List.mem_cons_of_mem _ member)) fuel
          (cert.addClause (tokens.flatten ++ ['.'])) w₁ (by omega) reaches₁.ahead
      refine ⟨w₂, ?_, reaches₂.ahead, reaches₂.label.trans reaches₁.label,
        reaches₂.nulls.trans reaches₁.nulls⟩
      simp only [addClauses, child, if_pos notMarker, read]
      rw [List.nil_append, more]
      simp [Certificate.addClause]

/-! ## Certificates -/

/-- A key or signature body with its delimiters: the lines joined by newlines. -/
def pem (header : Str) (lines : List Text) (footer : Str) : Str :=
  ['\n'].intercalate (header :: lines.map Text.chars ++ [footer])

theorem pem_eq (header : Str) (lines : List Text) (footer : Str) :
    pem header lines footer =
      header ++ (lines.map Text.chars).flatMap ('\n' :: ·) ++ '\n' :: footer := by
  have rest : ∀ first : Str, ['\n'].intercalate (first :: lines.map Text.chars ++ [footer]) =
      first ++ (lines.map Text.chars).flatMap ('\n' :: ·) ++ '\n' :: footer := by
    induction lines with
    | nil => intro first; simp [List.intercalate_cons_cons]
    | cons l ls ih =>
        intro first
        simp only [List.map_cons, List.cons_append, List.intercalate_cons_cons] at ih ⊢
        rw [ih l.chars]
        simp
  exact rest header

theorem lines_ne {s : Str} {c : Char} (member : c ∈ s) (outside : isTextChar c = false)
    (lines : List Text) : ∀ x ∈ lines.map Text.chars, x ≠ s := by
  intro x inLines
  obtain ⟨l, _, rfl⟩ := List.mem_map.mp inLines
  exact Text.ne member outside

/-- A certificate of the grammar as the walker fills it in, before `finalize`. -/
def walked (c : Grammar.Certificate) : Certificate :=
  { Certificate.empty with
    clauses := c.clauses.map Clause.text
    startTime := c.start.text
    stopTime := c.stop.text
    pubKey := pem pkHeaderS c.key pkEndS
    signature := pem sigS c.signature endSigS }

theorem makeCertificate_next {fuel : Nat} {cert cert' : Certificate} {w' : Walker}
    (here : ahead t w = s :: rest) (notEnd : s ≠ endCertS)
    (step : makeCertificateStep t fuel cert { w with idx := w.idx + 1, sstr := s, label := s } =
      some (cert', w')) :
    makeCertificate t (fuel + 1) cert w = makeCertificate t fuel cert' w' := by
  simp only [makeCertificate, idx_lt_of_ahead here, if_true, nextChildStr_ahead here,
    if_pos notEnd, step]

theorem makeCertificate_end {fuel : Nat} {cert : Certificate}
    (here : ahead t w = endCertS :: rest) :
    makeCertificate t (fuel + 1) cert w =
      some (cert, { w with idx := w.idx + 1, sstr := endCertS }) := by
  simp only [makeCertificate, idx_lt_of_ahead here, if_true, nextChildStr_ahead here, ne_eq,
    not_true_eq_false, if_false]

theorem pass_clauses {words : List (List Str)} (each : ∀ word ∈ words, ClauseWord word)
    (fuel : Nat) (cert : Certificate) (w : Walker) (enough : words.flatten.length < fuel)
    (here : ahead t w = clauseS :: (words.flatten ++ startTimeS :: rest)) :
    ∃ w', makeCertificate t (fuel + 1) cert w = makeCertificate t fuel
        { cert with clauses := cert.clauses ++ words.map List.flatten } w' ∧
      Passes t w w' (startTimeS :: rest) := by
  obtain ⟨w', read, reaches⟩ := addClauses_words each fuel cert
    { w with idx := w.idx + 1, sstr := clauseS, label := clauseS } enough (ahead_succ here rfl)
  refine ⟨w', makeCertificate_next here (by decide) ?_, reaches.ahead,
    Nat.le_of_lt (idx_lt_of_ahead reaches.ahead), reaches.nulls⟩
  simpa only [makeCertificateStep, if_true] using read

section Tuple

variable {tokens : List Str} (noStop : ∀ s ∈ tokens, s ≠ ['.'])

include noStop

theorem pass_startTime (fuel : Nat) (cert : Certificate) (w : Walker)
    (enough : tokens.length < fuel) (here : ahead t w = startTimeS :: (tokens ++ ['.'] :: rest)) :
    ∃ w', makeCertificate t (fuel + 1) cert w =
        makeCertificate t fuel (cert.appendToStartTime (tokens.flatten ++ ['.'])) w' ∧
      Passes t w w' rest := by
  obtain ⟨w', read, reaches, inside⟩ := getClauseStr_tokens noStop fuel []
    { w with idx := w.idx + 1, sstr := startTimeS, label := startTimeS } enough
    (ahead_succ here rfl)
  refine ⟨w', makeCertificate_next here (by decide) ?_, reaches.ahead, inside, reaches.nulls⟩
  simp only [makeCertificateStep, show startTimeS ≠ clauseS by decide, if_true, if_false, read,
    Option.bind_eq_bind, Option.bind_some, List.nil_append]
  rfl

theorem pass_stopTime (fuel : Nat) (cert : Certificate) (w : Walker)
    (enough : tokens.length < fuel) (here : ahead t w = stopTimeS :: (tokens ++ ['.'] :: rest)) :
    ∃ w', makeCertificate t (fuel + 1) cert w =
        makeCertificate t fuel (cert.appendToStopTime (tokens.flatten ++ ['.'])) w' ∧
      Passes t w w' rest := by
  obtain ⟨w', read, reaches, inside⟩ := getClauseStr_tokens noStop fuel []
    { w with idx := w.idx + 1, sstr := stopTimeS, label := stopTimeS } enough
    (ahead_succ here rfl)
  refine ⟨w', makeCertificate_next here (by decide) ?_, reaches.ahead, inside, reaches.nulls⟩
  simp only [makeCertificateStep, show stopTimeS ≠ clauseS by decide,
    show stopTimeS ≠ startTimeS by decide, if_true, if_false, read, Option.bind_eq_bind,
    Option.bind_some, List.nil_append]
  rfl

end Tuple

theorem pass_publicKey {lines : List Str} (noStop : ∀ s ∈ lines, s ≠ sigS) (fuel : Nat)
    (cert : Certificate) (w : Walker) (enough : lines.length < fuel)
    (here : ahead t w = pkHeaderS :: (lines ++ sigS :: rest)) :
    ∃ w', makeCertificate t (fuel + 1) cert w =
        makeCertificate t fuel
          (cert.appendToPubKey (pkHeaderS ++ lines.flatMap ('\n' :: ·))) w' ∧
      Passes t w w' (sigS :: rest) := by
  obtain ⟨w', read, reaches, back⟩ := appendUntil_lines noStop fuel []
    { w with idx := w.idx + 1, sstr := pkHeaderS, label := pkHeaderS } enough (ahead_succ here rfl)
  refine ⟨{ w' with idx := w'.idx - 1 }, makeCertificate_next here (by decide) ?_, back,
    Nat.le_of_lt (idx_lt_of_ahead back), reaches.nulls⟩
  simp only [makeCertificateStep, show pkHeaderS ≠ clauseS by decide,
    show pkHeaderS ≠ startTimeS by decide, show pkHeaderS ≠ stopTimeS by decide, if_true,
    if_false, read, Option.bind_eq_bind, Option.bind_some, reaches.label, List.nil_append]
  rfl

theorem pass_signature {lines : List Str} (noStop : ∀ s ∈ lines, s ≠ endSigS) (fuel : Nat)
    (cert : Certificate) (w : Walker) (enough : lines.length < fuel)
    (here : ahead t w = sigS :: (lines ++ endSigS :: rest)) :
    ∃ w', makeCertificate t (fuel + 1) cert w =
        makeCertificate t fuel
          (cert.appendToSignature (sigS ++ lines.flatMap ('\n' :: ·) ++ '\n' :: endSigS)) w' ∧
      Passes t w w' rest := by
  obtain ⟨w', read, reaches, back⟩ := appendUntil_lines noStop fuel []
    { w with idx := w.idx + 1, sstr := sigS, label := sigS } enough (ahead_succ here rfl)
  have inside := idx_lt_of_ahead back
  refine ⟨w', makeCertificate_next here (by decide) ?_, reaches.ahead, ?_, reaches.nulls⟩
  · simp only [makeCertificateStep, show sigS ≠ clauseS by decide, show sigS ≠ startTimeS by decide,
      show sigS ≠ stopTimeS by decide, show sigS ≠ pkHeaderS by decide, if_true, if_false, read,
      Option.bind_eq_bind, Option.bind_some, reaches.label, List.nil_append]
    rfl
  · simp only at inside
    omega

theorem keyLines_ne_sigS (key : List Text) : ∀ s ∈ key.map Text.chars ++ [pkEndS], s ≠ sigS := by
  intro s member
  rcases List.mem_append.mp member with inKey | footer
  · exact lines_ne (c := ' ') (by decide) (by decide) key s inKey
  · rw [List.mem_singleton.mp footer]
    decide

theorem keyLines_ne_certS {key : List Text} (noCert : ∀ line ∈ key, line.chars ≠ certS) :
    ∀ s ∈ key.map Text.chars ++ [pkEndS], s ≠ certS := by
  intro s member
  rcases List.mem_append.mp member with inKey | footer
  · obtain ⟨line, isLine, rfl⟩ := List.mem_map.mp inKey
    exact noCert line isLine
  · rw [List.mem_singleton.mp footer]
    decide

theorem certificate_parts (c : Grammar.Certificate) {start stop : List Str}
    (startTokens : c.start.tokens = start ++ [['.']])
    (stopTokens : c.stop.tokens = stop ++ [['.']]) (rest : List Str) :
    c.children ++ rest = certS :: clauseS :: ((c.clauses.map Clause.tokens).flatten ++ startTimeS ::
      (start ++ ['.'] :: stopTimeS :: (stop ++ ['.'] :: pkHeaderS ::
        ((c.key.map Text.chars ++ [pkEndS]) ++ sigS :: (c.signature.map Text.chars ++ endSigS ::
          endCertS :: rest))))) := by
  simp [Grammar.Certificate.children, validityChildren, signatureChildren, publicKeyChildren,
    startTokens, stopTokens, List.flatMap]

theorem makeCertificate_children (c : Grammar.Certificate)
    (noMarker : ∀ cl ∈ c.clauses, cl.tokens.head? ≠ some startTimeS) (fuel : Nat) (w : Walker)
    (enough : (c.children ++ rest).length ≤ fuel)
    (here : ahead t w = (c.children ++ rest).tail) :
    ∃ w', makeCertificate t fuel .empty w = some (walked c, w') ∧ ahead t w' = rest ∧
      ahead t { w' with idx := w'.idx - 1 } = endCertS :: rest ∧
      w'.nullChildren = w.nullChildren := by
  obtain ⟨start, startTokens, startEnds, startText⟩ := timeTuple_tokens c.start
  obtain ⟨stop, stopTokens, stopEnds, stopText⟩ := timeTuple_tokens c.stop
  have each : ∀ word ∈ c.clauses.map Clause.tokens, ClauseWord word := by
    intro word member
    obtain ⟨cl, isClause, rfl⟩ := List.mem_map.mp member
    exact Clause.clauseWord (noMarker cl isClause)
  have signatureEnds := lines_ne (s := endSigS) (c := ' ') (by decide) (by decide) c.signature
  rw [certificate_parts c startTokens stopTokens rest] at enough here
  simp only [List.length_append, List.length_cons, List.length_nil, List.length_map] at enough
  obtain ⟨fuel, rfl⟩ : ∃ f, fuel = f + 6 := ⟨fuel - 6, by omega⟩
  obtain ⟨w₁, pass₁, passes₁⟩ := pass_clauses each (fuel + 5) .empty w (by omega) here
  obtain ⟨w₂, pass₂, passes₂⟩ := pass_startTime startEnds (fuel + 4) _ w₁ (by omega) passes₁.ahead
  obtain ⟨w₃, pass₃, passes₃⟩ := pass_stopTime stopEnds (fuel + 3) _ w₂ (by omega) passes₂.ahead
  obtain ⟨w₄, pass₄, passes₄⟩ := pass_publicKey (keyLines_ne_sigS c.key) (fuel + 2) _ w₃
    (by simp only [List.length_append, List.length_map, List.length_singleton]; omega) passes₃.ahead
  obtain ⟨w₅, pass₅, passes₅⟩ := pass_signature signatureEnds (fuel + 1) _ w₄
    (by simp only [List.length_map]; omega) passes₄.ahead
  have ends := passes₅.ahead
  refine ⟨{ w₅ with idx := w₅.idx + 1, sstr := endCertS }, ?_, ahead_succ ends rfl, ends, ?_⟩
  · rw [pass₁, pass₂, pass₃, pass₄, pass₅, makeCertificate_end ends]
    simp [walked, pem_eq, startText, stopText, Certificate.empty, Certificate.appendToStartTime,
      Certificate.appendToStopTime, Certificate.appendToPubKey, Certificate.appendToSignature,
      Clause.text, Function.comp_def]
  · exact passes₅.nulls.trans (passes₄.nulls.trans (passes₃.nulls.trans
      (passes₂.nulls.trans passes₁.nulls)))

/-! ## Credentials -/

theorem makeCredential_next {fuel : Nat} {cred cred' : Credential} {w' : Walker}
    (here : ahead t w = s :: rest) (goesOn : w.label ≠ endS)
    (step : makeCredentialStep t fuel cred { w with idx := w.idx + 1, sstr := s, label := s } =
      some (cred', w')) :
    makeCredential t (fuel + 1) cred w = makeCredential t fuel cred' w' := by
  simp only [makeCredential, idx_lt_of_ahead here, goesOn, ne_eq, not_false_eq_true, and_self,
    if_true, nextChildStr_ahead here, step]

theorem makeCredential_end {fuel : Nat} {cred : Credential} (goesOn : w.label ≠ endS)
    (here : ahead t w = endS :: rest) :
    makeCredential t (fuel + 2) cred w =
      some (cred, { w with idx := w.idx + 1, sstr := endS, label := endS }) := by
  have quiet : makeCredentialStep t (fuel + 1) cred
      { w with idx := w.idx + 1, sstr := endS, label := endS } =
        some (cred, { w with idx := w.idx + 1, sstr := endS, label := endS }) := by
    simp only [makeCredentialStep, show endS ≠ pkHeaderS by decide, show endS ≠ certS by decide,
      if_false]
  rw [makeCredential_next here goesOn quiet]
  simp [makeCredential]

/-- Two passes read one certificate: one for `CERT`, which leaves the index on
    `END_CERT`, and one that steps over it. -/
theorem makeCredential_certificate (c : Grammar.Certificate)
    (noMarker : ∀ cl ∈ c.clauses, cl.tokens.head? ≠ some startTimeS) (fuel : Nat)
    (cred : Credential) (w : Walker) (goesOn : w.label ≠ endS)
    (enough : (c.children ++ rest).length ≤ fuel + 1)
    (here : ahead t w = c.children ++ rest) :
    ∃ w', makeCredential t (fuel + 2) cred w =
        makeCredential t fuel (cred.addCertificate (walked c)) w' ∧
      ahead t w' = rest ∧ w'.label ≠ endS ∧ w'.nullChildren = w.nullChildren := by
  have shape : ahead t w = certS :: (c.children ++ rest).tail := by
    simpa only [Grammar.Certificate.children, List.cons_append, List.tail_cons] using here
  obtain ⟨w₁, made, ahead₁, back, nulls⟩ := makeCertificate_children c noMarker
    (fuel + 1) { w with idx := w.idx + 1, sstr := certS, label := certS } enough
    (ahead_succ shape rfl)
  have reads : makeCredentialStep t (fuel + 1) cred
      { w with idx := w.idx + 1, sstr := certS, label := certS } =
        some (cred.addCertificate (walked c),
          { w₁ with idx := w₁.idx - 1, sstr := endCertS, label := endCertS }) := by
    simp only [makeCredentialStep, show certS ≠ pkHeaderS by decide, if_true, if_false, made,
      Option.bind_eq_bind, Option.bind_some, getChildStr_ahead back]
    rfl
  have first := makeCredential_next shape goesOn reads
  have quiet : makeCredentialStep t fuel (cred.addCertificate (walked c))
      { w₁ with idx := w₁.idx - 1 + 1, sstr := endCertS, label := endCertS } =
        some (cred.addCertificate (walked c),
          { w₁ with idx := w₁.idx - 1 + 1, sstr := endCertS, label := endCertS }) := by
    simp only [makeCredentialStep, show endCertS ≠ pkHeaderS by decide,
      show endCertS ≠ certS by decide, if_false]
  have second := makeCredential_next
    (w := { w₁ with idx := w₁.idx - 1, sstr := endCertS, label := endCertS })
    back (show endCertS ≠ endS by decide) quiet
  exact ⟨_, first.trans second, ahead_succ (w := { w₁ with idx := w₁.idx - 1 }) back rfl,
    show endCertS ≠ endS by decide, nulls⟩

theorem makeCredential_certificates (certs : List Grammar.Certificate)
    (noMarker : ∀ c ∈ certs, ∀ cl ∈ c.clauses, cl.tokens.head? ≠ some startTimeS)
    (fuel : Nat) (cred : Credential) (w : Walker) (goesOn : w.label ≠ endS)
    (enough : (certs.flatMap Grammar.Certificate.children).length + 2 ≤ fuel)
    (here : ahead t w = certs.flatMap Grammar.Certificate.children ++ [endS]) :
    ∃ w', makeCredential t fuel cred w =
        some ({ cred with certificates := cred.certificates ++ certs.map walked }, w') ∧
      w'.nullChildren = w.nullChildren := by
  induction certs generalizing fuel cred w with
  | nil =>
      obtain ⟨fuel, rfl⟩ : ∃ f, fuel = f + 2 := ⟨fuel - 2, by simp at enough; omega⟩
      refine ⟨{ w with idx := w.idx + 1, sstr := endS, label := endS }, ?_, rfl⟩
      simpa using makeCredential_end goesOn here
  | cons c certs ih =>
      simp only [List.flatMap_cons, List.length_append, List.append_assoc] at enough here
      have long : 2 ≤ c.children.length := by
        simp [Grammar.Certificate.children]
      obtain ⟨fuel, rfl⟩ : ∃ f, fuel = f + 2 := ⟨fuel - 2, by omega⟩
      obtain ⟨w₁, pass, ahead₁, label₁, nulls₁⟩ := makeCredential_certificate c
        (noMarker c List.mem_cons_self) fuel cred w goesOn
        (by simp only [List.length_append, List.length_singleton]; omega) here
      obtain ⟨w₂, done, nulls₂⟩ := ih (fun x member => noMarker x (List.mem_cons_of_mem _ member))
        fuel _ w₁ label₁ (by omega) ahead₁
      refine ⟨w₂, ?_, nulls₂.trans nulls₁⟩
      rw [pass, done]
      simp [Credential.addCertificate]

/-- The certificate the walker and `finalize` make of a certificate of the grammar. -/
def recoveredCertificate (mktime : Tm → Int) (now : Tm) (c : Grammar.Certificate) : Certificate :=
  { walked c with
    certStr := (c.clauses.map Clause.text).flatten ++ (c.start.text ++ c.stop.text)
    startTimeSec := getUTCTimeSec mktime now c.start.text
    stopTimeSec := getUTCTimeSec mktime now c.stop.text }

/-- The credential with the given key and, in order, the given certificates. -/
def recovered (mktime : Tm → Int) (now : Tm) (c : Grammar.Credential) : Credential :=
  { pubKey := pem pkHeaderS c.key pkEndS
    keyDigest := []
    certificates := c.certificates.map (recoveredCertificate mktime now) }

theorem timeTuple_text_ne_nil (tt : TimeTuple) : tt.text ≠ [] := by
  simp [TimeTuple.text, TimeTuple.tokens]

theorem setCertificateStr_walked (mktime : Tm → Int) (now : Tm) (c : Grammar.Certificate) :
    (walked c).setCertificateStr mktime now = recoveredCertificate mktime now c := by
  simp [Certificate.setCertificateStr, walked, recoveredCertificate, Certificate.empty,
    timeTuple_text_ne_nil]

/-- The walker as `getCredential` starts it. -/
def start (t : Tree) : Walker := { idx := 0, sstr := t.text, label := [], nullChildren := 0 }

theorem getCredential_made {mktime : Tm → Int} {now : Tm} {fuel : Nat} {cred : Credential}
    (root : t.text = credentialS) (made : makeCredential t fuel .empty (start t) = some (cred, w)) :
    getCredential t mktime now fuel = some (some (cred.finalize mktime now)) := by
  unfold start at made
  rw [root] at made
  simp only [getCredential, root, if_true, made]

theorem start_ahead (c : Grammar.Credential) (children : t.children = c.children) :
    ahead t (start t) = pkHeaderS :: (c.key.map Text.chars ++
      pkEndS :: (c.certificates.flatMap Grammar.Certificate.children ++ [endS])) := by
  simp [ahead, start, children, Grammar.Credential.children, publicKeyChildren]

theorem makeCredential_key {lines : List Str} (noCert : ∀ s ∈ lines, s ≠ certS) (fuel : Nat)
    (enough : lines.length < fuel)
    (here : ahead t (start t) = pkHeaderS :: (lines ++ certS :: rest)) :
    ∃ w', makeCredential t (fuel + 1) .empty (start t) =
        makeCredential t fuel
          { Credential.empty with pubKey := pkHeaderS ++ lines.flatMap ('\n' :: ·) } w' ∧
      w'.label ≠ endS ∧ ahead t w' = certS :: rest := by
  obtain ⟨w', read, reaches⟩ := appendUntilCert_lines noCert fuel
    (Credential.empty.appendToPubKey pkHeaderS)
    { start t with idx := 1, sstr := pkHeaderS, label := pkHeaderS } enough (ahead_succ here rfl)
  have step : makeCredentialStep t fuel .empty
      { start t with idx := 1, sstr := pkHeaderS, label := pkHeaderS } = _ :=
    (if_pos rfl).trans read
  refine ⟨w', makeCredential_next here (show ([] : Str) ≠ endS by decide) step, ?_, reaches.ahead⟩
  rw [reaches.label]
  exact show pkHeaderS ≠ endS by decide

theorem start_key {c : Grammar.Credential} (someCertificate : c.certificates ≠ [])
    (children : t.children = c.children) :
    ∃ rest, c.certificates.flatMap Grammar.Certificate.children ++ [endS] = certS :: rest ∧
      ahead t (start t) = pkHeaderS :: ((c.key.map Text.chars ++ [pkEndS]) ++ certS :: rest) := by
  obtain ⟨first, more, certs⟩ := List.exists_cons_of_ne_nil someCertificate
  have body : c.certificates.flatMap Grammar.Certificate.children ++ [endS] = certS ::
      (c.certificates.flatMap Grammar.Certificate.children ++ [endS]).tail := by
    simp [certs, Grammar.Certificate.children]
  refine ⟨_, body, ?_⟩
  rw [start_ahead c children, ← body]
  simp

/-- The walk is the inverse of the rewrite rules: given fuel for every child, it
    returns the credential the child list was made from. -/
theorem getCredential_recovers (mktime : Tm → Int) (now : Tm) (c : Grammar.Credential)
    (some_certificate : c.certificates ≠ []) (noCert : ∀ line ∈ c.key, line.chars ≠ certS)
    (noMarker : ∀ cert ∈ c.certificates, ∀ cl ∈ cert.clauses, cl.tokens.head? ≠ some startTimeS)
    (fuel : Nat) (enough : c.children.length < fuel) :
    getCredential { text := credentialS, children := c.children } mktime now fuel =
      some (some (recovered mktime now c)) := by
  generalize tree : ({ text := credentialS, children := c.children } : Tree) = t
  have children : t.children = c.children := by rw [← tree]
  have root : t.text = credentialS := by rw [← tree]
  obtain ⟨rest, body, here⟩ := start_key some_certificate children
  have size := congrArg List.length (children.symm.trans here)
  rw [← body] at size
  simp only [List.length_cons, List.length_append, List.length_map, List.length_nil] at size
  obtain ⟨fuel, rfl⟩ : ∃ f, fuel = f + 1 := ⟨fuel - 1, by omega⟩
  -- the first pass reads the key and stops before the first `CERT`
  obtain ⟨w₁, pass, goesOn, ahead₁⟩ := makeCredential_key (keyLines_ne_certS noCert) fuel
    (by simp only [List.length_append, List.length_map, List.length_singleton]; omega) here
  obtain ⟨w₂, done, -⟩ := makeCredential_certificates c.certificates noMarker fuel
    { Credential.empty with
      pubKey := pkHeaderS ++ (c.key.map Text.chars ++ [pkEndS]).flatMap ('\n' :: ·) }
    w₁ goesOn (by omega) (ahead₁.trans body.symm)
  rw [getCredential_made root (pass.trans done)]
  simp [Credential.finalize, Credential.empty, recovered, pem_eq, Function.comp_def,
    setCertificateStr_walked]

/-- `member(bob).` and `allow(bob,read):-member(bob).` in the first certificate, and the same
    fact in the second. -/
def bobCredential : Grammar.Credential :=
  let member : Predicate := ⟨.of "member", .of "bob", []⟩
  let allow : Predicate := ⟨.of "allow", .of "bob", [.of "read"]⟩
  let year (y : Grammar.Num) : TimeTuple := ⟨y, .of "1", .of "1", .of "0", .of "0", .of "0"⟩
  let start := year (.of "2011")
  let stop := year (.of "2012")
  { key := [.of "MIGf", .of "AQAB"]
    certificates :=
      [⟨[.fact (.predicate member), .rule (.predicate allow) (.predicate member) []], start, stop,
        [.of "MIGe"], [.of "c2ln"], List.cons_ne_nil _ _⟩,
      ⟨[.fact (.predicate member)], start, stop, [.of "MIGd"], [.of "c2lo", .of "bg=="],
        List.cons_ne_nil _ _⟩] }

theorem getCredential_recovers_bob :
    getCredential { text := credentialS, children := bobCredential.children }
        CLib.epoch.mktime (CLib.epoch.gmtime 0) 200 =
      some (some (recovered CLib.epoch.mktime (CLib.epoch.gmtime 0) bobCredential)) :=
  getCredential_recovers CLib.epoch.mktime (CLib.epoch.gmtime 0) bobCredential
    (by simp [bobCredential]) (by decide) (by decide) 200 (by decide)

end RepositoryManager.AstWalker
