import RepositoryManager.WalkRecovery

/-! # When the walk ends

Every inner loop of the walker looks for a marker without a bound, and past the
last child it is given empty texts for ever. So a walk that ends has found each
marker it looked for. `Parts` and `Walkable` say, of any list of children, that
every marker is there; they are what the walk needs and all it needs.
-/

namespace RepositoryManager.AstWalker

open ByteString Terminated

/-! ## Lists of children -/

/-- The labels that `makeCertificate` knows, and the one that ends its loop. -/
def certificateLabels : List Str :=
  [clauseS, startTimeS, stopTimeS, pkHeaderS, sigS, endCertS]

/-- `Parts xs ys`: the children `xs` begin with parts of a certificate, each with the
    marker that ends it, and `ys` are the children after these parts. -/
inductive Parts : List Str → List Str → Prop where
  | none (ys) : Parts ys ys
  | clauses {words : List (List Str)} {rest ys} (each : ∀ word ∈ words, ClauseWord word)
      (next : Parts (startTimeS :: rest) ys) :
      Parts (clauseS :: (words.flatten ++ startTimeS :: rest)) ys
  | time {label tuple rest ys} (isTime : label = startTimeS ∨ label = stopTimeS)
      (ends : ∀ s ∈ tuple, s ≠ ['.']) (next : Parts rest ys) :
      Parts (label :: (tuple ++ ['.'] :: rest)) ys
  | key {lines rest ys} (ends : ∀ s ∈ lines, s ≠ sigS) (next : Parts (sigS :: rest) ys) :
      Parts (pkHeaderS :: (lines ++ sigS :: rest)) ys
  | signature {lines rest ys} (ends : ∀ s ∈ lines, s ≠ endSigS) (next : Parts rest ys) :
      Parts (sigS :: (lines ++ endSigS :: rest)) ys
  | other {label skipped rest ys} (unknown : label ∉ certificateLabels) (next : Parts rest ys) :
      Parts (label :: skipped :: rest) ys

/-- The children below a root, every marker that a loop looks for being there. -/
inductive Walkable : List Str → Prop where
  | none : Walkable []
  | done {rest} : Walkable (endS :: rest)
  | other {label rest} (unknown : label ∉ [pkHeaderS, certS, endS]) (next : Walkable rest) :
      Walkable (label :: rest)
  | key {lines rest} (ends : ∀ s ∈ lines, s ≠ certS) (next : Walkable (certS :: rest)) :
      Walkable (pkHeaderS :: (lines ++ certS :: rest))
  | certificate {body rest} (parts : Parts body (endCertS :: rest)) (next : Walkable rest) :
      Walkable (certS :: body)
  /-- The children end before `END_CERT`. The walk goes back to the last one. -/
  | unclosed {body last} (parts : Parts body []) (ends : body.getLast? = some last)
      (quiet : last ≠ pkHeaderS ∧ last ≠ certS) : Walkable (certS :: body)

/-- The children below a root, the last certificate of which has a label without a child to
    step over. The walk leaves the list there. -/
inductive Overruns : List Str → Prop where
  | last {body label} (parts : Parts body [label]) (unknown : label ∉ certificateLabels) :
      Overruns (certS :: body)
  | other {label rest} (unknown : label ∉ [pkHeaderS, certS, endS]) (next : Overruns rest) :
      Overruns (label :: rest)
  | key {lines rest} (ends : ∀ s ∈ lines, s ≠ certS) (next : Overruns (certS :: rest)) :
      Overruns (pkHeaderS :: (lines ++ certS :: rest))
  | certificate {body rest} (parts : Parts body (endCertS :: rest)) (next : Overruns rest) :
      Overruns (certS :: body)

/-! ## Past the last child -/

variable {t : Tree} {w w' : Walker} {s : Str} {rest : List Str}

theorem ahead_nil (past : ahead t w = []) : t.children.length ≤ w.idx :=
  List.drop_eq_nil_iff.mp past

theorem ahead_of_length_le (past : t.children.length ≤ w.idx) : ahead t w = [] :=
  List.drop_eq_nil_iff.mpr past

theorem getChildStr_past (past : t.children.length ≤ w.idx) :
    getChildStr t w.idx w = { w with sstr := [], nullChildren := w.nullChildren + 1 } := by
  simp only [getChildStr, List.getElem?_eq_none past]

theorem nextChildStr_past (past : t.children.length ≤ w.idx) :
    nextChildStr t w =
      { w with idx := w.idx + 1, sstr := [], nullChildren := w.nullChildren + 1 } := by
  simp only [nextChildStr, getChildStr_past past]

theorem getClauseStr_past (past : t.children.length ≤ w.idx) (fuel : Nat) (acc : Str) :
    getClauseStr t fuel acc w = none := by
  induction fuel generalizing acc w with
  | zero => rfl
  | succ fuel ih =>
      have again := nextChildStr_past (w := { w with sstr := [], nullChildren := w.nullChildren + 1 })
        past
      simp only [getClauseStr, getChildStr_past past, again]
      rw [if_pos (by decide)]
      apply ih
      exact Nat.le_succ_of_le past

theorem addClauses_past (past : t.children.length ≤ w.idx) (fuel : Nat) (cert : Certificate) :
    addClauses t fuel cert w = none := by
  cases fuel with
  | zero => rfl
  | succ fuel =>
      have stuck := getClauseStr_past
        (w := { w with sstr := [], nullChildren := w.nullChildren + 1 }) past fuel []
      simp only [addClauses, getChildStr_past past]
      rw [if_pos (by decide), stuck]

theorem appendUntil_past {stop : Str} (nonempty : stop ≠ []) (past : t.children.length ≤ w.idx)
    (fuel : Nat) (acc : Str) : appendUntil t stop fuel acc w = none := by
  induction fuel generalizing acc w with
  | zero => rfl
  | succ fuel ih =>
      simp only [appendUntil, nextChildStr_past past]
      rw [if_pos nonempty.symm]
      apply ih
      exact Nat.le_succ_of_le past

theorem appendUntilCert_past (past : t.children.length ≤ w.idx) (fuel : Nat) (cred : Credential) :
    appendUntilCert t fuel cred w = none := by
  induction fuel generalizing cred w with
  | zero => rfl
  | succ fuel ih =>
      have again := nextChildStr_past (w := { w with sstr := [], nullChildren := w.nullChildren + 1 })
        past
      simp only [appendUntilCert, getChildStr_past past, again]
      rw [if_pos (by decide)]
      apply ih
      exact Nat.le_succ_of_le past

/-! ## What a loop that ended has found -/

theorem getClauseStr_some {fuel : Nat} {acc text : Str}
    (returned : getClauseStr t fuel acc w = some (text, w')) :
    ∃ tokens rest, (∀ s ∈ tokens, s ≠ ['.']) ∧ ahead t w = tokens ++ ['.'] :: rest ∧
      Reaches t w w' rest ∧ w'.idx ≤ t.children.length := by
  induction fuel generalizing acc w with
  | zero => cases returned
  | succ fuel ih =>
      cases here : ahead t w with
      | nil =>
          rw [getClauseStr_past (ahead_nil here)] at returned
          cases returned
      | cons s rest =>
          have again : ahead t { w with sstr := s } = s :: rest := here
          simp only [getClauseStr, getChildStr_ahead here, nextChildStr_ahead again] at returned
          split at returned
          · rename_i notStop
            obtain ⟨tokens, rest', noStop, later, reaches, inside⟩ := ih returned
            rw [ahead_succ here rfl] at later
            subst later
            refine ⟨s :: tokens, rest', ?_, rfl, ⟨reaches.ahead, reaches.label, reaches.nulls⟩,
              inside⟩
            exact List.forall_mem_cons.mpr ⟨notStop, noStop⟩
          · rename_i isStop
            cases returned
            rw [not_ne_iff.mp isStop]
            exact ⟨[], rest, by simp, rfl, ⟨ahead_succ here rfl, rfl, rfl⟩, idx_lt_of_ahead here⟩

theorem addClauses_some {fuel : Nat} {cert cert' : Certificate}
    (returned : addClauses t fuel cert w = some (cert', w')) :
    ∃ (words : List (List Str)) (rest : List Str), (∀ word ∈ words, ClauseWord word) ∧
      ahead t w = words.flatten ++ startTimeS :: rest ∧ Reaches t w w' (startTimeS :: rest) := by
  induction fuel generalizing cert w with
  | zero => cases returned
  | succ fuel ih =>
      cases here : ahead t w with
      | nil =>
          rw [addClauses_past (ahead_nil here)] at returned
          cases returned
      | cons s rest =>
          simp only [addClauses, getChildStr_ahead here] at returned
          split at returned
          · rename_i notMarker
            cases clause : getClauseStr t fuel [] { w with sstr := s } with
            | none =>
                rw [clause] at returned
                cases returned
            | some read =>
                obtain ⟨text, w₁⟩ := read
                rw [clause] at returned
                obtain ⟨tokens, rest', noStop, found, reaches, -⟩ := getClauseStr_some clause
                obtain ⟨words, rest'', each, later, reaches'⟩ := ih returned
                have shape : s :: rest = tokens ++ ['.'] :: rest' := here.symm.trans found
                rw [reaches.ahead] at later
                subst later
                refine ⟨(tokens ++ [['.']]) :: words, rest'', ?_, by simpa using shape,
                  reaches'.ahead, reaches'.label.trans reaches.label,
                  reaches'.nulls.trans reaches.nulls⟩
                refine List.forall_mem_cons.mpr ⟨⟨.of fun member => noStop _ member rfl, ?_⟩, each⟩
                cases tokens with
                | nil => decide
                | cons first more =>
                    cases shape
                    simpa using notMarker
          · rename_i isMarker
            cases returned
            rw [not_ne_iff.mp isMarker] at here ⊢
            exact ⟨[], rest, by simp, rfl, here, rfl, rfl⟩

theorem appendUntil_some {stop : Str} (nonempty : stop ≠ []) {fuel : Nat} {acc text : Str}
    (returned : appendUntil t stop fuel acc w = some (text, w')) :
    ∃ lines rest, (∀ s ∈ lines, s ≠ stop) ∧ ahead t w = lines ++ stop :: rest ∧
      Reaches t w w' rest ∧ ahead t { w' with idx := w'.idx - 1 } = stop :: rest := by
  induction fuel generalizing acc w with
  | zero => cases returned
  | succ fuel ih =>
      cases here : ahead t w with
      | nil =>
          rw [appendUntil_past nonempty (ahead_nil here)] at returned
          cases returned
      | cons s rest =>
          simp only [appendUntil, nextChildStr_ahead here] at returned
          split at returned
          · rename_i notStop
            obtain ⟨lines, rest', noStop, later, reaches, back⟩ := ih returned
            rw [ahead_succ here rfl] at later
            subst later
            refine ⟨s :: lines, rest', ?_, rfl, ⟨reaches.ahead, reaches.label, reaches.nulls⟩, back⟩
            exact List.forall_mem_cons.mpr ⟨notStop, noStop⟩
          · rename_i isStop
            cases returned
            rw [not_ne_iff.mp isStop] at here ⊢
            exact ⟨[], rest, by simp, rfl, ⟨ahead_succ here rfl, rfl, rfl⟩, here⟩

theorem appendUntilCert_some {fuel : Nat} {cred cred' : Credential}
    (returned : appendUntilCert t fuel cred w = some (cred', w')) :
    ∃ lines rest, (∀ s ∈ lines, s ≠ certS) ∧ ahead t w = lines ++ certS :: rest ∧
      Reaches t w w' (certS :: rest) := by
  induction fuel generalizing cred w with
  | zero => cases returned
  | succ fuel ih =>
      cases here : ahead t w with
      | nil =>
          rw [appendUntilCert_past (ahead_nil here)] at returned
          cases returned
      | cons s rest =>
          have again : ahead t { w with sstr := s } = s :: rest := here
          simp only [appendUntilCert, getChildStr_ahead here, nextChildStr_ahead again] at returned
          split at returned
          · rename_i notCert
            obtain ⟨lines, rest', noCert, later, reaches⟩ := ih returned
            rw [ahead_succ here rfl] at later
            subst later
            refine ⟨s :: lines, rest', ?_, rfl, reaches.ahead, reaches.label, reaches.nulls⟩
            exact List.forall_mem_cons.mpr ⟨notCert, noCert⟩
          · rename_i isCert
            cases returned
            rw [not_ne_iff.mp isCert] at here ⊢
            exact ⟨[], rest, by simp, rfl, here, rfl, rfl⟩

/-! ## Certificates -/

theorem time_parts {fuel : Nat} {acc text : Str} (isTime : s = startTimeS ∨ s = stopTimeS)
    (here : ahead t w = rest) (returned : getClauseStr t fuel acc w = some (text, w')) :
    w'.nullChildren = w.nullChildren ∧ w'.idx ≤ t.children.length ∧
      ∀ ys, Parts (ahead t w') ys → Parts (s :: rest) ys := by
  obtain ⟨tokens, rest', noStop, found, reaches, inside⟩ := getClauseStr_some returned
  refine ⟨reaches.nulls, inside, fun ys parts => ?_⟩
  rw [reaches.ahead] at parts
  rw [← here, found]
  exact .time isTime noStop parts

/-- What a pass of `makeCertificate` that ended has read: a part, or a label it does not
    know, whose step over the next child has left the list. -/
theorem makeCertificateStep_some {fuel : Nat} {cert cert' : Certificate}
    (here : ahead t w = rest) (label : w.label = s) (notEnd : s ≠ endCertS)
    (returned : makeCertificateStep t fuel cert w = some (cert', w'))
    (inside : w.idx ≤ t.children.length) :
    w'.nullChildren = w.nullChildren ∧
      ((w'.idx ≤ t.children.length ∧ ∀ ys, Parts (ahead t w') ys → Parts (s :: rest) ys) ∨
        (rest = [] ∧ s ∉ certificateLabels ∧ w'.idx = t.children.length + 1)) := by
  subst label
  unfold makeCertificateStep at returned
  split at returned
  · rename_i isClause
    obtain ⟨words, rest', each, found, reaches⟩ := addClauses_some returned
    refine ⟨reaches.nulls, .inl ⟨Nat.le_of_lt (idx_lt_of_ahead reaches.ahead), fun ys parts => ?_⟩⟩
    rw [reaches.ahead] at parts
    rw [isClause, ← here, found]
    exact .clauses each parts
  split at returned
  · rename_i isStart
    obtain ⟨⟨text, w₁⟩, read, same⟩ := Option.bind_eq_some_iff.mp returned
    cases same
    obtain ⟨nulls, read⟩ := time_parts (.inl isStart) here read
    exact ⟨nulls, .inl read⟩
  split at returned
  · rename_i isStop
    obtain ⟨⟨text, w₁⟩, read, same⟩ := Option.bind_eq_some_iff.mp returned
    cases same
    obtain ⟨nulls, read⟩ := time_parts (.inr isStop) here read
    exact ⟨nulls, .inl read⟩
  split at returned
  · rename_i isKey
    obtain ⟨⟨text, w₁⟩, read, same⟩ := Option.bind_eq_some_iff.mp returned
    cases same
    obtain ⟨lines, rest', noStop, found, reaches, back⟩ := appendUntil_some (by decide) read
    refine ⟨reaches.nulls, .inl ⟨Nat.le_of_lt (idx_lt_of_ahead back), fun ys parts => ?_⟩⟩
    rw [back] at parts
    rw [isKey, ← here, found]
    exact .key noStop parts
  split at returned
  · rename_i isSignature
    obtain ⟨⟨text, w₁⟩, read, same⟩ := Option.bind_eq_some_iff.mp returned
    cases same
    obtain ⟨lines, rest', noStop, found, reaches, back⟩ := appendUntil_some (by decide) read
    have inside' : w'.idx ≤ t.children.length := Nat.le_of_pred_lt (idx_lt_of_ahead back)
    refine ⟨reaches.nulls, .inl ⟨inside', fun ys parts => ?_⟩⟩
    rw [reaches.ahead] at parts
    rw [isSignature, ← here, found]
    exact .signature noStop parts
  · rename_i notClause notStart notStop notKey notSignature
    cases returned
    have unknown : w.label ∉ certificateLabels := by
      simp [certificateLabels, notClause, notStart, notStop, notKey, notSignature, notEnd]
    refine ⟨rfl, ?_⟩
    cases rest with
    | nil =>
        refine .inr ⟨rfl, unknown, ?_⟩
        rw [Nat.le_antisymm inside (ahead_nil here)]
    | cons skipped rest =>
        refine .inl ⟨idx_lt_of_ahead here, fun ys parts => ?_⟩
        rw [ahead_succ here rfl] at parts
        exact .other unknown parts

theorem makeCertificate_some {fuel : Nat} {cert cert' : Certificate}
    (returned : makeCertificate t fuel cert w = some (cert', w'))
    (inside : w.idx ≤ t.children.length) :
    w'.nullChildren = w.nullChildren ∧
      ((∃ rest, Parts (ahead t w) (endCertS :: rest) ∧
          ahead t { w' with idx := w'.idx - 1 } = endCertS :: rest) ∨
        (Parts (ahead t w) [] ∧ w'.idx = t.children.length) ∨
        ((∃ label, Parts (ahead t w) [label] ∧ label ∉ certificateLabels) ∧
          w'.idx = t.children.length + 1)) := by
  induction fuel generalizing cert w with
  | zero => cases returned
  | succ fuel ih =>
      cases here : ahead t w with
      | nil =>
          have past := ahead_nil here
          simp only [makeCertificate, Nat.not_lt.mpr past, if_false] at returned
          cases returned
          exact ⟨rfl, .inr (.inl ⟨.none [], Nat.le_antisymm inside past⟩)⟩
      | cons s rest =>
          simp only [makeCertificate, idx_lt_of_ahead here, if_true, nextChildStr_ahead here]
            at returned
          split at returned
          · rename_i notEnd
            cases step : makeCertificateStep t fuel cert
                { w with idx := w.idx + 1, sstr := s, label := s } with
            | none =>
                rw [step] at returned
                cases returned
            | some result =>
                obtain ⟨cert₁, w₁⟩ := result
                rw [step] at returned
                obtain ⟨nulls, read⟩ := makeCertificateStep_some (ahead_succ here rfl) rfl notEnd
                  step (idx_lt_of_ahead here)
                rcases read with ⟨inside', extend⟩ | ⟨rfl, unknown, beyond⟩
                · obtain ⟨nulls', ended⟩ := ih returned inside'
                  refine ⟨nulls'.trans nulls, ?_⟩
                  rcases ended with ⟨rest', parts, back⟩ | ⟨parts, atEnd⟩ |
                    ⟨⟨label, parts, unknown⟩, beyond⟩
                  · exact .inl ⟨rest', extend _ parts, back⟩
                  · exact .inr (.inl ⟨extend _ parts, atEnd⟩)
                  · exact .inr (.inr ⟨⟨label, extend _ parts, unknown⟩, beyond⟩)
                · -- nothing is ahead any more, so the loop ended at once
                  cases fuel with
                  | zero => cases returned
                  | succ fuel =>
                      have past : ¬ w₁.idx < t.children.length := by omega
                      simp only [makeCertificate, past, if_false] at returned
                      cases returned
                      exact ⟨nulls, .inr (.inr ⟨⟨s, .none _, unknown⟩, beyond⟩)⟩
          · rename_i isEnd
            cases returned
            rw [not_ne_iff.mp isEnd] at here ⊢
            exact ⟨rfl, .inl ⟨rest, .none _, here⟩⟩

theorem makeCertificate_unknown {fuel : Nat} (cert : Certificate) (unknown : s ∉ certificateLabels)
    (here : ahead t w = s :: rest) :
    makeCertificate t (fuel + 1) cert w =
      makeCertificate t fuel cert { w with idx := w.idx + 1 + 1, sstr := s, label := s } := by
  simp only [certificateLabels, List.mem_cons, List.not_mem_nil, or_false, not_or] at unknown
  obtain ⟨notClause, notStart, notStop, notKey, notSignature, notEnd⟩ := unknown
  refine makeCertificate_next here notEnd ?_
  simp only [makeCertificateStep, notClause, notStart, notStop, notKey, notSignature, if_false]

theorem goes_on {fuel : Nat} {cert cert₁ : Certificate} {w₁ : Walker} {xs ys : List Str}
    (pass : makeCertificate t (fuel + 1) cert w = makeCertificate t fuel cert₁ w₁)
    (passes : Passes t w w₁ xs)
    (later : ∃ fuel' cert' w', makeCertificate t fuel cert₁ w₁ = makeCertificate t fuel' cert' w' ∧
      ys.length < fuel' ∧ Passes t w₁ w' ys) :
    ∃ fuel' cert' w', makeCertificate t (fuel + 1) cert w = makeCertificate t fuel' cert' w' ∧
      ys.length < fuel' ∧ Passes t w w' ys := by
  obtain ⟨fuel', cert', w', runs, more, passes'⟩ := later
  exact ⟨fuel', cert', w', pass.trans runs, more, passes'.ahead, passes'.inside,
    passes'.nulls.trans passes.nulls⟩

theorem makeCertificate_parts {xs ys : List Str} (parts : Parts xs ys) (fuel : Nat)
    (cert : Certificate) (w : Walker) (enough : xs.length < fuel) (here : ahead t w = xs)
    (inside : w.idx ≤ t.children.length) :
    ∃ fuel' cert' w', makeCertificate t fuel cert w = makeCertificate t fuel' cert' w' ∧
      ys.length < fuel' ∧ Passes t w w' ys := by
  induction parts generalizing fuel cert w with
  | none => exact ⟨fuel, cert, w, rfl, enough, here, inside, rfl⟩
  | clauses each _ ih =>
      simp only [List.length_cons, List.length_append] at enough ih
      obtain ⟨fuel, rfl⟩ : ∃ f, fuel = f + 1 := ⟨fuel - 1, by omega⟩
      obtain ⟨w₁, pass, passes⟩ := pass_clauses each fuel cert w (by omega) here
      exact goes_on pass passes (ih fuel _ w₁ (by omega) passes.ahead passes.inside)
  | time isTime noStop _ ih =>
      simp only [List.length_cons, List.length_append] at enough
      obtain ⟨fuel, rfl⟩ : ∃ f, fuel = f + 1 := ⟨fuel - 1, by omega⟩
      obtain ⟨cert₁, w₁, pass, passes⟩ : ∃ cert₁ w₁, makeCertificate t (fuel + 1) cert w =
          makeCertificate t fuel cert₁ w₁ ∧ Passes t w w₁ _ := by
        rcases isTime with rfl | rfl
        · exact ⟨_, pass_startTime noStop fuel cert w (by omega) here⟩
        · exact ⟨_, pass_stopTime noStop fuel cert w (by omega) here⟩
      exact goes_on pass passes (ih fuel _ w₁ (by omega) passes.ahead passes.inside)
  | key noStop _ ih =>
      simp only [List.length_cons, List.length_append] at enough ih
      obtain ⟨fuel, rfl⟩ : ∃ f, fuel = f + 1 := ⟨fuel - 1, by omega⟩
      obtain ⟨w₁, pass, passes⟩ := pass_publicKey noStop fuel cert w (by omega) here
      exact goes_on pass passes (ih fuel _ w₁ (by omega) passes.ahead passes.inside)
  | signature noStop _ ih =>
      simp only [List.length_cons, List.length_append] at enough
      obtain ⟨fuel, rfl⟩ : ∃ f, fuel = f + 1 := ⟨fuel - 1, by omega⟩
      obtain ⟨w₁, pass, passes⟩ := pass_signature noStop fuel cert w (by omega) here
      exact goes_on pass passes (ih fuel _ w₁ (by omega) passes.ahead passes.inside)
  | @other label skipped rest ys unknown _ ih =>
      simp only [List.length_cons] at enough
      obtain ⟨fuel, rfl⟩ : ∃ f, fuel = f + 1 := ⟨fuel - 1, by omega⟩
      have after : ahead t { w with idx := w.idx + 1 } = skipped :: rest := ahead_succ here rfl
      have pass := @makeCertificate_unknown t w label (skipped :: rest) fuel cert unknown here
      have passes : Passes t w { w with idx := w.idx + 1 + 1, sstr := label, label := label } rest :=
        ⟨ahead_succ after rfl, idx_lt_of_ahead after, rfl⟩
      exact goes_on pass passes (ih fuel _ _ (by omega) passes.ahead passes.inside)

/-! ## Credentials -/

theorem back_to_last {xs : List Str} {last : Str} (here : ahead t w = xs)
    (ends : xs.getLast? = some last) (atEnd : w'.idx = t.children.length) :
    ahead t { w' with idx := w'.idx - 1 } = [last] := by
  subst here
  rw [ahead, List.getLast?_drop] at ends
  split at ends
  · cases ends
  · obtain ⟨front, whole⟩ := List.getLast?_eq_some_iff.mp ends
    simp only [ahead, atEnd, whole, List.length_append, List.length_singleton,
      Nat.add_sub_cancel, List.drop_left]

theorem Parts.length_le {xs ys : List Str} (parts : Parts xs ys) : ys.length ≤ xs.length := by
  induction parts with
  | none => exact Nat.le_refl _
  | _ => simp only [List.length_cons, List.length_append] at *; omega

theorem Overruns.long {xs : List Str} (overruns : Overruns xs) : 2 ≤ xs.length := by
  induction overruns with
  | last parts | certificate parts =>
      have shorter := parts.length_le
      simp only [List.length_cons] at shorter ⊢
      omega
  | other | key => simp only [List.length_cons, List.length_append] at *; omega

/-- What a pass of `makeCredential` that ended has read. A certificate leaves the walker on
    `END_CERT`, on the last child, or beyond it, where it is given a null child. -/
theorem makeCredentialStep_some {fuel : Nat} {cred cred' : Credential}
    (here : ahead t w = s :: rest) (notEnd : s ≠ endS)
    (returned : makeCredentialStep t fuel cred { w with idx := w.idx + 1, sstr := s, label := s } =
      some (cred', w')) :
    (w'.nullChildren = w.nullChildren ∧ w'.label ≠ endS ∧
      (Walkable (ahead t w') → Walkable (s :: rest)) ∧
      (Overruns (ahead t w') → Overruns (s :: rest))) ∨
    (w'.nullChildren = w.nullChildren ∧ ∃ last, ahead t w' = [last] ∧ w'.label = last ∧
      (last ≠ pkHeaderS ∧ last ≠ certS → Walkable (s :: rest))) ∨
    (w.nullChildren < w'.nullChildren ∧ ahead t w' = [] ∧ Overruns (s :: rest)) := by
  have after : ahead t { w with idx := w.idx + 1, sstr := s, label := s } = rest :=
    ahead_succ here rfl
  unfold makeCredentialStep at returned
  split at returned
  · rename_i isKey
    obtain ⟨lines, rest', noCert, found, reaches⟩ := appendUntilCert_some returned
    have shape : s :: rest = pkHeaderS :: (lines ++ certS :: rest') := by
      rw [show s = pkHeaderS from isKey, ← after, found]
    refine .inl ⟨reaches.nulls, ?_, fun next => ?_, fun next => ?_⟩
    · rw [reaches.label]
      exact notEnd
    · rw [reaches.ahead] at next
      rw [shape]
      exact .key noCert next
    · rw [reaches.ahead] at next
      rw [shape]
      exact .key noCert next
  split at returned
  · rename_i isCert
    obtain ⟨⟨cert, w₁⟩, made, same⟩ := Option.bind_eq_some_iff.mp returned
    cases same
    obtain ⟨nulls, ended⟩ := makeCertificate_some made (idx_lt_of_ahead here)
    rw [after] at ended
    obtain rfl : s = certS := isCert
    rcases ended with ⟨rest', parts, back⟩ | ⟨parts, atEnd⟩ | ⟨⟨label, parts, unknown⟩, beyond⟩
    · have read := getChildStr_ahead back
      simp only at read
      simp only [read]
      have same : ahead t { w₁ with idx := w₁.idx - 1, sstr := endCertS, label := endCertS } =
          endCertS :: rest' := back
      refine .inl ⟨nulls, by decide, fun next => ?_, fun next => ?_⟩
      · rw [same] at next
        cases next with
        | other _ next => exact .certificate parts next
      · rw [same] at next
        cases next with
        | other _ next => exact .certificate parts next
    · obtain ⟨last, ends⟩ : ∃ last, (certS :: rest).getLast? = some last :=
        ⟨_, List.getLast?_eq_some_getLast (List.cons_ne_nil _ _)⟩
      have back := back_to_last here ends atEnd
      have read := getChildStr_ahead back
      simp only at read
      simp only [read]
      refine .inr (.inl ⟨nulls, last, back, rfl, fun quiet => ?_⟩)
      cases rest with
      | nil =>
          cases ends
          exact absurd rfl quiet.2
      | cons x rest => exact .unclosed parts (by simpa using ends) quiet
    · have past : t.children.length ≤ w₁.idx - 1 := by omega
      have read := getChildStr_past (t := t) (w := { w₁ with idx := w₁.idx - 1 }) past
      simp only at read nulls
      simp only [read]
      exact .inr (.inr ⟨by omega, ahead_of_length_le past, .last parts unknown⟩)
  · rename_i notKey notCert
    cases returned
    have unknown : s ∉ [pkHeaderS, certS, endS] := by
      simp only [List.mem_cons, List.not_mem_nil, or_false, not_or]
      exact ⟨notKey, notCert, notEnd⟩
    refine .inl ⟨rfl, notEnd, fun next => ?_, fun next => ?_⟩
    · rw [after] at next
      exact .other unknown next
    · rw [after] at next
      exact .other unknown next

theorem makeCredential_stopped {fuel : Nat} {cred cred' : Credential}
    (stops : w.label = endS ∨ ahead t w = [])
    (returned : makeCredential t fuel cred w = some (cred', w')) : w' = w := by
  cases fuel with
  | zero => cases returned
  | succ fuel =>
      rw [makeCredential, if_neg] at returned
      · cases returned
        rfl
      · rintro ⟨more, notDone⟩
        exact stops.elim notDone fun past => Nat.not_lt.mpr (ahead_nil past) more

theorem Walkable.quiet {last : Str} (walkable : Walkable [last]) :
    last ≠ pkHeaderS ∧ last ≠ certS := by
  generalize single : [last] = xs at walkable
  cases walkable with
  | none => cases single
  | done =>
      cases single
      decide
  | other unknown =>
      cases single
      simp only [List.mem_cons, List.not_mem_nil, or_false, not_or] at unknown
      exact ⟨unknown.1, unknown.2.1⟩
  | key => simp at single
  | certificate parts =>
      cases single
      cases parts
  | unclosed parts ends =>
      cases single
      cases ends

/-- A walk over a credential that ended went over a walkable list, or met a null child at the
    end of one that it overran. -/
theorem makeCredential_some {fuel : Nat} {cred cred' : Credential} (goesOn : w.label ≠ endS)
    (returned : makeCredential t fuel cred w = some (cred', w')) :
    (w'.nullChildren = w.nullChildren ∧ Walkable (ahead t w)) ∨
      (w.nullChildren < w'.nullChildren ∧ Overruns (ahead t w)) := by
  induction fuel generalizing cred w with
  | zero => cases returned
  | succ fuel ih =>
      cases here : ahead t w with
      | nil =>
          simp only [makeCredential, Nat.not_lt.mpr (ahead_nil here), false_and, if_false]
            at returned
          cases returned
          exact .inl ⟨rfl, .none⟩
      | cons s rest =>
          simp only [makeCredential, idx_lt_of_ahead here, goesOn, true_and, ne_eq,
            not_false_eq_true, if_true, nextChildStr_ahead here] at returned
          cases step : makeCredentialStep t fuel cred
              { w with idx := w.idx + 1, sstr := s, label := s } with
          | none =>
              rw [step] at returned
              cases returned
          | some result =>
              obtain ⟨cred₁, w₁⟩ := result
              rw [step] at returned
              by_cases isEnd : s = endS
              · subst isEnd
                refine .inl ⟨?_, .done⟩
                simp only [makeCredentialStep, show endS ≠ pkHeaderS by decide,
                  show endS ≠ certS by decide, if_false] at step
                cases step
                rw [makeCredential_stopped (.inl rfl) returned]
              · rcases makeCredentialStep_some here isEnd step with
                  ⟨nulls, notDone, walks, overruns⟩ | ⟨nulls, last, back, isLast, quiet⟩ |
                  ⟨nulls, past, overruns⟩
                · rcases ih notDone returned with ⟨same, next⟩ | ⟨more, next⟩
                  · exact .inl ⟨same.trans nulls, walks next⟩
                  · exact .inr ⟨nulls ▸ more, overruns next⟩
                · by_cases done : w₁.label = endS
                  · obtain rfl := makeCredential_stopped (.inl done) returned
                    refine .inl ⟨nulls, quiet ?_⟩
                    rw [← isLast, done]
                    decide
                  · rcases ih done returned with ⟨same, next⟩ | ⟨-, next⟩
                    · rw [back] at next
                      exact .inl ⟨same.trans nulls, quiet next.quiet⟩
                    · rw [back] at next
                      exact absurd next.long (by simp)
                · obtain rfl := makeCredential_stopped (.inr past) returned
                  exact .inr ⟨nulls, overruns⟩

theorem makeCredential_other {fuel : Nat} {cred : Credential} (goesOn : w.label ≠ endS)
    (notKey : s ≠ pkHeaderS) (notCert : s ≠ certS) (here : ahead t w = s :: rest) :
    makeCredential t (fuel + 1) cred w =
      makeCredential t fuel cred { w with idx := w.idx + 1, sstr := s, label := s } := by
  refine makeCredential_next here goesOn ?_
  simp only [makeCredentialStep, notKey, notCert, if_false]

theorem makeCredentialStep_certificate {fuel : Nat} (cred : Credential) {cert : Certificate}
    {w₁ : Walker} {last : Str} (isCert : w.label = certS)
    (made : makeCertificate t fuel .empty w = some (cert, w₁))
    (back : ahead t { w₁ with idx := w₁.idx - 1 } = last :: rest) :
    makeCredentialStep t fuel cred w = some (cred.addCertificate cert,
      { w₁ with idx := w₁.idx - 1, sstr := last, label := last }) := by
  simp only [makeCredentialStep, isCert, show certS ≠ pkHeaderS by decide, if_true, if_false, made,
    Option.bind_eq_bind, Option.bind_some, getChildStr_ahead back]
  rfl

/-- A pass of the loop of `makeCredential` leaves `rest` ahead, and fuel for it. -/
def Continues (t : Tree) (fuel : Nat) (cred : Credential) (w : Walker) (rest : List Str) : Prop :=
  ∃ fuel' cred' w', makeCredential t fuel cred w = makeCredential t fuel' cred' w' ∧
    rest.length < fuel' ∧ ahead t w' = rest ∧ w'.label ≠ endS ∧ w'.nullChildren = w.nullChildren

section Passes

variable {fuel : Nat} {lines body : List Str} (cred : Credential) (goesOn : w.label ≠ endS)

include goesOn

theorem continues_other (unknown : s ∉ [pkHeaderS, certS, endS])
    (enough : (s :: rest).length < fuel) (here : ahead t w = s :: rest) :
    Continues t fuel cred w rest := by
  simp only [List.length_cons] at enough
  obtain ⟨fuel, rfl⟩ : ∃ f, fuel = f + 1 := ⟨fuel - 1, by omega⟩
  simp only [List.mem_cons, List.not_mem_nil, or_false, not_or] at unknown
  obtain ⟨notKey, notCert, notEnd⟩ := unknown
  exact ⟨fuel, cred, { w with idx := w.idx + 1, sstr := s, label := s },
    makeCredential_other goesOn notKey notCert here, by omega, ahead_succ here rfl, notEnd, rfl⟩

theorem continues_key (ends : ∀ s ∈ lines, s ≠ certS)
    (enough : (pkHeaderS :: (lines ++ certS :: rest)).length < fuel)
    (here : ahead t w = pkHeaderS :: (lines ++ certS :: rest)) :
    Continues t fuel cred w (certS :: rest) := by
  simp only [List.length_cons, List.length_append] at enough
  obtain ⟨fuel, rfl⟩ : ∃ f, fuel = f + 1 := ⟨fuel - 1, by omega⟩
  obtain ⟨w₁, read, reaches⟩ := appendUntilCert_lines ends fuel (cred.appendToPubKey pkHeaderS)
    { w with idx := w.idx + 1, sstr := pkHeaderS, label := pkHeaderS } (by omega)
    (ahead_succ here rfl)
  have pass := makeCredential_next here goesOn ((if_pos rfl).trans read)
  refine ⟨fuel, _, w₁, pass, ?_, reaches.ahead, ?_, reaches.nulls⟩
  · simp only [List.length_cons]
    omega
  · exact reaches.label ▸ show pkHeaderS ≠ endS by decide

theorem continues_certificate (parts : Parts body (endCertS :: rest))
    (enough : (certS :: body).length < fuel) (here : ahead t w = certS :: body) :
    Continues t fuel cred w rest := by
  have shorter := parts.length_le
  simp only [List.length_cons] at enough shorter
  obtain ⟨fuel, rfl⟩ : ∃ f, fuel = f + 2 := ⟨fuel - 2, by omega⟩
  obtain ⟨fuel', cert', w₁, runs, more, passes⟩ := makeCertificate_parts parts (fuel + 1) .empty
    { w with idx := w.idx + 1, sstr := certS, label := certS } (by omega) (ahead_succ here rfl)
    (idx_lt_of_ahead here)
  obtain ⟨fuel', rfl⟩ : ∃ f, fuel' = f + 1 := ⟨fuel' - 1, by omega⟩
  have made := runs.trans (makeCertificate_end passes.ahead)
  have back : ahead t { w₁ with idx := w₁.idx + 1 - 1, sstr := endCertS } = endCertS :: rest :=
    passes.ahead
  have pass := makeCredential_next here goesOn (makeCredentialStep_certificate cred rfl made back)
  have onward := @makeCredential_other t
    { w₁ with idx := w₁.idx + 1 - 1, sstr := endCertS, label := endCertS } _ _ fuel
    (cred.addCertificate cert') (show endCertS ≠ endS by decide) (by decide) (by decide) back
  exact ⟨fuel, _, { w₁ with idx := w₁.idx + 1 - 1 + 1, sstr := endCertS, label := endCertS },
    pass.trans onward, by omega, ahead_succ back rfl, show endCertS ≠ endS by decide, passes.nulls⟩

end Passes

theorem makeCredential_done {w : Walker} (stops : ahead t w = [] ∨ w.label = endS) (fuel : Nat)
    (cred : Credential) : makeCredential t (fuel + 1) cred w = some (cred, w) := by
  rcases stops with past | isEnd
  · simp only [makeCredential, Nat.not_lt.mpr (ahead_nil past), false_and, if_false]
  · simp only [makeCredential, isEnd, ne_eq, not_true_eq_false, and_false, if_false]

theorem makeCredential_walkable {xs : List Str} (walkable : Walkable xs) (fuel : Nat)
    (cred : Credential) (w : Walker) (goesOn : w.label ≠ endS) (enough : xs.length < fuel)
    (here : ahead t w = xs) :
    ∃ cred' w', makeCredential t fuel cred w = some (cred', w') ∧
      w'.nullChildren = w.nullChildren := by
  induction walkable generalizing fuel cred w with
  | none =>
      obtain ⟨fuel, rfl⟩ : ∃ f, fuel = f + 1 := ⟨fuel - 1, by simp at enough; omega⟩
      exact ⟨cred, w, makeCredential_done (.inl here) fuel cred, rfl⟩
  | done =>
      obtain ⟨fuel, rfl⟩ : ∃ f, fuel = f + 2 := ⟨fuel - 2, by simp at enough; omega⟩
      exact ⟨cred, _, makeCredential_end goesOn here, rfl⟩
  | other unknown _ ih =>
      obtain ⟨fuel', cred₁, w₁, pass, more, next, goesOn', same⟩ :=
        continues_other cred goesOn unknown enough here
      obtain ⟨cred', w', runs, nulls⟩ := ih fuel' cred₁ w₁ goesOn' more next
      exact ⟨cred', w', pass.trans runs, nulls.trans same⟩
  | key ends _ ih =>
      obtain ⟨fuel', cred₁, w₁, pass, more, next, goesOn', same⟩ :=
        continues_key cred goesOn ends enough here
      obtain ⟨cred', w', runs, nulls⟩ := ih fuel' cred₁ w₁ goesOn' more next
      exact ⟨cred', w', pass.trans runs, nulls.trans same⟩
  | certificate parts _ ih =>
      obtain ⟨fuel', cred₁, w₁, pass, more, next, goesOn', same⟩ :=
        continues_certificate cred goesOn parts enough here
      obtain ⟨cred', w', runs, nulls⟩ := ih fuel' cred₁ w₁ goesOn' more next
      exact ⟨cred', w', pass.trans runs, nulls.trans same⟩
  | @unclosed body last parts ends quiet =>
      have some_child : body ≠ [] := by
        rintro rfl
        cases ends
      have long := List.length_pos_iff.mpr some_child
      simp only [List.length_cons] at enough
      obtain ⟨fuel, rfl⟩ : ∃ f, fuel = f + 3 := ⟨fuel - 3, by omega⟩
      have after : ahead t { w with idx := w.idx + 1, sstr := certS, label := certS } = body :=
        ahead_succ here rfl
      obtain ⟨fuel', cert', w₁, runs, more, passes⟩ := makeCertificate_parts parts (fuel + 2) .empty
        { w with idx := w.idx + 1, sstr := certS, label := certS } (by omega) after
        (idx_lt_of_ahead here)
      obtain ⟨fuel', rfl⟩ : ∃ f, fuel' = f + 1 := ⟨fuel' - 1, by omega⟩
      have past := ahead_nil passes.ahead
      have atEnd : w₁.idx = t.children.length := Nat.le_antisymm passes.inside past
      have made : makeCertificate t (fuel + 2) .empty
          { w with idx := w.idx + 1, sstr := certS, label := certS } = some (cert', w₁) := by
        rw [runs]
        simp only [makeCertificate, Nat.not_lt.mpr past, if_false]
      have back := back_to_last after ends atEnd
      have pass := makeCredential_next here goesOn
        (makeCredentialStep_certificate cred rfl made back)
      by_cases isEnd : last = endS
      · exact ⟨_, _, pass.trans (makeCredential_done (.inr isEnd) (fuel + 1) _), passes.nulls⟩
      · have onward := @makeCredential_other t
          { w₁ with idx := w₁.idx - 1, sstr := last, label := last } _ _ (fuel + 1)
          (cred.addCertificate cert') isEnd quiet.1 quiet.2 back
        exact ⟨_, _, pass.trans (onward.trans
          (makeCredential_done (.inl (ahead_succ back rfl)) fuel _)), passes.nulls⟩

theorem makeCredential_overruns {xs : List Str} (overruns : Overruns xs) (fuel : Nat)
    (cred : Credential) (w : Walker) (goesOn : w.label ≠ endS) (enough : xs.length < fuel)
    (here : ahead t w = xs) : ∃ cred' w', makeCredential t fuel cred w = some (cred', w') := by
  induction overruns generalizing fuel cred w with
  | @last body label parts unknown =>
      have shorter := parts.length_le
      simp only [List.length_cons] at enough shorter
      obtain ⟨fuel, rfl⟩ : ∃ f, fuel = f + 3 := ⟨fuel - 3, by omega⟩
      obtain ⟨fuel', cert', w₁, runs, more, passes⟩ := makeCertificate_parts parts (fuel + 2) .empty
        { w with idx := w.idx + 1, sstr := certS, label := certS } (by omega) (ahead_succ here rfl)
        (idx_lt_of_ahead here)
      simp only [List.length_singleton] at more
      obtain ⟨fuel', rfl⟩ : ∃ f, fuel' = f + 2 := ⟨fuel' - 2, by omega⟩
      have after : ahead t { w₁ with idx := w₁.idx + 1 } = [] := ahead_succ passes.ahead rfl
      have past := ahead_nil after
      simp only at past
      have made : makeCertificate t (fuel + 2) .empty
          { w with idx := w.idx + 1, sstr := certS, label := certS } =
          some (cert', { w₁ with idx := w₁.idx + 1 + 1, sstr := label, label := label }) := by
        rw [runs, makeCertificate_unknown cert' unknown passes.ahead]
        simp only [makeCertificate, Nat.not_lt.mpr (Nat.le_succ_of_le past), if_false]
      have null := getChildStr_past (t := t)
        (w := { w₁ with idx := w₁.idx + 1, sstr := label, label := label }) past
      simp only at null
      have step : makeCredentialStep t (fuel + 2) cred
          { w with idx := w.idx + 1, sstr := certS, label := certS } =
          some (cred.addCertificate cert', { w₁ with
            idx := w₁.idx + 1, sstr := [], label := [], nullChildren := w₁.nullChildren + 1 }) := by
        simp only [makeCredentialStep, show certS ≠ pkHeaderS by decide, if_true, if_false, made,
          Option.bind_eq_bind, Option.bind_some, Nat.add_sub_cancel, null]
        rfl
      have pass := makeCredential_next here goesOn step
      have ended : ahead t { w₁ with
          idx := w₁.idx + 1, sstr := [], label := [], nullChildren := w₁.nullChildren + 1 } = [] :=
        after
      exact ⟨_, _, pass.trans (makeCredential_done (.inl ended) (fuel + 1) _)⟩
  | other unknown _ ih =>
      obtain ⟨fuel', cred₁, w₁, pass, more, next, goesOn', -⟩ :=
        continues_other cred goesOn unknown enough here
      obtain ⟨cred', w', runs⟩ := ih fuel' cred₁ w₁ goesOn' more next
      exact ⟨cred', w', pass.trans runs⟩
  | key ends _ ih =>
      obtain ⟨fuel', cred₁, w₁, pass, more, next, goesOn', -⟩ :=
        continues_key cred goesOn ends enough here
      obtain ⟨cred', w', runs⟩ := ih fuel' cred₁ w₁ goesOn' more next
      exact ⟨cred', w', pass.trans runs⟩
  | certificate parts _ ih =>
      obtain ⟨fuel', cred₁, w₁, pass, more, next, goesOn', -⟩ :=
        continues_certificate cred goesOn parts enough here
      obtain ⟨cred', w', runs⟩ := ih fuel' cred₁ w₁ goesOn' more next
      exact ⟨cred', w', pass.trans runs⟩

/-! ## The whole walk -/

/-- The walk ends after finitely many passes, with the credential that `getCredential`
    returns, and has asked for no child beyond the last. -/
def WalkEnds (t : Tree) (mktime : Tm → Int) (now : Tm) : Prop :=
  ∃ fuel cred w, makeCredential t fuel .empty (start t) = some (cred, w) ∧ w.nullChildren = 0 ∧
    getCredential t mktime now fuel = some (some (cred.finalize mktime now))

theorem ends_of_walkable (root : t.text = credentialS) (mktime : Tm → Int) (now : Tm)
    (walkable : Walkable t.children) : WalkEnds t mktime now := by
  obtain ⟨cred, w, made, nulls⟩ := makeCredential_walkable walkable (t.children.length + 1) .empty
    (start t) (show ([] : Str) ≠ endS by decide) (Nat.lt_succ_self _) rfl
  exact ⟨_, cred, w, made, nulls, getCredential_made root made⟩

theorem walkable_of_ends {mktime : Tm → Int} {now : Tm} (ends : WalkEnds t mktime now) :
    Walkable t.children := by
  obtain ⟨fuel, cred, w, made, nulls, -⟩ := ends
  rcases makeCredential_some (show ([] : Str) ≠ endS by decide) made with ⟨-, walkable⟩ | ⟨more, -⟩
  · exact walkable
  · exact absurd nulls (Nat.ne_of_gt more)

/-- The walk ends, within the children, exactly for the walkable lists. -/
theorem walkEnds_iff_walkable (children : List Str) (mktime : Tm → Int) (now : Tm) :
    WalkEnds { text := credentialS, children } mktime now ↔ Walkable children :=
  ⟨walkable_of_ends, ends_of_walkable (t := ⟨credentialS, children⟩) rfl mktime now⟩

/-- `getCredential` returns a credential exactly for a root `CREDENTIAL` over a list that is
    walkable or overrun. -/
theorem getCredential_returns_iff (t : Tree) (mktime : Tm → Int) (now : Tm) :
    (∃ fuel cred, getCredential t mktime now fuel = some (some cred)) ↔
      t.text = credentialS ∧ (Walkable t.children ∨ Overruns t.children) := by
  have begins : (start t).label ≠ endS := show ([] : Str) ≠ endS by decide
  constructor
  · rintro ⟨fuel, cred, returned⟩
    by_cases root : t.text = credentialS
    · cases made : makeCredential t fuel .empty (start t) with
      | none =>
          unfold start at made
          rw [root] at made
          simp [getCredential, root, made] at returned
      | some result =>
          obtain ⟨cred', w⟩ := result
          exact ⟨root, (makeCredential_some begins made).imp And.right And.right⟩
    · simp [getCredential, root] at returned
  · rintro ⟨root, walkable | overruns⟩
    · obtain ⟨cred, w, made, -⟩ := makeCredential_walkable walkable (t.children.length + 1) .empty
        (start t) begins (Nat.lt_succ_self _) rfl
      exact ⟨_, _, getCredential_made root made⟩
    · obtain ⟨cred, w, made⟩ := makeCredential_overruns overruns (t.children.length + 1) .empty
        (start t) begins (Nat.lt_succ_self _) rfl
      exact ⟨_, _, getCredential_made root made⟩

/-! ## The children of a credential -/

open Grammar

theorem certificate_walkable (c : Grammar.Certificate)
    (noMarker : ∀ cl ∈ c.clauses, cl.tokens.head? ≠ some startTimeS) (next : Walkable rest) :
    Walkable (c.children ++ rest) := by
  obtain ⟨start, startTokens, startEnds, -⟩ := timeTuple_tokens c.start
  obtain ⟨stop, stopTokens, stopEnds, -⟩ := timeTuple_tokens c.stop
  have each : ∀ word ∈ c.clauses.map Clause.tokens, ClauseWord word := by
    intro word member
    obtain ⟨cl, isClause, rfl⟩ := List.mem_map.mp member
    exact Clause.clauseWord (noMarker cl isClause)
  rw [certificate_parts c startTokens stopTokens rest]
  refine .certificate ?_ next
  apply Parts.clauses each
  apply Parts.time (.inl rfl) startEnds
  apply Parts.time (.inr rfl) stopEnds
  apply Parts.key (keyLines_ne_sigS c.key)
  exact .signature (lines_ne (c := ' ') (by decide) (by decide) c.signature) (.none _)

theorem credential_walkable (c : Grammar.Credential) (someCertificate : c.certificates ≠ [])
    (noCert : ∀ line ∈ c.key, line.chars ≠ certS)
    (noMarker : ∀ cert ∈ c.certificates, ∀ cl ∈ cert.clauses, cl.tokens.head? ≠ some startTimeS) :
    Walkable c.children := by
  have certificates : ∀ certs : List Grammar.Certificate,
      (∀ cert ∈ certs, ∀ cl ∈ cert.clauses, cl.tokens.head? ≠ some startTimeS) →
      Walkable (certs.flatMap Grammar.Certificate.children ++ [endS]) := by
    intro certs clean
    induction certs with
    | nil => exact .done
    | cons cert certs ih =>
        rw [List.flatMap_cons, List.append_assoc]
        apply certificate_walkable cert (clean cert List.mem_cons_self)
        exact ih fun x member => clean x (List.mem_cons_of_mem _ member)
  have lines := keyLines_ne_certS noCert
  have walkable := certificates c.certificates noMarker
  cases certs : c.certificates with
  | nil => exact absurd certs someCertificate
  | cons first more =>
      obtain ⟨tail, same⟩ : ∃ tail, c.certificates.flatMap Grammar.Certificate.children ++ [endS] =
          certS :: tail := by
        rw [certs]
        exact ⟨_, rfl⟩
      rw [same] at walkable
      have whole := Walkable.key lines walkable
      rw [← same] at whole
      simpa [Grammar.Credential.children, publicKeyChildren] using whole

/-- A credential without certificates, as the grammar allows it, is walked for ever. -/
theorem no_certificate_not_walkable (c : Grammar.Credential) (none : c.certificates = [])
    (noCert : ∀ line ∈ c.key, line.chars ≠ certS) : ¬ Walkable c.children := by
  have absent : certS ∉ c.key.map Text.chars ++ [pkEndS, endS] := by
    intro member
    rcases List.mem_append.mp member with inKey | footer
    · obtain ⟨line, isLine, same⟩ := List.mem_map.mp inKey
      exact noCert line isLine same
    · revert footer
      decide
  have shape : c.children = pkHeaderS :: (c.key.map Text.chars ++ [pkEndS, endS]) := by
    simp [Grammar.Credential.children, publicKeyChildren, none]
  rw [shape]
  generalize rest : c.key.map Text.chars ++ [pkEndS, endS] = xs at absent
  intro walkable
  generalize same : pkHeaderS :: xs = ys at walkable
  cases walkable with
  | none => cases same
  | done => exact absurd (List.cons.inj same).1 (by decide)
  | other unknown =>
      refine unknown ?_
      rw [← (List.cons.inj same).1]
      decide
  | key =>
      refine absent ?_
      rw [(List.cons.inj same).2]
      exact List.mem_append_right _ List.mem_cons_self
  | certificate => exact absurd (List.cons.inj same).1 (by decide)
  | unclosed => exact absurd (List.cons.inj same).1 (by decide)

/-- A key of one line, and nothing certified. -/
def keyOnly : Grammar.Credential := { key := [.of "MIGdMA0"], certificates := [] }

theorem keyOnly_never_ends :
    ¬ WalkEnds { text := credentialS, children := keyOnly.children } CLib.epoch.mktime
      (CLib.epoch.gmtime 0) :=
  fun ends => no_certificate_not_walkable keyOnly rfl (by decide) (walkable_of_ends ends)

end RepositoryManager.AstWalker
