import Mathlib.Data.List.Forall2
import RepositoryManager.Lib.Paren
import RepositoryManager.Quoting
import RepositoryManager.Verification

/-! # Confinement

Whatever a clause is made of, its transform is a statement of the key that signed it.
The transform may cut a clause in the wrong places, but it never loses or adds an
unmatched parenthesis: what `says(` opens is closed in the same line.
-/

namespace RepositoryManager

open ByteString Grammar Interaction Interaction.Prog Paren

/-! ## The parentheses of a clause -/

theorem Grammar.Text.plain (t : Text) : Plain t.chars := ⟨t.not_mem rfl, t.not_mem rfl⟩

theorem restArgs_plain (args : List Text) : Plain (restArgs args) :=
  ⟨restArgs_not_mem rfl (by decide) args, restArgs_not_mem rfl (by decide) args⟩

theorem Grammar.Predicate.balanced (p : Predicate) : Balanced p.text := by
  have split : p.text = p.name.chars ++ '(' :: ((p.arg.chars ++ restArgs p.args) ++ [')']) := by
    simp [p.text_eq]
  rw [split]
  exact p.name.plain.balanced.append (p.arg.plain.append (restArgs_plain p.args)).balanced.wrap

theorem Grammar.Literal.balanced (l : Literal) : Balanced l.text := by
  cases l with
  | predicate p => exact p.balanced
  | saysThat speaker p =>
      have comma : Plain [','] := by decide
      have split : (Literal.saysThat speaker p).text =
          "says".toList ++ '(' :: ((speaker.chars ++ [','] ++ p.text) ++ [')']) := by
        simp [Literal.text_saysThat]
      have word : Plain "says".toList := by decide
      rw [split]
      exact word.balanced.append
        (((speaker.plain.balanced.append comma.balanced).append p.balanced).wrap)

theorem bodyText_balanced (first : Literal) (more : List Literal) : Balanced (bodyText first more) := by
  induction more generalizing first with
  | nil =>
      rw [bodyText_nil]
      exact first.balanced
  | cons m ms ih =>
      have comma : Plain [','] := by decide
      rw [bodyText_cons, ← List.singleton_append, ← List.append_assoc]
      exact (first.balanced.append comma.balanced).append (ih m)

theorem Grammar.Clause.text_balanced (c : Clause) : ∃ s, c.text = s ++ ['.'] ∧ Balanced s := by
  cases c with
  | fact head => exact ⟨_, Clause.text_fact head, head.balanced⟩
  | rule head first more =>
      have sign : Plain [':', '-'] := by decide
      refine ⟨head.text ++ [':', '-'] ++ bodyText first more, by simp [Clause.text_rule], ?_⟩
      exact (head.balanced.append sign.balanced).append (bodyText_balanced first more)

/-! ## The parentheses of a transform -/

theorem getClauses_depth (s : Str) : depth (getClauses (s ++ ['.'])).flatten = depth s := by
  induction bound : s.length using Nat.strong_induction_on generalizing s with
  | _ n ih =>
      by_cases inside : [')', ','] <:+: s ++ ['.']
      · obtain ⟨i, found⟩ := Option.isSome_iff_exists.mp ((find_isSome_iff _ _).mpr inside)
        obtain ⟨piece, after, cut, -, absent⟩ := find_pair_split found
        rcases List.eq_nil_or_concat after with rfl | ⟨rest, c, rfl⟩
        · have last : s ++ ['.'] = (piece ++ [')']) ++ [','] := by simpa using cut
          cases (List.append_inj' last rfl).2
        · have split : s ++ ['.'] = (piece ++ ')' :: ',' :: rest) ++ [c] := by simpa using cut
          obtain ⟨rfl, same⟩ := List.append_inj' split rfl
          cases same
          have comma : weight ',' = 0 := by decide
          have shorter : rest.length < n := by
            rw [← bound]
            simp only [List.length_append, List.length_cons]
            omega
          rw [cut, List.concat_eq_append, getClauses_cut absent, List.flatten_cons, depth_append,
            ih rest.length shorter rest rfl]
          simp only [depth_append, depth_cons, depth_nil, comma]
          omega
      · rw [getClauses_last inside]
        simp

theorem getClauses_chars {tmp : Str} : ∀ c ∈ getClauses tmp, ∀ d ∈ c, d ∈ tmp := by
  fun_induction getClauses tmp with
  | case1 tmp pos found ih =>
      intro c member d inside
      rcases List.mem_cons.mp member with rfl | later
      · exact List.mem_of_mem_take inside
      · exact List.mem_of_mem_drop (ih c later d inside)
  | case2 tmp absent =>
      intro c member d inside
      rw [List.mem_singleton.mp member] at inside
      exact List.dropLast_subset _ inside

theorem saysText_depth {keyDigest : Str} (plain : Plain keyDigest) (t : Str) :
    depth (saysText keyDigest t) = depth t := by
  have closes : depth [')'] = -1 := by decide
  have around : ∀ opens comma : Str, depth opens = 1 → depth comma = 0 →
      depth (opens ++ keyDigest ++ comma ++ t ++ [')']) = depth t := by
    intro opens comma one zero
    simp only [depth_append, one, zero, closes, plain.depth_eq]
    omega
  exact around _ _ (by decide) (by decide)

theorem wrapClauses_depth {keyDigest : Str} (plain : Plain keyDigest) (cs : List Str) :
    depth (wrapClauses ("says(".toList ++ keyDigest) cs) = depth cs.flatten := by
  have quoted : ∀ ts : List Str, depth (ts.map (saysText keyDigest)).flatten = depth ts.flatten := by
    intro ts
    induction ts with
    | nil => rfl
    | cons t ts ih =>
        rw [List.map_cons, List.flatten_cons, List.flatten_cons, depth_append, depth_append, ih,
          saysText_depth plain]
  have comma : depth [','] = 0 := by decide
  have stop : depth ['.'] = 0 := by decide
  cases cs with
  | nil => rfl
  | cons c cs =>
      rw [wrapClauses_eq, depth_append, stop, Int.add_zero, depth_intercalate comma, quoted]

/-! ## The form of a line -/

theorem saysText_append (keyDigest t rest : Str) :
    saysText keyDigest t ++ rest =
      "says(".toList ++ (keyDigest ++ (",".toList ++ (t ++ ')' :: rest))) := by
  have shape : ∀ opens comma : Str, opens ++ keyDigest ++ comma ++ t ++ [')'] ++ rest =
      opens ++ (keyDigest ++ (comma ++ (t ++ ')' :: rest))) := by simp
  exact shape _ _

theorem binderClause_says {keyDigest s line : Str} (plain : Plain keyDigest) (balanced : Balanced s)
    (transformed : binderClause keyDigest (s ++ ['.']) = some line) :
    ∃ t rest, line = saysText keyDigest t ++ rest ∧ Balanced t := by
  by_cases inside : [':', '-'] <:+: s ++ ['.']
  · obtain ⟨i, found⟩ := Option.isSome_iff_exists.mp ((find_isSome_iff _ _).mpr inside)
    obtain ⟨head, after, cut, -, absent⟩ := find_pair_split found
    rcases List.eq_nil_or_concat after with rfl | ⟨body, c, rfl⟩
    · have last : s ++ ['.'] = (head ++ [':']) ++ ['-'] := by simpa using cut
      cases (List.append_inj' last rfl).2
    have split : s ++ ['.'] = (head ++ ':' :: '-' :: body) ++ [c] := by simpa using cut
    obtain ⟨whole, same⟩ := List.append_inj' split rfl
    cases same
    rw [cut, List.concat_eq_append, binderClause_rule keyDigest absent] at transformed
    have sign : depth ":-".toList = 0 := by decide
    have stop : depth ['.'] = 0 := by decide
    have close : weight ')' = -1 := by decide
    have total : depth head + depth body = 0 := by
      have pair : ∀ r : Str, depth (':' :: '-' :: r) = depth r := by
        intro r
        rw [depth_cons, depth_cons, weight_other (by decide) (by decide),
          weight_other (by decide) (by decide), Int.zero_add, Int.zero_add]
      have closed := balanced.closed
      rw [whole, depth_append, pair] at closed
      exact closed
    have bodyDepth : ∀ b : Bool, depth (if b then body ++ ['.'] else wrapClauses
        ("says(".toList ++ keyDigest) (getClauses (body ++ ['.']))) = depth body := by
      intro b
      cases b with
      | true => simp only [if_true, depth_append, stop, Int.add_zero]
      | false =>
          simp only [Bool.false_eq_true, if_false]
          rw [wrapClauses_depth plain, getClauses_depth]
    obtain ⟨t, rest, closes, inner⟩ := @close_of_depth (head ++ ')' :: (":-".toList ++
      if (find head (body ++ ['.'])).isSome then body ++ ['.']
      else wrapClauses ("says(".toList ++ keyDigest) (getClauses (body ++ ['.'])))) (by
        rw [depth_append, depth_cons, depth_append, bodyDepth, sign, close]
        omega)
    refine ⟨t, rest, ?_, inner⟩
    rw [← Option.some.inj transformed, List.append_assoc, saysText_append, closes, saysText_append]
  · rw [binderClause_fact keyDigest inside, List.dropLast_concat] at transformed
    exact ⟨s, ['.'], (Option.some.inj transformed).symm, balanced⟩

/-- No `:-` stands outside the parentheses before the one that closes. -/
theorem no_sign_outside {keyDigest t : Str} (plain : Plain keyDigest) (balanced : Balanced t)
    (before after : Str)
    (cut : "says(".toList ++ (keyDigest ++ (",".toList ++ t)) = before ++ ':' :: '-' :: after) :
    0 < depth before := by
  obtain ⟨now, rfl, inner⟩ := cut_second (by decide) cut
  have comma : Plain ",".toList := by decide
  have opens : depth "says(".toList = 1 := by decide
  have := (plain.balanced.append (comma.balanced.append balanced)).nonneg now _ inner
  rw [depth_append, opens]
  omega

theorem saysText_oneLine {keyDigest t : Str} (key : '\n' ∉ keyDigest) (text : '\n' ∉ t) :
    '\n' ∉ saysText keyDigest t := by
  have around : ∀ opens comma : Str, '\n' ∉ opens → '\n' ∉ comma →
      '\n' ∉ opens ++ keyDigest ++ comma ++ t ++ [')'] := by
    intro opens comma first second
    simp [first, key, second, text]
  exact around _ _ (by decide) (by decide)

theorem wrapClauses_oneLine {keyDigest : Str} (key : '\n' ∉ keyDigest) {cs : List Str}
    (texts : ∀ c ∈ cs, '\n' ∉ c) : '\n' ∉ wrapClauses ("says(".toList ++ keyDigest) cs := by
  cases cs with
  | nil => exact List.not_mem_nil
  | cons c cs =>
      rw [wrapClauses_eq, List.mem_append, not_or]
      refine ⟨fun member => ?_, by decide⟩
      rcases mem_of_mem_intercalate member with comma | ⟨t, inTexts, inside⟩
      · exact absurd comma (by decide)
      · obtain ⟨u, inClauses, rfl⟩ := List.mem_map.mp inTexts
        exact saysText_oneLine key (texts u inClauses) inside

theorem binderClause_oneLine {keyDigest pClause line : Str} (key : '\n' ∉ keyDigest)
    (text : '\n' ∉ pClause) (transformed : binderClause keyDigest pClause = some line) :
    '\n' ∉ line := by
  by_cases inside : [':', '-'] <:+: pClause
  · obtain ⟨i, found⟩ := Option.isSome_iff_exists.mp ((find_isSome_iff _ _).mpr inside)
    obtain ⟨head, body, rfl, -, absent⟩ := find_pair_split found
    rw [binderClause_rule keyDigest absent] at transformed
    simp only [List.mem_append, List.mem_cons, not_or] at text
    rw [← Option.some.inj transformed, List.mem_append, List.mem_append, not_or, not_or]
    refine ⟨⟨saysText_oneLine key text.1, by decide⟩, ?_⟩
    split
    · exact text.2.2.2
    · exact wrapClauses_oneLine key fun c member inC =>
        text.2.2.2 (getClauses_chars c member _ inC)
  · rw [binderClause_fact keyDigest inside] at transformed
    rw [← Option.some.inj transformed, List.mem_append, not_or]
    exact ⟨saysText_oneLine key fun member => text (List.dropLast_subset _ member), by decide⟩

/-- What may follow the statement for a clause: nothing for a fact, and a body for a rule. -/
def Continues : Clause → Str → Prop
  | .fact _, rest => rest = ['.']
  | .rule _ _ _, rest => ∃ body, body ≠ [] ∧ rest = ":-".toList ++ (body ++ ['.'])

/-- Where no token hides a `:-`, the clause is cut where the grammar cuts it. -/
theorem binderClause_clean (keyDigest : Str) (c : Clause)
    (clean : ∀ t ∈ c.texts, ¬ [':', '-'] <:+: t.chars) :
    ∃ rest, binderClause keyDigest c.text = some (saysText keyDigest c.head.text ++ rest) ∧
      Continues c rest := by
  cases c with
  | fact head =>
      have absent := Literal.no_implication clean
      refine ⟨['.'], ?_, rfl⟩
      rw [Clause.text_fact, binderClause_fact _ (mt sign_stop.mp absent), List.dropLast_concat]
      rfl
  | rule head first more =>
      have absent : ¬ [':', '-'] <:+: head.text := Literal.no_implication fun t member =>
        clean t (List.mem_append_left _ (List.mem_append_left _ member))
      rw [Clause.text_rule, binderClause_rule _ absent, getClauses_body, List.map_cons,
        wrapClauses_eq]
      refine ⟨_, congrArg some (List.append_assoc _ _ _), ?_⟩
      by_cases occurs : (find head.text (bodyText first more ++ ['.'])).isSome = true
      · rw [if_pos occurs]
        refine ⟨_, ?_, rfl⟩
        obtain ⟨d, inFirst⟩ := List.exists_mem_of_ne_nil _ first.text_ne_nil
        exact List.ne_nil_of_mem (mem_intercalate_of_mem [','] List.mem_cons_self inFirst)
      · rw [if_neg occurs]
        refine ⟨_, ?_, rfl⟩
        have closing : ')' ∈ saysText keyDigest first.text := List.mem_append_right _ (by simp)
        exact List.ne_nil_of_mem (mem_intercalate_of_mem [','] List.mem_cons_self closing)

/-! ## Confinement -/

/-- A line that can only be a statement of a key. The parenthesis that `says(` opens is
    closed after `t`, and nothing before it can end the head; where no token of the clause
    hides a `:-`, the statement is the head of the clause. -/
structure Confined (keyDigest : Str) (clause : Clause) (line : Str) : Prop where
  oneLine : '\n' ∉ line
  form : ∃ t rest, line = saysText keyDigest t ++ rest ∧ Balanced t ∧
    (∀ before after, "says(".toList ++ (keyDigest ++ (",".toList ++ t)) =
      before ++ ':' :: '-' :: after → 0 < depth before) ∧
    ((∀ x ∈ clause.texts, ¬ [':', '-'] <:+: x.chars) →
      t = clause.head.text ∧ Continues clause rest)

theorem confined_of_transform (o : OpenSSL) (pKey : Str) (c : Clause) {line : Str}
    (transformed : binderClause (getKeyDigest o pKey) c.text = some line) :
    Confined (getKeyDigest o pKey) c line := by
  have outside : ∀ d : Char, d ∉ "rsa_".toList → d ∉ "0123456789abcdef".toList →
      d ∉ getKeyDigest o pKey := by
    intro d notMark notHex member
    exact (getKeyDigest_chars o pKey d member).elim notMark notHex
  have plain : Plain (getKeyDigest o pKey) :=
    ⟨outside _ (by decide) (by decide +kernel), outside _ (by decide) (by decide +kernel)⟩
  refine ⟨binderClause_oneLine (outside _ (by decide) (by decide +kernel))
    (c.text_not_mem rfl (by decide) (by decide)) transformed, ?_⟩
  by_cases clean : ∀ x ∈ c.texts, ¬ [':', '-'] <:+: x.chars
  · obtain ⟨rest, whole, form⟩ := binderClause_clean (getKeyDigest o pKey) c clean
    cases transformed.symm.trans whole
    exact ⟨_, rest, rfl, c.head.balanced, no_sign_outside plain c.head.balanced,
      fun _ => ⟨rfl, form⟩⟩
  · obtain ⟨s, text, balanced⟩ := c.text_balanced
    rw [text] at transformed
    obtain ⟨t, rest, same, inner⟩ := binderClause_says plain balanced transformed
    exact ⟨t, rest, same, inner, no_sign_outside plain inner, fun all => absurd all clean⟩

/-- Import confinement. Every line that is written for an accepted credential comes from a
    clause of one of its certificates, and is confined to the key that signed it. -/
theorem import_confined (o : OpenSSL) (clib : CLib) (validate : Bool) (clock : Nat → Int)
    {before ss ss' : SecurityService} {policyText : Str}
    (set : before.setPolicy policyText = some ss) (c : Credential) (fresh : c.Fresh)
    (derivable : ∀ cert ∈ c.certificates, ∀ clause ∈ cert.clauses, ∃ g : Clause, g.text = clause)
    (accepted : verifyCredential o clib validate clock ss (some c) = some (true, ss')) :
    ∃ lines, (∀ h, Returns (writeBinderFile ss') h true ↔
        h = [⟨.saveBinder (programText policyText lines), true⟩]) ∧
      ∀ line ∈ lines, ∃ cert ∈ c.certificates, ∃ g : Clause, g.text ∈ cert.clauses ∧
        verifySig o cert.pubKey cert.signature cert.certStr = true ∧
        binderClause (getKeyDigest o cert.pubKey) g.text = some line ∧
        Confined (getKeyDigest o cert.pubKey) g line := by
  obtain ⟨policy, hasPolicy, sameText⟩ := setPolicy_policy set
  obtain ⟨retVal, _, policy', c', done, hasPolicy', text, hasCred, -, -, passes, exported⟩ :=
    verifyCredential_eq o clib validate clock hasPolicy c
  cases accepted.symm.trans done
  refine ⟨c'.certificates.flatMap Certificate.transformedCls, fun h => ?_, fun line inLines => ?_⟩
  · simp only [returns_writeBinderFile, hasPolicy', hasCred, Option.some.injEq, exists_and_left,
      exists_eq_left']
    rw [binderText_eq, text, sameText]
  · obtain ⟨cert', inCerts', inCert'⟩ := List.mem_flatMap.mp inLines
    obtain ⟨i, inside, rfl⟩ := List.mem_iff_getElem.mp inCerts'
    have exports := exported_fresh fresh (exported rfl)
    have inside' : i < c.certificates.length := exports.length_eq ▸ inside
    have isExport := exports.get inside' inside
    obtain ⟨clause, inClauses, transformed⟩ :=
      List.mem_map.mp (isExport ▸ List.mem_map_of_mem inCert')
    obtain ⟨g, rfl⟩ := derivable _ (List.getElem_mem inside') clause inClauses
    exact ⟨_, List.getElem_mem inside', g, inClauses,
      (passes.mp rfl i _ (List.getElem?_eq_getElem inside')).2, transformed,
      confined_of_transform o _ g transformed⟩

/-- `user(alice).` -/
def userClause : Clause := .fact (.predicate ⟨.of "user", .of "alice", []⟩)

theorem twoSigned_texts : ∃ gs : List Clause,
    twoSigned.certificates.flatMap Certificate.clauses = gs.map Clause.text :=
  ⟨[.fact (.predicate ⟨.of "p", .of "a", []⟩),
    .rule (.predicate ⟨.of "p", .of "X", []⟩) (.predicate ⟨.of "q", .of "X", []⟩)
      [.saysThat (.of "k") ⟨.of "r", .of "X", []⟩],
    .rule (.predicate ⟨.of "q", .of "b:-c", []⟩) (.predicate ⟨.of "r", .of "b", []⟩) []],
    by decide +kernel⟩

theorem twoSigned_derivable : ∀ cert ∈ twoSigned.certificates, ∀ clause ∈ cert.clauses,
    ∃ g : Clause, g.text = clause := by
  obtain ⟨gs, texts⟩ := twoSigned_texts
  intro cert inCerts clause inClauses
  have member : clause ∈ gs.map Clause.text := texts ▸ List.mem_flatMap_of_mem inCerts inClauses
  obtain ⟨g, -, same⟩ := List.mem_map.mp member
  exact ⟨g, same⟩

theorem import_confined_twoSigned :
    ∃ ss ss', SecurityService.empty.setPolicy twoSignedPolicy = some ss ∧
      verifyCredential .twoKeys .epoch true (fun _ => 0) ss (some twoSigned) = some (true, ss') ∧
      ∃ lines, (∀ h, Returns (writeBinderFile ss') h true ↔
          h = [⟨.saveBinder (programText twoSignedPolicy lines), true⟩]) ∧
        ∀ line ∈ lines, ∃ cert ∈ twoSigned.certificates, ∃ g : Clause, g.text ∈ cert.clauses ∧
          verifySig .twoKeys cert.pubKey cert.signature cert.certStr = true ∧
          binderClause (getKeyDigest .twoKeys cert.pubKey) g.text = some line ∧
          Confined (getKeyDigest .twoKeys cert.pubKey) g line := by
  have loads : (SecurityService.empty.setPolicy twoSignedPolicy).isSome := by decide +kernel
  obtain ⟨ss, set⟩ := Option.isSome_iff_exists.mp loads
  obtain ⟨policy, hasPolicy, -⟩ := setPolicy_policy set
  obtain ⟨retVal, ss', -, -, done, -, -, -, -, -, passes, -⟩ :=
    verifyCredential_eq .twoKeys .epoch true (fun _ => 0) hasPolicy twoSigned
  obtain rfl : retVal = true := passes.mpr fun j cert at_j => twoSigned_passes j at_j
  exact ⟨ss, ss', set, done, import_confined .twoKeys .epoch true (fun _ => 0) set twoSigned
    (by simp [Credential.Fresh, twoSigned, Certificate.empty]) twoSigned_derivable done⟩

end RepositoryManager
