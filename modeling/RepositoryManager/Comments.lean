import RepositoryManager.Splitting

/-! # What trim removes

A comment ends at the first closing mark behind its opening mark, and what stands
around the comments is kept. `trim` cuts once, at the first closing mark of the text,
and keeps what is behind it; so it removes the comments alone where there is none, or
one, in front of everything else.
-/

namespace RepositoryManager

open ByteString

/-! ## Comments -/

/-- The text without its comments. What is opened and not closed is no comment. -/
def uncomment (t : Str) : Str :=
  match _opened : find ['/', '*'] t with
  | none => t
  | some i =>
      match find ['*', '/'] (t.drop (i + 2)) with
      | none => t
      | some j => t.take i ++ uncomment (t.drop (i + 2 + (j + 2)))
termination_by t.length
decreasing_by
  have inside := find_end_le _opened
  simp only [List.length_cons, List.length_nil, List.length_drop] at inside ⊢
  omega

/-- Each opening mark has a later closing mark. -/
def Closed (s : Str) : Prop :=
  ∀ before after, s = before ++ '/' :: '*' :: after → ['*', '/'] <:+: after

/-- No opening mark has a later closing mark. -/
def NoComment (t : Str) : Prop :=
  ∀ before after, t = before ++ '/' :: '*' :: after → ¬ ['*', '/'] <:+: after

/-- The text opens with a comment, whose closing mark is the first of the text, and no comment
    comes after it. -/
def CommentInFront (t : Str) : Prop :=
  ∃ c rest, t = '/' :: '*' :: (c ++ '*' :: '/' :: rest) ∧ ¬ ['*', '/'] <:+: '/' :: '*' :: c ∧
    NoComment rest

/-- `trim` removes white space and then the comments, and so nothing more the second time, unless
    a comment mark is left. -/
def Trims (s : Str) : Prop :=
  trim s = uncomment (squeeze s) ∧ (¬ ['/', '*'] <:+: trim s → trim (trim s) = trim s)

/-! ## Removing comments -/

theorem uncomment_eq (t : Str) : uncomment t =
    match find ['/', '*'] t with
    | none => t
    | some i =>
        match find ['*', '/'] (t.drop (i + 2)) with
        | none => t
        | some j => t.take i ++ uncomment (t.drop (i + 2 + (j + 2))) := by
  rw [uncomment]
  split
  · next unopened => rw [unopened]
  · next i opened => rw [opened]

theorem uncomment_unopened {t : Str} (unopened : ¬ ['/', '*'] <:+: t) : uncomment t = t := by
  rw [uncomment_eq, (find_eq_none_iff _ _).mpr unopened]

theorem uncomment_unclosed {a u : Str} (first : ¬ ['/', '*'] <:+: a)
    (unclosed : ¬ ['*', '/'] <:+: u) :
    uncomment (a ++ '/' :: '*' :: u) = a ++ '/' :: '*' :: u := by
  have behind : (a ++ '/' :: '*' :: u).drop (a.length + 2) = u := by simp [List.drop_append]
  rw [uncomment_eq, find_pair (by decide) a u first]
  simp only [behind, (find_eq_none_iff _ _).mpr unclosed]

theorem uncomment_closed {a c r : Str} (first : ¬ ['/', '*'] <:+: a)
    (closing : ¬ ['*', '/'] <:+: c) :
    uncomment (a ++ '/' :: '*' :: (c ++ '*' :: '/' :: r)) = a ++ uncomment r := by
  have behind : (a ++ '/' :: '*' :: (c ++ '*' :: '/' :: r)).drop (a.length + 2) =
      c ++ '*' :: '/' :: r := by simp [List.drop_append]
  have after : (c ++ '*' :: '/' :: r).drop (c.length + 2) = r := by simp [List.drop_append]
  rw [uncomment_eq, find_pair (by decide) a _ first]
  simp only [behind, find_pair (show '*' ≠ '/' by decide) c r closing]
  rw [← List.drop_drop, behind, after, List.take_left]

theorem uncomment_cases (t : Str) :
    (¬ ['/', '*'] <:+: t) ∨
    (∃ a u, t = a ++ '/' :: '*' :: u ∧ ¬ ['/', '*'] <:+: a ∧ ¬ ['*', '/'] <:+: u) ∨
    ∃ a c r, t = a ++ '/' :: '*' :: (c ++ '*' :: '/' :: r) ∧ ¬ ['/', '*'] <:+: a ∧
      ¬ ['*', '/'] <:+: c := by
  by_cases opened : ['/', '*'] <:+: t
  · obtain ⟨i, found⟩ := Option.isSome_iff_exists.mp ((find_isSome_iff _ _).mpr opened)
    obtain ⟨a, u, rfl, -, first⟩ := find_pair_split found
    by_cases closed : ['*', '/'] <:+: u
    · obtain ⟨j, foundClose⟩ := Option.isSome_iff_exists.mp ((find_isSome_iff _ _).mpr closed)
      obtain ⟨c, r, rfl, -, closing⟩ := find_pair_split foundClose
      exact .inr (.inr ⟨a, c, r, rfl, first, closing⟩)
    · exact .inr (.inl ⟨a, u, rfl, first, closed⟩)
  · exact .inl opened

theorem uncomment_length_le (t : Str) : (uncomment t).length ≤ t.length := by
  induction size : t.length using Nat.strongRecOn generalizing t with
  | ind n ih =>
      rcases uncomment_cases t with unopened | ⟨a, u, rfl, first, unclosed⟩ |
        ⟨a, c, r, rfl, first, closing⟩
      · rw [uncomment_unopened unopened]
        exact size.le
      · rw [uncomment_unclosed first unclosed]
        exact size.le
      · simp only [List.length_append, List.length_cons] at size
        have shorter := ih r.length (by omega) r rfl
        rw [uncomment_closed first closing, List.length_append]
        omega

theorem uncomment_eq_self_iff (t : Str) : uncomment t = t ↔ NoComment t := by
  rcases uncomment_cases t with unopened | ⟨a, u, rfl, first, unclosed⟩ |
    ⟨a, c, r, rfl, first, closing⟩
  · refine iff_of_true (uncomment_unopened unopened) fun before after same => ?_
    exact absurd ⟨before, after, by simp [same]⟩ unopened
  · refine iff_of_true (uncomment_unclosed first unclosed) fun before after same closed => ?_
    rcases pair_after_first (by decide) first same with ⟨-, rfl⟩ | ⟨between, -, rfl⟩
    · exact unclosed closed
    · exact unclosed (closed.trans ⟨between ++ ['/', '*'], [], by simp⟩)
  · refine iff_of_false (fun same => ?_) fun none => ?_
    · have shorter := uncomment_length_le r
      have length := congrArg List.length same
      rw [uncomment_closed first closing] at length
      simp only [List.length_append, List.length_cons] at length
      omega
    · exact none a _ rfl ⟨c, r, by simp⟩

/-! ## What `trim` keeps -/

theorem infix_of_longer {x y p q z : Str} (same : x ++ y = p ++ (q ++ z))
    (longer : p.length + q.length ≤ x.length) : q <:+: x := by
  rw [← List.append_assoc] at same
  have within := List.prefix_of_prefix_length_le ⟨z, same.symm⟩ (List.prefix_append x y)
    (by rw [List.length_append]; exact longer)
  exact (List.suffix_append p q).isInfix.trans within.isInfix

/-- Comments cannot be taken out of a text so that something free of marks comes in front. -/
theorem nil_of_append_uncomment {a r : Str} (noOpen : ¬ ['/', '*'] <:+: a)
    (noClose : ¬ ['*', '/'] <:+: a) (same : a ++ uncomment r = r) : a = [] := by
  rcases uncomment_cases r with unopened | ⟨b, u, rfl, first, unclosed⟩ |
    ⟨b, c, r, rfl, first, closing⟩
  · rw [uncomment_unopened unopened] at same
    exact List.append_left_eq_self.mp same
  · rw [uncomment_unclosed first unclosed] at same
    exact List.append_left_eq_self.mp same
  · exfalso
    rw [uncomment_closed first closing] at same
    have shorter := uncomment_length_le r
    have length := congrArg List.length same
    simp only [List.length_append, List.length_cons] at length
    -- the opening mark of the first comment lies in `a`, or across its end, or in `b`
    rcases List.append_eq_append_iff.mp same with ⟨w, rfl, rest⟩ | ⟨m, rfl, rest⟩
    · simp only [List.length_append] at length
      exact first (infix_of_longer rest (by simp; omega))
    · cases m with
      | nil =>
          simp only [List.append_nil] at length noOpen
          exact first (infix_of_longer (p := []) rest.symm (by simp; omega))
      | cons d m =>
          cases m with
          | nil =>
              simp only [List.length_append, List.length_singleton] at length
              simp only [List.cons_append, List.nil_append, List.cons.injEq] at rest
              obtain ⟨rfl, later⟩ := rest
              have closed : ['*', '/'] <:+: b :=
                @infix_of_longer b (uncomment r) ('*' :: c) ['*', '/'] r (by simpa using later.symm)
                  (by simp; omega)
              exact noClose (closed.trans (List.prefix_append b ['/']).isInfix)
          | cons e m =>
              simp only [List.cons_append, List.cons.injEq] at rest
              obtain ⟨rfl, rfl, -⟩ := rest
              exact noOpen ⟨b, m, by simp⟩

theorem trim_of_front {s : Str} (front : CommentInFront (squeeze s)) :
    trim s = uncomment (squeeze s) := by
  obtain ⟨c, rest, cut, closing, noComment⟩ := front
  have inner : ¬ ['*', '/'] <:+: c := fun inside =>
    closing (inside.trans ⟨['/', '*'], [], by simp⟩)
  have opened : ['/', '*'] <:+: squeeze s := ⟨[], c ++ '*' :: '/' :: rest, by rw [cut]; rfl⟩
  have removed := @uncomment_closed [] c rest (by simp) inner
  rw [List.nil_append, List.nil_append, (uncomment_eq_self_iff rest).mpr noComment] at removed
  rw [trim_of_closed opened (by rw [cut]; rfl) closing, cut, removed]

/-- With a comment in another place `trim` keeps too little, or too much. -/
theorem front_of_trim {s : Str} (opened : ['/', '*'] <:+: squeeze s)
    (same : trim s = uncomment (squeeze s)) : CommentInFront (squeeze s) := by
  rcases trim_cases s with ⟨unopened, -⟩ | ⟨-, body, closed, firstClose⟩ | ⟨-, unclosed, tail⟩
  · exact absurd opened unopened
  · generalize squeeze s = t at opened same closed ⊢
    generalize trim s = rest at same closed
    rcases uncomment_cases t with unopened | ⟨a, u, rfl, first, unclosed⟩ |
      ⟨a, c, r, rfl, first, closing⟩
    · exact absurd opened unopened
    · rw [uncomment_unclosed first unclosed, closed] at same
      have length := congrArg List.length same
      simp only [List.length_append, List.length_cons] at length
      omega
    · rw [uncomment_closed first closing] at same
      subst same
      have shorter := uncomment_length_le r
      have marks : body ++ '*' :: '/' :: (a ++ uncomment r) =
          (a ++ '/' :: '*' :: c) ++ '*' :: '/' :: r := by rw [← closed]; simp
      rcases pair_after_first (by decide) firstClose marks with ⟨rfl, rest⟩ | ⟨m, big, rest⟩
      · have noClose : ¬ ['*', '/'] <:+: a := fun inside =>
          firstClose (inside.trans (List.prefix_append a _).isInfix)
        obtain rfl := nil_of_append_uncomment first noClose rest.symm
        exact ⟨c, r, rfl, firstClose, (uncomment_eq_self_iff r).mp rest.symm⟩
      · exfalso
        have length := congrArg List.length rest
        simp only [List.length_append, List.length_cons] at length
        have closedFront : ['*', '/'] <:+: a := infix_of_longer rest (by simp; omega)
        obtain ⟨w, rfl, rfl⟩ := pair_within (by decide) closedFront firstClose big
        have cut : body ++ '*' :: '/' :: w ++ uncomment r =
            w ++ ('/' :: '*' :: (c ++ '*' :: '/' :: r)) := by simpa using rest
        exact first (infix_of_longer cut (by simp))
  · have noComment : NoComment (squeeze s) := fun before after cut closed =>
      unclosed (closed.trans ⟨before ++ ['/', '*'], [], by simp [cut]⟩)
    rw [(uncomment_eq_self_iff _).mpr noComment, tail] at same
    have length := congrArg List.length same
    rw [List.length_tail] at length
    have some := opened.length_le
    simp only [List.length_cons] at some
    omega

/-! ## Once and again -/

theorem squeeze_trim (s : Str) : squeeze (trim s) = trim s := by
  have part : trim s <:+ squeeze s := by
    rcases trim_cases s with ⟨-, kept⟩ | ⟨-, body, closed, -⟩ | ⟨-, -, tail⟩
    · rw [kept]
    · exact ⟨body ++ ['*', '/'], by rw [closed]; simp⟩
    · rw [tail]
      exact List.tail_suffix _
  exact List.filter_eq_self.mpr fun c member => (List.mem_filter.mp (part.subset member)).2

theorem trim_again {s : Str} (noMark : ¬ ['/', '*'] <:+: trim s) : trim (trim s) = trim s := by
  have same := squeeze_trim s
  rw [trim_of_unopened (by rw [same]; exact noMark), same]

/-- `trim` removes white space and comments, and nothing else, exactly where without the white
    space no comment is opened, or one in front, which the first closing mark ends. -/
theorem trims_iff (s : Str) :
    Trims s ↔ ¬ ['/', '*'] <:+: squeeze s ∨ CommentInFront (squeeze s) := by
  constructor
  · rintro ⟨removed, -⟩
    by_cases opened : ['/', '*'] <:+: squeeze s
    · exact .inr (front_of_trim opened removed)
    · exact .inl opened
  · rintro (unopened | front)
    · exact ⟨by rw [trim_of_unopened unopened, uncomment_unopened unopened], trim_again⟩
    · exact ⟨trim_of_front front, trim_again⟩

theorem closed_of_forall {s : Str} (all : ∀ i < s.length, (s.drop i).take 2 = ['/', '*'] →
    (find ['*', '/'] (s.drop (i + 2))).isSome) : Closed s := by
  rintro before after rfl
  have opened := all before.length (by simp) (by simp)
  have behind : (before ++ '/' :: '*' :: after).drop (before.length + 2) = after := by
    simp [List.drop_append]
  rw [behind] at opened
  exact (find_isSome_iff _ _).mp opened

/-- The text in front of a comment is lost with it. -/
theorem text_before_comment_lost :
    ¬ (Closed "p(a)/*c*/.".toList → Trims "p(a)/*c*/.".toList) := by
  intro trims
  have closed : Closed "p(a)/*c*/.".toList := closed_of_forall (by decide)
  have removed := (trims closed).1
  have kept : uncomment "p(a)/*c*/.".toList = "p(a)".toList ++ uncomment ['.'] :=
    uncomment_closed (a := "p(a)".toList) (c := ['c']) (by decide) (by decide)
  have last : uncomment ['.'] = ['.'] := uncomment_unopened (by decide)
  rw [show squeeze "p(a)/*c*/.".toList = "p(a)/*c*/.".toList by decide, kept, last] at removed
  revert removed
  decide

end RepositoryManager
