import Mathlib.Data.List.TakeWhile

/-! # Byte strings

Strings as a C or C++ program sees them: a list of bytes, each byte the
character of the same code, searched by position and cut by position and
length. A search that fails answers `none` where the library says `npos`, and a
cut that starts past the end answers `none` where the library throws.
-/

namespace ByteString

abbrev Str := List Char

/-- The NUL byte, which ends a C string. -/
def nul : Char := Char.ofNat 0

/-- What a C function reads of a buffer: everything before the first NUL. -/
def cstr (s : Str) : Str := s.takeWhile (· ≠ nul)

/-- `std::string::find`: where `pat` first begins in the string. -/
def find (pat : Str) : Str → Option Nat
  | [] => if pat = [] then some 0 else none
  | c :: s => if pat.isPrefixOf (c :: s) then some 0 else (find pat s).map (· + 1)

/-- `std::string::find` with a start position. -/
def findFrom (pat s : Str) (start : Nat) : Option Nat :=
  (find pat (s.drop start)).map (· + start)

/-- `std::string::find_first_of`: the first byte that occurs in `set`. -/
def findFirstOf (set s : Str) : Option Nat :=
  s.findIdx? (fun c => set.contains c)

/-- `std::string::find_last_of` for a single byte. -/
def findLastOf (c : Char) : Str → Option Nat
  | [] => none
  | d :: s =>
      match findLastOf c s with
      | some i => some (i + 1)
      | none => if d = c then some 0 else none

/-- `std::string::substr`; a start past the end throws. -/
def substr (s : Str) (pos len : Nat) : Option Str :=
  if pos ≤ s.length then some ((s.drop pos).take len) else none

theorem forall_mem_of_all {p : Char → Prop} [DecidablePred p] {s : Str}
    (test : (s.all fun c => decide (p c)) = true) : ∀ c ∈ s, p c := by
  intro c member
  exact of_decide_eq_true (List.all_eq_true.mp test c member)

/-! ## Searching -/

theorem find_eq_none_iff (pat s : Str) : find pat s = none ↔ ¬ pat <:+: s := by
  induction s with
  | nil => by_cases empty : pat = [] <;> simp [find, empty]
  | cons c s ih =>
      by_cases here : pat.isPrefixOf (c :: s) = true
      · simp only [find, here, if_true, reduceCtorEq, false_iff, not_not]
        exact (List.isPrefixOf_iff_prefix.mp here).isInfix
      · have absent : ¬ pat <+: c :: s := fun h => here (List.isPrefixOf_iff_prefix.mpr h)
        simp only [find, here, Bool.false_eq_true, if_false, Option.map_eq_none_iff, ih,
          List.infix_cons_iff, absent, false_or]

theorem find_isSome_iff (pat s : Str) : (find pat s).isSome ↔ pat <:+: s := by
  rw [← not_iff_not, ← find_eq_none_iff]
  simp

/-- A search that succeeds cuts the string into what stands before the match,
    the match and the rest. -/
theorem find_split {pat s : Str} {i : Nat} (found : find pat s = some i) :
    ∃ before after, s = before ++ pat ++ after ∧ before.length = i := by
  induction s generalizing i with
  | nil =>
      by_cases empty : pat = []
      · simp only [find, empty, if_true, Option.some.injEq] at found
        exact ⟨[], [], by simp [empty], found⟩
      · simp [find, empty] at found
  | cons c s ih =>
      by_cases here : pat.isPrefixOf (c :: s) = true
      · simp only [find, here, if_true, Option.some.injEq] at found
        obtain ⟨after, same⟩ := List.isPrefixOf_iff_prefix.mp here
        exact ⟨[], after, by simp [same], found⟩
      · simp only [find, here, Bool.false_eq_true, if_false, Option.map_eq_some_iff] at found
        obtain ⟨j, later, rfl⟩ := found
        obtain ⟨before, after, rfl, rfl⟩ := ih later
        exact ⟨c :: before, after, by simp, by simp⟩

theorem find_end_le {pat s : Str} {i : Nat} (found : find pat s = some i) :
    i + pat.length ≤ s.length := by
  obtain ⟨before, after, rfl, rfl⟩ := find_split found
  simp

theorem find_first {pat before : Str} (after : Str) (absent : ¬ pat <:+: before ++ pat.dropLast) :
    find pat (before ++ pat ++ after) = some before.length := by
  obtain ⟨front, d, rfl⟩ : ∃ front d, pat = front ++ [d] := by
    rcases List.eq_nil_or_concat pat with rfl | ⟨front, d, rfl⟩
    · exact absurd List.nil_infix absent
    · exact ⟨front, d, List.concat_eq_append⟩
  rw [List.dropLast_concat] at absent
  induction before with
  | nil =>
      cases front with
      | nil => simp [find]
      | cons c front => simp [find]
  | cons c before ih =>
      have later : ¬ front ++ [d] <:+: before ++ front := fun inside =>
        absent (List.infix_cons inside)
      have here : (front ++ [d]).isPrefixOf (c :: (before ++ (front ++ [d]) ++ after)) = false := by
        rw [Bool.eq_false_iff]
        intro isPrefix
        have cut : c :: (before ++ (front ++ [d]) ++ after) =
            (c :: (before ++ front)) ++ (d :: after) := by simp
        rw [List.isPrefixOf_iff_prefix, cut] at isPrefix
        exact absent (List.prefix_of_prefix_length_le isPrefix (List.prefix_append _ _)
          (by simp)).isInfix
      simp only [List.cons_append, find, here, Bool.false_eq_true, if_false, ih later,
        Option.map_some, List.length_cons]

theorem infix_separator {pat a b : Str} {c : Char} (clean : c ∉ pat) :
    pat <:+: a ++ c :: b ↔ pat <:+: a ∨ pat <:+: b := by
  constructor
  · rintro ⟨before, after, cut⟩
    rw [List.append_assoc] at cut
    rcases List.append_eq_append_iff.mp cut with ⟨mid, rfl, rest⟩ | ⟨mid, rfl, rest⟩
    · rcases List.append_eq_append_iff.mp rest with ⟨mid', rfl, -⟩ | ⟨mid', same, rest'⟩
      · exact .inl ⟨before, mid', by simp⟩
      · cases mid' with
        | nil => exact .inl ⟨before, [], by simp [same]⟩
        | cons d mid' =>
            cases rest'
            exact absurd (by simp [same]) clean
    · cases mid with
      | nil =>
          cases pat with
          | nil => exact .inl List.nil_infix
          | cons d pat =>
              cases rest
              exact absurd List.mem_cons_self clean
      | cons d mid =>
          cases rest
          exact .inr ⟨mid, after, by simp⟩
  · rintro (inFirst | inSecond)
    · exact inFirst.trans (List.prefix_append _ _).isInfix
    · exact inSecond.trans ((List.suffix_cons _ _).isInfix.trans (List.suffix_append _ _).isInfix)

/-- The first occurrence of a two-byte mark: nothing before it holds the mark,
    and two different bytes cannot overlap themselves. -/
theorem find_pair {x y : Char} (differ : x ≠ y) (a b : Str) (absent : ¬ [x, y] <:+: a) :
    find [x, y] (a ++ x :: y :: b) = some a.length := by
  induction a with
  | nil => simp [find]
  | cons c a ih =>
      have later : ¬ [x, y] <:+: a := fun h => absent (List.infix_cons h)
      have here : [x, y].isPrefixOf (c :: (a ++ x :: y :: b)) = false := by
        cases a with
        | nil =>
            have apart : ¬ (x = c ∧ y = x) := fun both => differ both.2.symm
            simpa [List.isPrefixOf] using apart
        | cons d a =>
            have apart : ¬ (x = c ∧ y = d) := by
              rintro ⟨rfl, rfl⟩
              exact absent ⟨[], a, rfl⟩
            simpa [List.isPrefixOf] using apart
      simp [find, here, ih later]

theorem find_pair_split {x y : Char} {s : Str} {i : Nat} (found : find [x, y] s = some i) :
    ∃ before after, s = before ++ x :: y :: after ∧ before.length = i ∧
      ¬ [x, y] <:+: before := by
  induction s generalizing i with
  | nil => simp [find] at found
  | cons c s ih =>
      by_cases here : [x, y].isPrefixOf (c :: s) = true
      · simp only [find, here, if_true, Option.some.injEq] at found
        obtain ⟨after, same⟩ := List.isPrefixOf_iff_prefix.mp here
        exact ⟨[], after, by simp [← same], found, by simp⟩
      · simp only [find, here, Bool.false_eq_true, if_false, Option.map_eq_some_iff] at found
        obtain ⟨j, later, rfl⟩ := found
        obtain ⟨before, after, rfl, rfl, absent⟩ := ih later
        refine ⟨c :: before, after, by simp, by simp, ?_⟩
        rw [List.infix_cons_iff]
        rintro (⟨t, same⟩ | inside)
        · apply here
          rw [List.isPrefixOf_iff_prefix]
          refine ⟨t ++ x :: y :: after, ?_⟩
          rw [← List.append_assoc, same, List.cons_append]
        · exact absent inside

theorem pair_infix_of_concat {x y c : Char} (notY : c ≠ y) {a : Str}
    (inside : [x, y] <:+: a ++ [c]) : [x, y] <:+: a := by
  obtain ⟨before, after, same⟩ := inside
  rcases List.eq_nil_or_concat after with rfl | ⟨after, d, rfl⟩
  · have ends : (before ++ [x]) ++ [y] = a ++ [c] := by simpa using same
    exact absurd (List.cons.inj (List.append_inj' ends rfl).2).1.symm notY
  · rw [List.concat_eq_append, ← List.append_assoc] at same
    exact ⟨before, after, (List.append_inj' same rfl).1⟩

theorem pair_after_first {x y : Char} (differ : x ≠ y) {a b u v : Str} (absent : ¬ [x, y] <:+: a)
    (same : a ++ x :: y :: u = b ++ x :: y :: v) :
    (b = a ∧ v = u) ∨ ∃ between, b = a ++ x :: y :: between ∧ u = between ++ x :: y :: v := by
  rcases List.append_eq_append_iff.mp same with ⟨m, rfl, rest⟩ | ⟨m, rfl, rest⟩
  · cases m with
    | nil =>
        cases rest
        exact .inl ⟨List.append_nil a, rfl⟩
    | cons c m =>
        cases m with
        | nil =>
            simp only [List.cons_append, List.nil_append, List.cons.injEq] at rest
            exact absurd rest.2.1.symm differ
        | cons d m =>
            simp only [List.cons_append, List.cons.injEq] at rest
            obtain ⟨rfl, rfl, later⟩ := rest
            exact .inr ⟨m, rfl, later⟩
  · cases m with
    | nil =>
        cases rest
        exact .inl ⟨(List.append_nil b).symm, rfl⟩
    | cons c m =>
        cases m with
        | nil =>
            simp only [List.cons_append, List.nil_append, List.cons.injEq] at rest
            exact absurd rest.2.1.symm differ
        | cons d m =>
            simp only [List.cons_append, List.cons.injEq] at rest
            obtain ⟨rfl, rfl, -⟩ := rest
            exact absurd ⟨b, m, by simp⟩ absent

theorem pair_within {x y : Char} (differ : x ≠ y) {a b z m : Str} (holds : [x, y] <:+: a)
    (absent : ¬ [x, y] <:+: b) (same : a ++ z = b ++ x :: y :: m) :
    ∃ w, a = b ++ x :: y :: w ∧ m = w ++ z := by
  obtain ⟨i, found⟩ := Option.isSome_iff_exists.mp ((find_isSome_iff _ _).mpr holds)
  obtain ⟨front, w, rfl, -, first⟩ := find_pair_split found
  have marks : front ++ x :: y :: (w ++ z) = b ++ x :: y :: m := by rw [← same]; simp
  rcases pair_after_first differ first marks with ⟨rfl, later⟩ | ⟨between, rfl, -⟩
  · exact ⟨w, rfl, later⟩
  · exact absurd ⟨front, between, by simp⟩ absent

theorem pair_infix_append {x y : Char} {a b : Str} (clean : x ∉ a) :
    [x, y] <:+: a ++ b ↔ [x, y] <:+: b := by
  induction a with
  | nil => rfl
  | cons c a ih =>
      simp only [List.mem_cons, not_or] at clean
      rw [List.cons_append, List.infix_cons_iff, ih clean.2]
      simp [clean.1]

theorem pair_infix_separator {x y c : Char} {a b : Str} (notX : c ≠ x) (notY : c ≠ y) :
    [x, y] <:+: a ++ c :: b ↔ [x, y] <:+: a ∨ [x, y] <:+: b := by
  induction a with
  | nil =>
      simp only [List.nil_append, List.infix_cons_iff, List.cons_prefix_cons, Ne.symm notX,
        false_and, false_or]
      simp
  | cons d a ih =>
      rw [List.cons_append, List.infix_cons_iff, ih, List.infix_cons_iff, or_assoc]
      refine or_congr_left ?_
      cases a with
      | nil => simp [Ne.symm notY]
      | cons e a => simp

theorem findFirstOf_eq_none_iff (set s : Str) : findFirstOf set s = none ↔ ∀ c ∈ s, c ∉ set := by
  simp [findFirstOf]

theorem findFirstOf_split {set s : Str} {i : Nat} (found : findFirstOf set s = some i) :
    ∃ before c after, s = before ++ c :: after ∧ before.length = i ∧ c ∈ set ∧
      ∀ d ∈ before, d ∉ set := by
  induction s generalizing i with
  | nil => simp [findFirstOf] at found
  | cons d s ih =>
      by_cases inSet : d ∈ set
      · have first : i = 0 := by
          simpa [findFirstOf, List.findIdx?_cons, inSet, eq_comm] using found
        subst first
        exact ⟨[], d, s, rfl, rfl, inSet, by simp⟩
      · rw [findFirstOf, List.findIdx?_cons] at found
        simp only [inSet, List.contains_eq_mem, decide_false, Bool.false_eq_true, if_false,
          Option.map_eq_some_iff] at found
        obtain ⟨j, later, rfl⟩ := found
        obtain ⟨before, c, after, rfl, rfl, isFirst, clean⟩ :=
          ih (by simpa [findFirstOf] using later)
        refine ⟨d :: before, c, after, rfl, rfl, isFirst, ?_⟩
        exact List.forall_mem_cons.mpr ⟨inSet, clean⟩

theorem findFirstOf_eq {set before after : Str} {c : Char} (inSet : c ∈ set)
    (clean : ∀ d ∈ before, d ∉ set) :
    findFirstOf set (before ++ c :: after) = some before.length := by
  induction before with
  | nil => simp [findFirstOf, List.findIdx?_cons, inSet]
  | cons d before ih =>
      rw [List.forall_mem_cons] at clean
      have later := ih clean.2
      rw [findFirstOf] at later ⊢
      rw [List.cons_append, List.findIdx?_cons, later]
      simp [clean.1]

theorem last_split {p : Char → Bool} {s : Str} (member : ∃ c ∈ s, p c = true) :
    ∃ before c after, s = before ++ c :: after ∧ p c = true ∧ ∀ d ∈ after, p d = false := by
  induction s with
  | nil =>
      obtain ⟨c, absurd, -⟩ := member
      cases absurd
  | cons d s ih =>
      by_cases later : ∃ c ∈ s, p c = true
      · obtain ⟨before, c, after, rfl, holds, clean⟩ := ih later
        exact ⟨d :: before, c, after, rfl, holds, clean⟩
      · obtain ⟨c, inside, holds⟩ := member
        rcases List.mem_cons.mp inside with rfl | inRest
        · refine ⟨[], c, s, rfl, holds, fun d inRest => ?_⟩
          exact Bool.eq_false_iff.mpr fun other => later ⟨d, inRest, other⟩
        · exact absurd ⟨c, inRest, holds⟩ later

theorem findLastOf_append (c : Char) (a b : Str) (clean : c ∉ b) :
    findLastOf c (a ++ c :: b) = some a.length := by
  have absent : ∀ s : Str, c ∉ s → findLastOf c s = none := by
    intro s
    induction s with
    | nil => intro _; rfl
    | cons d s ih =>
        intro clean
        simp only [List.mem_cons, not_or] at clean
        simp [findLastOf, ih clean.2, Ne.symm clean.1]
  induction a with
  | nil => simp [findLastOf, absent b clean]
  | cons d a ih => simp [findLastOf, ih]

theorem findLastOf_split {c : Char} {s : Str} {i : Nat} (found : findLastOf c s = some i) :
    ∃ before after, s = before ++ c :: after ∧ before.length = i ∧ c ∉ after := by
  have member : c ∈ s := by
    induction s generalizing i with
    | nil => cases found
    | cons d s ih =>
        cases later : findLastOf c s with
        | some j => exact List.mem_cons_of_mem _ (ih later)
        | none =>
            by_cases same : d = c
            · exact List.mem_cons.mpr (.inl same.symm)
            · simp [findLastOf, later, same] at found
  obtain ⟨before, d, after, rfl, isC, clean⟩ :=
    last_split (p := fun d => decide (d = c)) ⟨c, member, decide_eq_true rfl⟩
  cases of_decide_eq_true isC
  have absent : c ∉ after := fun inside => of_decide_eq_false (clean c inside) rfl
  rw [findLastOf_append c before after absent, Option.some.injEq] at found
  exact ⟨before, after, rfl, found, absent⟩

/-! ## Joining -/

theorem mem_of_mem_intercalate {sep : Str} {args : List Str} {c : Char}
    (member : c ∈ sep.intercalate args) : c ∈ sep ∨ ∃ a ∈ args, c ∈ a := by
  induction args with
  | nil => simp at member
  | cons a args ih =>
      cases args with
      | nil =>
          rw [List.intercalate_singleton] at member
          exact .inr ⟨a, List.mem_cons_self, member⟩
      | cons b args =>
          rw [List.intercalate_cons_cons, List.mem_append, List.mem_append] at member
          rcases member with (inFirst | inSep) | later
          · exact .inr ⟨a, List.mem_cons_self, inFirst⟩
          · exact .inl inSep
          · exact (ih later).imp_right fun ⟨a', inArgs, inside⟩ =>
              ⟨a', List.mem_cons_of_mem _ inArgs, inside⟩

theorem mem_intercalate_of_mem (sep : Str) {args : List Str} {a : Str} {c : Char}
    (inArgs : a ∈ args) (inside : c ∈ a) : c ∈ sep.intercalate args := by
  induction args with
  | nil => cases inArgs
  | cons b args ih =>
      cases args with
      | nil =>
          rw [List.intercalate_singleton, ← List.mem_singleton.mp inArgs]
          exact inside
      | cons d args =>
          rw [List.intercalate_cons_cons]
          rcases List.mem_cons.mp inArgs with rfl | later
          · exact List.mem_append_left _ (List.mem_append_left _ inside)
          · exact List.mem_append_right _ (ih later)

/-! ## Cutting -/

theorem substr_inside {s : Str} {pos len : Nat} (inside : pos ≤ s.length) :
    substr s pos len = some ((s.drop pos).take len) := by
  simp [substr, inside]

theorem cstr_of_clean {s : Str} (clean : nul ∉ s) : cstr s = s := by
  rw [cstr, List.takeWhile_eq_self_iff]
  intro c member
  simpa using fun same : c = nul => clean (same ▸ member)

theorem nul_not_mem_cstr (s : Str) : nul ∉ cstr s := by
  intro member
  simpa using List.mem_takeWhile_imp member

end ByteString
