import RepositoryManager.Lib.ByteString

/-! # Terminated words

A word that ends in a stop which occurs nowhere else in it. Such words need no
separators and no lengths: a text that is made of them has only one reading.
-/

namespace Terminated

variable {α : Type} {stop : α}

/-- The stop is the last letter of the word, and no other. -/
def Ends (stop : α) (word : List α) : Prop := ∃ body, word = body ++ [stop] ∧ stop ∉ body

theorem Ends.of {body : List α} (clean : stop ∉ body) : Ends stop (body ++ [stop]) :=
  ⟨body, rfl, clean⟩

theorem Ends.ne_nil {word : List α} (ends : Ends stop word) : word ≠ [] := by
  obtain ⟨body, rfl, -⟩ := ends
  simp

theorem Ends.suffix {word part : List α} (ends : Ends stop word) (suffix : part <:+ word)
    (nonempty : part ≠ []) : Ends stop part := by
  obtain ⟨body, rfl, clean⟩ := ends
  obtain ⟨t, rfl, within⟩ := (List.suffix_concat_iff.mp suffix).resolve_left nonempty
  exact .of fun member => clean (within.subset member)

theorem Ends.append_inj {word word' rest rest' : List α} (ends : Ends stop word)
    (ends' : Ends stop word') (same : word ++ rest = word' ++ rest') :
    word = word' ∧ rest = rest' := by
  obtain ⟨body, rfl, clean⟩ := ends
  obtain ⟨body', rfl, clean'⟩ := ends'
  rw [List.append_assoc, List.append_assoc] at same
  induction body generalizing body' with
  | nil =>
      cases body' with
      | nil =>
          cases same
          exact ⟨rfl, rfl⟩
      | cons c body' =>
          cases same
          exact absurd List.mem_cons_self clean'
  | cons c body ih =>
      cases body' with
      | nil =>
          cases same
          exact absurd List.mem_cons_self clean
      | cons c' body' =>
          rw [List.mem_cons, not_or] at clean clean'
          obtain ⟨rfl, sameTail⟩ := List.cons_eq_cons.mp same
          obtain ⟨sameWord, sameRest⟩ := ih clean.2 body' clean'.2 sameTail
          exact ⟨congrArg (c :: ·) sameWord, sameRest⟩

theorem stop_inj {stops : α → Prop} {body body' rest rest' : List α} {x y : α} (isStop : stops x)
    (isStop' : stops y) (clean : ∀ c ∈ body, ¬ stops c) (clean' : ∀ c ∈ body', ¬ stops c)
    (same : body ++ x :: rest = body' ++ y :: rest') : body = body' ∧ x = y ∧ rest = rest' := by
  induction body generalizing body' with
  | nil =>
      cases body' with
      | nil =>
          cases same
          exact ⟨rfl, rfl, rfl⟩
      | cons c body' =>
          cases same
          exact absurd isStop (clean' _ List.mem_cons_self)
  | cons c body ih =>
      cases body' with
      | nil =>
          cases same
          exact absurd isStop' (clean _ List.mem_cons_self)
      | cons c' body' =>
          obtain ⟨rfl, sameTail⟩ := List.cons_eq_cons.mp same
          obtain ⟨rfl, next, after⟩ := ih (fun d later => clean d (List.mem_cons_of_mem _ later))
            (fun d later => clean' d (List.mem_cons_of_mem _ later)) sameTail
          exact ⟨rfl, next, after⟩

/-- Two lists of terminated words with one text are one list. -/
theorem flatten_inj {words words' : List (List α)} (ends : ∀ w ∈ words, Ends stop w)
    (ends' : ∀ w ∈ words', Ends stop w) (same : words.flatten = words'.flatten) :
    words = words' := by
  induction words generalizing words' with
  | nil =>
      cases words' with
      | nil => rfl
      | cons w' words' =>
          have absent : w' = [] := by
            rw [List.flatten_nil, List.flatten_cons] at same
            exact (List.append_eq_nil_iff.mp same.symm).1
          exact absurd absent (ends' w' List.mem_cons_self).ne_nil
  | cons w words ih =>
      have here := ends w List.mem_cons_self
      cases words' with
      | nil =>
          have absent : w = [] := by
            rw [List.flatten_nil, List.flatten_cons] at same
            exact (List.append_eq_nil_iff.mp same).1
          exact absurd absent here.ne_nil
      | cons w' words' =>
          rw [List.flatten_cons, List.flatten_cons] at same
          obtain ⟨rfl, rest⟩ := here.append_inj (ends' w' List.mem_cons_self) same
          rw [ih (fun v member => ends v (List.mem_cons_of_mem _ member))
            (fun v member => ends' v (List.mem_cons_of_mem _ member)) rest]

/-! ## Cuts -/

theorem exists_words (stop : α) (s : List α) : ∃ (words : List (List α)) (rest : List α),
    s = words.flatten ++ rest ∧ (∀ w ∈ words, Ends stop w) ∧ stop ∉ rest := by
  induction s with
  | nil => exact ⟨[], [], rfl, by simp, List.not_mem_nil⟩
  | cons c s ih =>
      obtain ⟨words, rest, rfl, ends, clean⟩ := ih
      by_cases same : stop = c
      · subst same
        refine ⟨[stop] :: words, rest, by simp, ?_, clean⟩
        exact List.forall_mem_cons.mpr ⟨.of List.not_mem_nil, ends⟩
      · cases words with
        | nil =>
            refine ⟨[], c :: rest, by simp, by simp, ?_⟩
            exact List.not_mem_cons_of_ne_of_not_mem same clean
        | cons w words =>
            obtain ⟨⟨body, rfl, absent⟩, later⟩ := List.forall_mem_cons.mp ends
            refine ⟨((c :: body) ++ [stop]) :: words, rest, by simp, ?_, clean⟩
            exact List.forall_mem_cons.mpr ⟨.of (List.not_mem_cons_of_ne_of_not_mem same absent), later⟩

theorem cut_inj {words words' : List (List α)} {rest rest' : List α}
    (ends : ∀ w ∈ words, Ends stop w) (ends' : ∀ w ∈ words', Ends stop w) (clean : stop ∉ rest)
    (clean' : stop ∉ rest') (same : words.flatten ++ rest = words'.flatten ++ rest') :
    words = words' ∧ rest = rest' := by
  have closed : (words ++ [rest ++ [stop]]).flatten = (words' ++ [rest' ++ [stop]]).flatten := by
    simp only [List.flatten_append, List.flatten_cons, List.flatten_nil, List.append_nil]
    rw [← List.append_assoc, same, List.append_assoc]
  have each : ∀ {ws : List (List α)} {r : List α}, (∀ w ∈ ws, Ends stop w) → stop ∉ r →
      ∀ w ∈ ws ++ [r ++ [stop]], Ends stop w := by
    intro ws r ends clean
    exact List.forall_mem_append.mpr ⟨ends, List.forall_mem_singleton.mpr (.of clean)⟩
  have one := flatten_inj (each ends clean) (each ends' clean') closed
  have last := List.singleton_inj.mp (List.append_inj_right' one rfl)
  exact ⟨List.append_inj_left' one rfl, List.append_inj_left' last rfl⟩

theorem suffix_flatten {words : List (List α)} {s : List α} (suffix : s <:+ words.flatten)
    (nonempty : s ≠ []) : ∃ before w after part, words = before ++ w :: after ∧ part <:+ w ∧
      part ≠ [] ∧ s = part ++ after.flatten := by
  induction words with
  | nil => exact absurd (List.suffix_nil.mp suffix) nonempty
  | cons w words ih =>
      obtain ⟨front, cut⟩ := suffix
      rw [List.flatten_cons] at cut
      rcases List.append_eq_append_iff.mp cut with ⟨part, rfl, rfl⟩ | ⟨later, rfl, inRest⟩
      · by_cases empty : part = []
        · subst empty
          obtain ⟨before, w', after, part, rfl, within, some_part, same⟩ :=
            ih (List.suffix_refl _)
          exact ⟨(front ++ []) :: before, w', after, part, rfl, within, some_part, same⟩
        · exact ⟨[], _, words, part, rfl, List.suffix_append _ _, empty, rfl⟩
      · obtain ⟨before, w', after, part, rfl, within, some_part, same⟩ :=
          ih ⟨later, inRest.symm⟩
        exact ⟨w :: before, w', after, part, rfl, within, some_part, same⟩

section Count

variable [DecidableEq α]

theorem Ends.count {word : List α} (ends : Ends stop word) : word.count stop = 1 := by
  obtain ⟨body, rfl, clean⟩ := ends
  simp [List.count_eq_zero_of_not_mem clean]

theorem Ends.of_count {body : List α} (one : (body ++ [stop]).count stop ≤ 1) :
    Ends stop (body ++ [stop]) := by
  refine .of fun member => ?_
  have := List.count_pos_iff.mpr member
  simp only [List.count_append, List.count_singleton_self] at one
  omega

theorem count_words {words : List (List α)} (ends : ∀ w ∈ words, Ends stop w) {rest : List α}
    (clean : stop ∉ rest) : (words.flatten ++ rest).count stop = words.length := by
  induction words with
  | nil => simpa using List.count_eq_zero_of_not_mem clean
  | cons w words ih =>
      obtain ⟨here, later⟩ := List.forall_mem_cons.mp ends
      rw [List.flatten_cons, List.append_assoc, List.count_append, here.count, ih later,
        List.length_cons, Nat.add_comm]

theorem length_le_count {words : List (List α)} (closed : ∀ w ∈ words, ∃ body, w = body ++ [stop]) :
    words.length ≤ words.flatten.count stop := by
  induction words with
  | nil => exact Nat.le_refl _
  | cons w words ih =>
      obtain ⟨⟨body, rfl⟩, later⟩ := List.forall_mem_cons.mp closed
      have := ih later
      simp only [List.flatten_cons, List.length_cons, List.count_append, List.count_singleton_self]
      omega

theorem ends_of_count {words : List (List α)} (closed : ∀ w ∈ words, ∃ body, w = body ++ [stop])
    (few : words.flatten.count stop ≤ words.length) : ∀ w ∈ words, Ends stop w := by
  induction words with
  | nil => simp
  | cons w words ih =>
      obtain ⟨⟨body, rfl⟩, later⟩ := List.forall_mem_cons.mp closed
      have others := length_le_count later
      simp only [List.flatten_cons, List.length_cons, List.count_append] at few
      refine List.forall_mem_cons.mpr ⟨.of_count (by rw [List.count_append]; omega), ih later ?_⟩
      rw [List.count_singleton_self] at few
      omega

end Count

end Terminated
