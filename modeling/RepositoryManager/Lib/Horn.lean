import Mathlib.Data.Set.Basic
import Mathlib.Logic.Function.Basic

/-! # Ground Horn programs

Rules over an arbitrary type of atoms, what they derive, and their models. A program
is the set of its ground instances, so it may be infinite; what it derives is its least
model.
-/

namespace Horn

/-- The atoms of the body together give the head. -/
structure Rule (α : Type*) where
  head : α
  body : List α

abbrev Program (α : Type*) := Set (Rule α)

variable {α β : Type*} {P Q : Program α}

def Rule.map (f : α → β) (r : Rule α) : Rule β := ⟨f r.head, r.body.map f⟩

theorem Rule.map_map {γ : Type*} (f : α → β) (g : β → γ) (r : Rule α) :
    (r.map f).map g = r.map (g ∘ f) := by
  rw [map, map, map, List.map_map]
  rfl

/-- The atoms that a program derives. -/
inductive Derives (P : Program α) : α → Prop where
  | rule {r : Rule α} (inProgram : r ∈ P) (body : ∀ b ∈ r.body, Derives P b) : Derives P r.head

/-- A set of atoms that is closed under the rules of a program. -/
def Model (P : Program α) (M : Set α) : Prop :=
  ∀ r ∈ P, (∀ b ∈ r.body, b ∈ M) → r.head ∈ M

theorem Derives.holds {M : Set α} {a : α} (derived : Derives P a) (model : Model P M) : a ∈ M := by
  induction derived with
  | rule inProgram _ ih => exact model _ inProgram ih

/-- A program derives what another does if it derives the heads of its rules from their
    bodies. -/
theorem Derives.trans {a : α} (derived : Derives P a)
    (derivable : ∀ r ∈ P, (∀ b ∈ r.body, Derives Q b) → Derives Q r.head) : Derives Q a :=
  derived.holds (M := {b | Derives Q b}) derivable

theorem Derives.mono {a : α} (derived : Derives P a) (sub : P ⊆ Q) : Derives Q a :=
  derived.trans fun _ inProgram body => .rule (sub inProgram) body

theorem Derives.last {a : α} (derived : Derives P a) :
    ∃ r ∈ P, r.head = a ∧ ∀ b ∈ r.body, Derives P b := by
  cases derived with
  | rule inProgram body => exact ⟨_, inProgram, rfl, body⟩

/-- A program whose rules for the images of a map are the images of the rules of another one
    derives the images of what the other derives. -/
theorem derives_image_iff {f : α → β} {Q : Program β} (apart : Function.Injective f)
    (images : ∀ r ∈ P, r.map f ∈ Q) (only : ∀ r ∈ Q, ∀ a, r.head = f a → ∃ r' ∈ P, r = r'.map f)
    (a : α) : Derives Q (f a) ↔ Derives P a := by
  constructor
  · intro derived
    have model : Model Q {x | ∀ a, x = f a → Derives P a} := by
      rintro r inProgram body a same
      obtain ⟨r', inProgram', rfl⟩ := only r inProgram a same
      rw [← apart same]
      exact .rule inProgram' fun b member => body (f b) (List.mem_map_of_mem member) b rfl
    exact derived.holds model a rfl
  · intro derived
    induction derived with
    | @rule r inProgram _ ih =>
        refine Derives.rule (r := r.map f) (images r inProgram) fun x member => ?_
        obtain ⟨b, inBody, rfl⟩ := List.mem_map.mp member
        exact ih b inBody

/-- Images of several programs, beside one that has no rules for them, are worth what each of
    the programs derives alone. -/
theorem derives_images_iff {K : Type*} {f : K → α → α} {S : Program α} {program : K → Program α}
    (apart : ∀ {k k' a a'}, f k a = f k' a' → k = k' ∧ a = a')
    (silent : ∀ r ∈ S, ∀ k a, r.head ≠ f k a)
    (images : ∀ k, ∀ r ∈ program k, r.map (f k) ∈ Q)
    (only : ∀ r ∈ Q, ∃ k, ∃ r' ∈ program k, r = r'.map (f k)) (a : α) :
    Derives (S ∪ Q) a ↔
      Derives (S ∪ {r | ∃ k b, Derives (program k) b ∧ r = ⟨f k b, []⟩}) a := by
  constructor
  · intro derived
    refine derived.trans ?_
    rintro r (inProgram | inImages) body
    · exact .rule (.inl inProgram) body
    · obtain ⟨k, r, inProgram, rfl⟩ := only r inImages
      refine Derives.rule (r := ⟨f k r.head, []⟩) (.inr ⟨k, r.head, ?_, rfl⟩)
        (List.forall_mem_nil _)
      refine .rule inProgram fun b member => ?_
      -- only the consequences have this atom for their head
      obtain ⟨r', inS | ⟨k', b', alone, rfl⟩, head, -⟩ :=
        (body (f k b) (List.mem_map_of_mem member)).last
      · exact absurd head (silent r' inS k b)
      · obtain ⟨rfl, rfl⟩ := apart head
        exact alone
  · intro derived
    refine derived.trans ?_
    rintro r (inProgram | ⟨k, b, alone, rfl⟩) body
    · exact .rule (.inl inProgram) body
    · refine (derives_image_iff (fun _ _ same => (apart same).2)
        (fun r inProgram => .inr (images k r inProgram)) ?_ b).mpr alone
      rintro r (inS | inImages) a same
      · exact absurd same (silent r inS k a)
      · obtain ⟨k', r', inProgram, rfl⟩ := only r inImages
        obtain ⟨rfl, -⟩ := apart same
        exact ⟨r', inProgram, rfl⟩

end Horn
