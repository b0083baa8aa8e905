import RepositoryManager.Lib.Horn

/-! # Contexts of principals

A service has a program of its own, and imports the rules of principals. A rule of a
principal is meant in the context of that principal: its head is a statement of the
principal, and each premise is one the principal believes itself or one it asks the
service for. The service has only its own context; it imports a rule by writing `says`
around the statements of the principal. What it then derives is what it would learn
from the contexts themselves.
-/

namespace Contexts

open Horn

/-- A premise of a rule: the principal's own, or asked of the service. -/
inductive Premise (α : Type*) where
  | mine (a : α)
  | asked (a : α)

/-- A rule of a principal. -/
structure ContextRule (α : Type*) where
  head : α
  body : List (Premise α)

/-- A service with the rules of principals `K`; `speaks k a` is the atom that says that
    `k` says `a`. -/
structure Setting (K α : Type*) where
  speaks : K → α → α
  service : Program α
  clauses : K → Set (ContextRule α)

variable {K α β : Type*}

def Premise.map (f : α → β) : Premise α → Premise β
  | .mine a => .mine (f a)
  | .asked a => .asked (f a)

def ContextRule.map (f : α → β) (r : ContextRule α) : ContextRule β :=
  ⟨f r.head, r.body.map (Premise.map f)⟩

/-- A premise as the service imports it. -/
def Premise.imported (quote : α → α) : Premise α → α
  | .mine a => quote a
  | .asked a => a

/-- A rule as the service imports it. -/
def ContextRule.imported (quote : α → α) (r : ContextRule α) : Rule α :=
  ⟨quote r.head, r.body.map (Premise.imported quote)⟩

theorem ContextRule.imported_map {quote : α → α} {quote' : β → β} {f : α → β}
    (commutes : ∀ a, f (quote a) = quote' (f a)) (r : ContextRule α) :
    (r.imported quote).map f = (r.map f).imported quote' := by
  have premise : ∀ x : Premise α, f (x.imported quote) = (x.map f).imported quote' := by
    intro x
    cases x with
    | mine a => exact commutes a
    | asked a => rfl
  simp only [imported, Rule.map, map, commutes, List.map_map, Rule.mk.injEq, true_and]
  exact List.map_congr_left fun x _ => premise x

/-- The program of the service with all imported rules. -/
def Setting.program (s : Setting K α) : Program α :=
  s.service ∪ {r | ∃ k, ∃ c ∈ s.clauses k, r = c.imported (s.speaks k)}

/-- What is believed in the context of the service (`none`) and of each principal. A
    statement of a principal is what the principal believes, and conversely. -/
inductive Believes (s : Setting K α) : Option K → α → Prop where
  | service {r : Rule α} (inProgram : r ∈ s.service) (body : ∀ b ∈ r.body, Believes s none b) :
      Believes s none r.head
  | clause {k : K} {c : ContextRule α} (inClauses : c ∈ s.clauses k)
      (mine : ∀ b, .mine b ∈ c.body → Believes s (some k) b)
      (asked : ∀ b, .asked b ∈ c.body → Believes s none b) : Believes s (some k) c.head
  | told {k : K} {a : α} (believed : Believes s (some k) a) : Believes s none (s.speaks k a)
  | heard {k : K} {a : α} (said : Believes s none (s.speaks k a)) : Believes s (some k) a

/-- A belief of a context, as an atom of the service. -/
def Setting.inService (s : Setting K α) : Option K → α → α
  | none, a => a
  | some k, a => s.speaks k a

variable {s : Setting K α}

/-- Importing is sound: every belief is derived by the service's program. -/
theorem Believes.derived {context : Option K} {a : α} (believed : Believes s context a) :
    Derives s.program (s.inService context a) := by
  induction believed with
  | service inProgram _ ih => exact .rule (.inl inProgram) ih
  | @clause k c inClauses _ _ ihMine ihAsked =>
      refine Derives.rule (r := c.imported (s.speaks k)) (.inr ⟨k, c, inClauses, rfl⟩) ?_
      intro b member
      obtain ⟨premise, inBody, rfl⟩ := List.mem_map.mp member
      cases premise with
      | mine a => exact ihMine a inBody
      | asked a => exact ihAsked a inBody
  | told _ ih => exact ih
  | heard _ ih => exact ih

/-- Importing is complete: the beliefs of the service are a model of its program. -/
theorem believes_model (s : Setting K α) : Model s.program {a | Believes s none a} := by
  rintro r (inService | ⟨k, c, inClauses, rfl⟩) body
  · exact .service inService body
  · refine .told (.clause inClauses (fun b mine => ?_) fun b asked => ?_)
    · exact .heard (body _ (List.mem_map.mpr ⟨_, mine, rfl⟩))
    · exact body _ (List.mem_map.mpr ⟨_, asked, rfl⟩)

/-- The program of the service derives exactly what the service believes. -/
theorem derives_iff_believes (s : Setting K α) (a : α) :
    Derives s.program a ↔ Believes s none a :=
  ⟨fun derived => derived.holds (believes_model s), fun believed => believed.derived⟩

theorem derives_speaks_iff (s : Setting K α) (k : K) (a : α) :
    Derives s.program (s.speaks k a) ↔ Believes s (some k) a :=
  (derives_iff_believes s _).trans ⟨.heard, .told⟩

end Contexts
