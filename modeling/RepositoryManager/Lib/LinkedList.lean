import Mathlib.Data.Finmap
import Mathlib.Data.List.Nodup

/-! # Singly linked lists in a heap

A heap is a finite map from addresses to cells. `Chain` says which cells are met
from a pointer along `next` until the null pointer; it is a list of addresses with
what is stored there. A chain that ends cannot meet a cell twice, so writing one
cell leaves the rest of the chain as it is.
-/

namespace LinkedList

/-- A cell; `none` is the null pointer. -/
structure Cell (Addr α : Type) where
  data : α
  next : Option Addr
  deriving DecidableEq

/-- The cells that are allocated. -/
abbrev Heap (Addr α : Type) := Finmap fun _ : Addr => Cell Addr α

variable {Addr α : Type}

/-- The chain from a pointer: the address and the contents of each of its cells. -/
inductive Chain [DecidableEq Addr] (h : Heap Addr α) : Option Addr → List (Addr × α) → Prop where
  /-- The null pointer. -/
  | nil : Chain h none []
  /-- A cell and the chain from its `next`. -/
  | cons {a v next cells} :
    h.lookup a = some { data := v, next := next } → Chain h next cells →
      Chain h (some a) ((a, v) :: cells)

variable [DecidableEq Addr] {h : Heap Addr α} {p : Option Addr} {cells : List (Addr × α)}

/-! ## Access through a pointer -/

/-- The cell that a pointer points to. -/
def read (h : Heap Addr α) (p : Option Addr) : Option (Cell Addr α) := p.bind h.lookup

/-- `p->next = next`, for a pointer to a cell. -/
def setNext (h : Heap Addr α) (p next : Option Addr) : Option (Heap Addr α) := do
  let a ← p
  let cell ← h.lookup a
  return h.insert a { cell with next := next }

theorem setNext_of_lookup {a : Addr} {v : α} {old next : Option Addr}
    (found : h.lookup a = some { data := v, next := old }) :
    setNext h (some a) next = some (h.insert a { data := v, next := next }) := by
  simp [setNext, found]

theorem setNext_unchanged {a : Addr} {v : α} {next : Option Addr}
    (found : h.lookup a = some { data := v, next := next }) : setNext h (some a) next = some h := by
  rw [setNext_of_lookup found]
  congr 1
  refine Finmap.ext_lookup fun b => ?_
  by_cases same : b = a
  · subst same
    rw [Finmap.lookup_insert, found]
  · rw [Finmap.lookup_insert_of_ne h same]

/-! ## Chains -/

theorem Chain.null_iff (chain : Chain h p cells) : p = none ↔ cells = [] := by
  cases chain with
  | nil => simp
  | cons _ _ => simp

theorem Chain.unique {other : List (Addr × α)} (chain : Chain h p cells)
    (second : Chain h p other) : cells = other := by
  induction chain generalizing other with
  | nil =>
      cases second
      rfl
  | cons found _ ih =>
      cases second with
      | cons foundToo rest =>
          rw [found] at foundToo
          cases foundToo
          rw [ih rest]

theorem Chain.from_cell (chain : Chain h p cells) {a : Addr} (member : a ∈ cells.map Prod.fst) :
    ∃ later, Chain h (some a) later ∧ later.length ≤ cells.length := by
  induction chain with
  | nil => cases member
  | @cons b v next cells found rest ih =>
      rcases List.mem_cons.mp member with same | later
      · cases same
        exact ⟨_, .cons found rest, Nat.le_refl _⟩
      · obtain ⟨tail, chain, shorter⟩ := ih later
        exact ⟨tail, chain, Nat.le_succ_of_le shorter⟩

/-- No cell is met twice: the chain from its second place would be as long as the one from
    its first. -/
theorem Chain.nodup (chain : Chain h p cells) : (cells.map Prod.fst).Nodup := by
  induction chain with
  | nil => exact List.nodup_nil
  | cons found rest ih =>
      refine List.nodup_cons.mpr ⟨fun again => ?_, ih⟩
      obtain ⟨later, chain, shorter⟩ := rest.from_cell again
      have same := chain.unique (.cons found rest)
      rw [same, List.length_cons] at shorter
      exact Nat.not_succ_le_self _ shorter

theorem Chain.frame {h' : Heap Addr α} (chain : Chain h p cells)
    (same : ∀ a ∈ cells.map Prod.fst, h'.lookup a = h.lookup a) : Chain h' p cells := by
  induction chain with
  | nil => exact .nil
  | cons found _ ih =>
      refine .cons ?_ (ih fun a member => same a (List.mem_cons_of_mem _ member))
      rw [same _ List.mem_cons_self, found]

theorem Chain.last {t : Addr} {v : α} (chain : Chain h p (cells ++ [(t, v)])) :
    h.lookup t = some { data := v, next := none } := by
  induction cells generalizing p with
  | nil =>
      cases chain with
      | cons found rest =>
          cases rest
          exact found
  | cons cell cells ih =>
      cases chain with
      | cons _ rest => exact ih rest

theorem Chain.snoc {t c : Addr} {v w : α} (chain : Chain h p (cells ++ [(t, v)]))
    (added : h.lookup c = some { data := w, next := none })
    (apart : c ∉ (cells ++ [(t, v)]).map Prod.fst) :
    Chain (h.insert t { data := v, next := some c }) p (cells ++ [(t, v), (c, w)]) := by
  induction cells generalizing p with
  | nil =>
      cases chain with
      | cons found rest =>
          have other : c ≠ t := by simpa using apart
          refine .cons (Finmap.lookup_insert h) (.cons ?_ .nil)
          rw [Finmap.lookup_insert_of_ne h other, added]
  | cons cell cells ih =>
      have nodup := chain.nodup
      cases chain with
      | @cons a u _ _ found rest =>
          rw [List.cons_append, List.map_cons, List.mem_cons, not_or] at apart
          have other : a ≠ t := by
            rintro rfl
            simp at nodup
          refine .cons ?_ (ih rest apart.2)
          rw [Finmap.lookup_insert_of_ne h other, found]

theorem Chain.pop {a : Addr} {v : α} {next : Option Addr}
    (found : h.lookup a = some { data := v, next := next })
    (chain : Chain h (some a) ((a, v) :: cells)) : Chain (h.erase a) next cells := by
  have nodup := chain.nodup
  cases chain with
  | cons foundToo rest =>
      rw [found] at foundToo
      cases foundToo
      refine rest.frame fun b member => Finmap.lookup_erase_ne ?_
      rintro rfl
      exact (List.nodup_cons.mp nodup).1 member

end LinkedList
