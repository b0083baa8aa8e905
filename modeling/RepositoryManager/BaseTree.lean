import RepositoryManager.Lib.ByteString

/-! # Trees under construction

`antlr3basetree.c`, `antlr3basetreeadaptor.c` and `antlr3rewritestreams.c`, as the rules of
`RepositoryManagerParser.c` use them. A nil node is a list of trees that has no root yet; it
never becomes a child, for its own children are added in its place.
-/

namespace RepositoryManager

open ByteString

/-- `ANTLR3_BASE_TREE`. A nil node has no token. -/
inductive BaseTree where
  | nilNode (children : List BaseTree)
  | node (text : Str) (children : List BaseTree)

namespace BaseTree

def children : BaseTree → List BaseTree
  | .nilNode cs => cs
  | .node _ cs => cs

def withChildren : BaseTree → List BaseTree → BaseTree
  | .nilNode _, cs => .nilNode cs
  | .node text _, cs => .node text cs

/-- A null pointer adds nothing. -/
def addChild (tree : BaseTree) : Option BaseTree → BaseTree
  | none => tree
  | some (.nilNode cs) => tree.withChildren (tree.children ++ cs)
  | some (.node text cs) => tree.withChildren (tree.children ++ [.node text cs])

/-- Also `create`, by the text of the token. -/
def createTypeText (text : Str) : BaseTree := .node text []

/-- The copy has no children. -/
def dupNode : BaseTree → BaseTree
  | .nilNode _ => .nilNode []
  | .node text _ => .node text []

/-- A nil node as the new root stands for its only child. -/
def becomeRoot : Option BaseTree → Option BaseTree → Option BaseTree
  | none, oldRoot => oldRoot
  | newRoot, none => newRoot
  | some (.nilNode [t]), oldRoot => some (t.addChild oldRoot)
  | some (.nilNode cs), _ => some (.nilNode cs)
  | some (.node text cs), oldRoot => some (addChild (.node text cs) oldRoot)

/-- Transforms `^(nil x)` to `x`. -/
def rulePostProcessing : Option BaseTree → Option BaseTree
  | some (.nilNode []) => none
  | some (.nilNode [t]) => some t
  | root => root

@[simp] theorem children_withChildren (t : BaseTree) (cs : List BaseTree) :
    (t.withChildren cs).children = cs := by cases t <;> rfl

@[simp] theorem withChildren_withChildren (t : BaseTree) (cs cs' : List BaseTree) :
    (t.withChildren cs).withChildren cs' = t.withChildren cs' := by cases t <;> rfl

@[simp] theorem withChildren_children (t : BaseTree) : t.withChildren t.children = t := by
  cases t <;> rfl

/-- What a rule returns for these texts: a node if there is one, and a nil node if there are
    more. -/
def listTree (texts : List Str) : Option BaseTree :=
  rulePostProcessing (some (.nilNode (texts.map createTypeText)))

theorem addChild_listTree (t : BaseTree) (texts : List Str) :
    t.addChild (listTree texts) = t.withChildren (t.children ++ texts.map createTypeText) := by
  match texts with
  | [] => simp [listTree, rulePostProcessing, addChild]
  | [x] => rfl
  | x :: y :: rest => rfl

theorem listTree_isSome {texts : List Str} (nonempty : texts ≠ []) : (listTree texts).isSome := by
  match texts with
  | [] => exact absurd rfl nonempty
  | [x] => rfl
  | x :: y :: rest => rfl

end BaseTree

open BaseTree

/-- `ANTLR3_REWRITE_RULE_ELEMENT_STREAM`. A stream that was never created is an empty one. -/
structure ElementStream where
  elements : List BaseTree
  cursor : Nat
  dirty : Bool

namespace ElementStream

def empty : ElementStream := { elements := [], cursor := 0, dirty := false }

def add (s : ElementStream) (el : Option BaseTree) : ElementStream :=
  { s with elements := s.elements ++ el.toList }

def hasNext (s : ElementStream) : Bool := s.cursor < s.elements.length

/-- `_next`: a stream of one element gives it again and again. -/
def next (s : ElementStream) : Option BaseTree × ElementStream :=
  if s.elements.length ≤ s.cursor then
    (if s.elements.length = 1 then s.elements.head? else none, s)
  else (s.elements[s.cursor]?, { s with cursor := s.cursor + 1 })

def nextTree (s : ElementStream) : Option BaseTree × ElementStream :=
  if s.dirty ∨ (s.elements.length ≤ s.cursor ∧ s.elements.length = 1) then
    (s.next.1.map dupNode, s.next.2)
  else s.next

def reset (s : ElementStream) : ElementStream := { s with dirty := true, cursor := 0 }

/-- What the stream has not given yet. -/
def left (s : ElementStream) : Nat := s.elements.length - s.cursor

theorem left_nextTree_le (s : ElementStream) : s.nextTree.2.left ≤ s.left := by
  have step : s.next.2.left ≤ s.left := by
    unfold next left
    split <;> simp only <;> omega
  unfold nextTree
  split <;> exact step

theorem left_nextTree_lt {s : ElementStream} (more : s.hasNext = true) :
    s.nextTree.2.left < s.left := by
  have inside : s.cursor < s.elements.length := by simpa [hasNext] using more
  have step : s.next.2.left < s.left := by
    unfold next left
    split <;> simp only <;> omega
  unfold nextTree
  split <;> exact step

/-- `while(hasNext) addChild(root, nextTree)` -/
def appendAll (root : BaseTree) (s : ElementStream) : BaseTree × ElementStream :=
  if _more : s.hasNext then appendAll (root.addChild s.nextTree.1) s.nextTree.2 else (root, s)
termination_by s.left
decreasing_by exact left_nextTree_lt ‹_›

/-- The trees of these lists, none of which has been given yet. -/
def of (lists : List (List Str)) : ElementStream :=
  { elements := lists.filterMap listTree, cursor := 0, dirty := false }

theorem of_add (lists : List (List Str)) (texts : List Str) :
    (of lists).add (listTree texts) = of (lists ++ [texts]) := by
  have last : [texts].filterMap listTree = (listTree texts).toList := by
    cases made : listTree texts <;> simp [made]
  rw [of, of, add, List.filterMap_append, last]

theorem nextTree_at {elements after : List BaseTree} (before : List BaseTree) {t : BaseTree}
    (whole : elements = before ++ t :: after) :
    nextTree ⟨elements, before.length, false⟩ = (some t, ⟨elements, before.length + 1, false⟩) := by
  have inside : ¬ elements.length ≤ before.length := by
    rw [whole, List.length_append, List.length_cons]
    omega
  have here : elements[before.length]? = some t := by simp [whole]
  simp only [nextTree, next, inside, Bool.false_eq_true, false_and, or_self, if_false, here]

theorem appendAll_elements {elements before after : List BaseTree}
    (whole : elements = before ++ after) (root : BaseTree) :
    (appendAll root ⟨elements, before.length, false⟩).1 =
      (after.map some).foldl addChild root := by
  induction after generalizing before root with
  | nil =>
      have done : hasNext ⟨elements, before.length, false⟩ = false := by simp [hasNext, whole]
      rw [appendAll, dif_neg (by simp [done])]
      rfl
  | cons t after ih =>
      have more : hasNext ⟨elements, before.length, false⟩ = true := by simp [hasNext, whole]
      have rest : elements = (before ++ [t]) ++ after := by simp [whole]
      have tail := ih rest (root.addChild (some t))
      rw [List.length_append, List.length_singleton] at tail
      rw [appendAll, dif_pos more, nextTree_at before whole]
      exact tail

theorem appendAll_of (root : BaseTree) (lists : List (List Str)) :
    (appendAll root (of lists)).1 =
      root.withChildren (root.children ++ lists.flatten.map createTypeText) := by
  have whole : (of lists).elements = [] ++ lists.filterMap listTree := rfl
  refine (appendAll_elements whole root).trans ?_
  clear whole
  induction lists generalizing root with
  | nil => simp
  | cons texts lists ih =>
      rw [List.filterMap_cons, List.flatten_cons, List.map_append]
      by_cases empty : texts = []
      · subst empty
        exact ih root
      · obtain ⟨t, made⟩ := Option.isSome_iff_exists.mp (listTree_isSome empty)
        have first := addChild_listTree root texts
        rw [made] at first
        simp only [made, List.map_cons, List.foldl_cons]
        rw [first, ih]
        simp

end ElementStream

end RepositoryManager
