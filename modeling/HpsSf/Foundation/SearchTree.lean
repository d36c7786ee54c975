import Mathlib.Data.List.Pairwise
import Mathlib.Data.List.Perm.Basic
import Mathlib.Data.Tree.Basic

/-! Search trees driven by a comparison that need not be an order.

An ordered set is kept as the list of its elements in iteration order. The tree
over them is whatever rebalancing has made of it: each operation is given a
shape, and what is proved holds for every shape. Insertion goes to a leaf and
lookup to a lower bound, both by the comparison alone.
-/

set_option autoImplicit false

namespace HpsSf.Foundation.SearchTree

variable {α : Type}

def inorder : BinaryTree α → List α
  | .nil => []
  | .node x left right => inorder left ++ x :: inorder right

/-- A tree for every list of elements, with these elements in this order. -/
structure Shape (α : Type) where
  build : List α → BinaryTree α
  inorder_build : ∀ elements, inorder (build elements) = elements

/-- Every element is the left child of the one after it. -/
def Shape.spine : Shape α where
  build := List.foldl (fun left x => .node x left .nil) .nil
  inorder_build elements := by
    have grown (tree : BinaryTree α) :
        inorder (elements.foldl (fun left x => .node x left .nil) tree) = inorder tree ++ elements := by
      induction elements generalizing tree with
      | nil => exact (List.append_nil _).symm
      | cons x rest ih => rw [List.foldl_cons, ih, inorder, inorder, List.append_assoc, List.singleton_append]
    exact grown .nil

section
variable (lt : α → α → Bool)

def insert (x : α) : BinaryTree α → BinaryTree α
  | .nil => .node x .nil .nil
  | .node y left right =>
      if lt x y then .node y (insert x left) right else .node y left (insert x right)

/-- The last node at which the descent for a new element goes right. -/
def floor (x : α) : BinaryTree α → Option α
  | .nil => none
  | .node y left right => if lt x y then floor x left else (floor x right).or (some y)

/-- The last node at which the descent for a key goes left. -/
def lowerBound (k : α) : BinaryTree α → Option α
  | .nil => none
  | .node y left right => if lt y k then lowerBound k right else (lowerBound k left).or (some y)

/-- Insertion into a set: the new elements, and the one equivalent to `x` among them. -/
def Shape.insert (shape : Shape α) (x : α) (elements : List α) : List α × α :=
  match floor lt x (shape.build elements) with
  | some y =>
      if lt y x then (inorder (SearchTree.insert lt x (shape.build elements)), x) else (elements, y)
  | none => (inorder (SearchTree.insert lt x (shape.build elements)), x)

/-- Lookup in a set; `none` is the end of the set. -/
def Shape.find (shape : Shape α) (k : α) (elements : List α) : Option α :=
  match lowerBound lt k (shape.build elements) with
  | some y => if lt k y then none else some y
  | none => none

end

variable {lt : α → α → Bool}

theorem perm_insert (x : α) (tree : BinaryTree α) :
    (inorder (insert lt x tree)).Perm (x :: inorder tree) := by
  induction tree with
  | nil => exact .refl _
  | node y left right leftIh rightIh =>
    simp only [insert]
    split
    · exact (leftIh.append_right _).trans (by simp [inorder])
    · have moved := (rightIh.cons y).trans (List.Perm.swap x y _)
      exact (moved.append_left _).trans List.perm_middle

theorem mem_insert {x y : α} {tree : BinaryTree α} :
    y ∈ inorder (insert lt x tree) ↔ y = x ∨ y ∈ inorder tree := by
  rw [(perm_insert x tree).mem_iff, List.mem_cons]

/-- An insertion leaves the elements in their order. -/
theorem sublist_insert (x : α) (tree : BinaryTree α) : (inorder tree).Sublist (inorder (insert lt x tree)) := by
  induction tree with
  | nil => exact List.nil_sublist _
  | node y left right leftIh rightIh =>
    simp only [insert]
    split
    · exact leftIh.append_right _
    · exact (rightIh.cons_cons y).append_left _

theorem Shape.sublist_insert (shape : Shape α) (x : α) (elements : List α) :
    elements.Sublist (shape.insert lt x elements).1 := by
  have grown : (inorder (shape.build elements)).Sublist (inorder (SearchTree.insert lt x (shape.build elements))) :=
    SearchTree.sublist_insert x _
  rw [shape.inorder_build] at grown
  unfold Shape.insert
  repeat' split
  · exact grown
  · exact .refl _
  · exact grown

/-- Insertion keeps a transitive relation along the elements if it holds on the
side of every element on which the comparison puts the new one. -/
theorem pairwise_insert (R : α → α → Prop) (trans : ∀ {a b c}, R a b → R b c → R a c) {x : α}
    {tree : BinaryTree α} (before : ∀ y ∈ inorder tree, lt x y = false → R y x)
    (after : ∀ y ∈ inorder tree, lt x y = true → R x y) (sorted : (inorder tree).Pairwise R) :
    (inorder (insert lt x tree)).Pairwise R := by
  induction tree with
  | nil => exact List.pairwise_singleton R x
  | node y left right leftIh rightIh =>
    obtain ⟨first, rest, across⟩ := List.pairwise_append.mp sorted
    obtain ⟨next, second⟩ := List.pairwise_cons.mp rest
    simp only [insert]
    split
    next less =>
      refine List.pairwise_append.mpr ⟨leftIh (fun z member => before z (by simp [inorder, member]))
        (fun z member => after z (by simp [inorder, member])) first, rest, fun z member u above => ?_⟩
      rcases mem_insert.mp member with rfl | old
      · have here := after y (by simp [inorder]) less
        rcases List.mem_cons.mp above with rfl | further
        · exact here
        · exact trans here (next u further)
      · exact across z old u above
    next notLess =>
      have here := before y (by simp [inorder]) (Bool.eq_false_iff.mpr notLess)
      refine List.pairwise_append.mpr ⟨first, List.pairwise_cons.mpr ⟨fun u above => ?_,
        rightIh (fun z member => before z (by simp [inorder, member]))
          (fun z member => after z (by simp [inorder, member])) second⟩, fun z member u above => ?_⟩
      · rcases mem_insert.mp above with rfl | old
        · exact here
        · exact next u old
      · rcases List.mem_cons.mp above with rfl | further
        · exact across z member u (List.mem_cons_self ..)
        · rcases mem_insert.mp further with rfl | old
          · exact trans (across z member y (List.mem_cons_self ..)) here
          · exact across z member u (List.mem_cons_of_mem _ old)

theorem floor_eq_some {x y : α} {tree : BinaryTree α} (found : floor lt x tree = some y) :
    y ∈ inorder tree ∧ lt x y = false := by
  induction tree with
  | nil => cases found
  | node z left right leftIh rightIh =>
    simp only [floor] at found
    split at found
    · exact ⟨by simp [inorder, (leftIh found).1], (leftIh found).2⟩
    next notLess =>
      rcases Option.or_eq_some_iff.mp found with deeper | ⟨_, same⟩
      · exact ⟨by simp [inorder, (rightIh deeper).1], (rightIh deeper).2⟩
      · cases same
        exact ⟨by simp [inorder], Bool.eq_false_iff.mpr notLess⟩

theorem lowerBound_eq_some {k y : α} {tree : BinaryTree α} (found : lowerBound lt k tree = some y) :
    y ∈ inorder tree ∧ lt y k = false := by
  induction tree with
  | nil => cases found
  | node z left right leftIh rightIh =>
    simp only [lowerBound] at found
    split at found
    · exact ⟨by simp [inorder, (rightIh found).1], (rightIh found).2⟩
    next notLess =>
      rcases Option.or_eq_some_iff.mp found with deeper | ⟨_, same⟩
      · exact ⟨by simp [inorder, (leftIh deeper).1], (leftIh deeper).2⟩
      · cases same
        exact ⟨by simp [inorder], Bool.eq_false_iff.mpr notLess⟩

/-- Where the elements below the key come first, the lower bound is the first other one. -/
theorem lowerBound_eq_find {k : α} {tree : BinaryTree α}
    (split : (inorder tree).Pairwise fun u v => lt v k = true → lt u k = true) :
    lowerBound lt k tree = (inorder tree).find? fun u => !lt u k := by
  induction tree with
  | nil => rfl
  | node y left right leftIh rightIh =>
    obtain ⟨first, rest, across⟩ := List.pairwise_append.mp split
    obtain ⟨_, second⟩ := List.pairwise_cons.mp rest
    simp only [lowerBound, inorder, List.find?_append, List.find?_cons]
    cases below : lt y k with
    | true =>
      have none : (inorder left).find? (fun u => !lt u k) = none := by
        rw [List.find?_eq_none]
        intro u member
        simp [across u member y (List.mem_cons_self ..) below]
      simp [none, rightIh second]
    | false => simp [leftIh first]

theorem Shape.find_eq_some {shape : Shape α} {k y : α} {elements : List α}
    (found : shape.find lt k elements = some y) :
    y ∈ elements ∧ lt y k = false ∧ lt k y = false := by
  unfold Shape.find at found
  split at found
  next z bound =>
    obtain ⟨member, notLess⟩ := lowerBound_eq_some bound
    rw [shape.inorder_build] at member
    split at found
    next => cases found
    next last =>
      cases found
      exact ⟨member, notLess, Bool.eq_false_iff.mpr last⟩
  next => cases found

/-- Where the comparison is a strict order along the elements, every element is found. -/
theorem Shape.find_of_sorted (shape : Shape α) {k : α} {elements : List α} (irrefl : lt k k = false)
    (sorted : elements.Pairwise fun u v => lt u v = true ∧ lt v u = false) (member : k ∈ elements) :
    shape.find lt k elements = some k := by
  obtain ⟨before, after, rfl⟩ := List.append_of_mem member
  obtain ⟨_, rest, across⟩ := List.pairwise_append.mp sorted
  obtain ⟨above, _⟩ := List.pairwise_cons.mp rest
  have below (u : α) (first : u ∈ before) : lt u k = true :=
    (across u first k (List.mem_cons_self ..)).1
  have beyond (u : α) (last : u ∈ k :: after) : lt u k = false := by
    rcases List.mem_cons.mp last with rfl | further
    · exact irrefl
    · exact (above u further).2
  have split : (inorder (shape.build (before ++ k :: after))).Pairwise
      fun u v => lt v k = true → lt u k = true := by
    rw [shape.inorder_build]
    refine List.pairwise_append.mpr ⟨List.pairwise_of_forall_mem_list fun u first _ _ _ => below u first,
      List.pairwise_of_forall_mem_list fun u _ v last less => ?_, fun u first _ _ _ => below u first⟩
    rw [beyond v last] at less
    cases less
  have bound : lowerBound lt k (shape.build (before ++ k :: after)) = some k := by
    rw [lowerBound_eq_find split, shape.inorder_build, List.find?_append, List.find?_cons,
      List.find?_eq_none.mpr fun u first => by simp [below u first]]
    simp [irrefl]
  simp [Shape.find, bound, irrefl]

/-- An element that no other one is equivalent to is inserted. -/
theorem Shape.insert_eq (shape : Shape α) {x : α} {elements : List α}
    (fresh : ∀ y ∈ elements, lt x y = false → lt y x = true) :
    shape.insert lt x elements = (inorder (SearchTree.insert lt x (shape.build elements)), x) := by
  unfold Shape.insert
  split
  next y found =>
    obtain ⟨member, notLess⟩ := floor_eq_some found
    rw [shape.inorder_build] at member
    rw [if_pos (fresh y member notLess)]
  next => rfl

theorem floor_eq_none {x : α} {tree : BinaryTree α} (first : ∀ y ∈ inorder tree, lt x y = true) :
    floor lt x tree = none := by
  induction tree with
  | nil => rfl
  | node z left right leftIh _ =>
    rw [floor, if_pos (first z (by simp [inorder]))]
    exact leftIh fun y member => first y (by simp [inorder, member])

theorem inorder_insert_first {x : α} {tree : BinaryTree α} (first : ∀ y ∈ inorder tree, lt x y = true) :
    inorder (insert lt x tree) = x :: inorder tree := by
  induction tree with
  | nil => rfl
  | node z left right leftIh _ =>
    rw [insert, if_pos (first z (by simp [inorder])), inorder,
      leftIh fun y member => first y (by simp [inorder, member])]
    rfl

/-- An element that is less than all others goes to the front. -/
theorem Shape.insert_first (shape : Shape α) {x : α} {elements : List α} (first : ∀ y ∈ elements, lt x y = true) :
    shape.insert lt x elements = (x :: elements, x) := by
  rw [← shape.inorder_build elements] at first
  rw [Shape.insert, floor_eq_none first, inorder_insert_first first, shape.inorder_build]

end HpsSf.Foundation.SearchTree
