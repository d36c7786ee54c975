import HpsSf.Config.Load

/-! Loading a tree and the same tree with its keys in lower case.

The names of variables and the paths of nodes are lowered, but a path is tested
for allowed characters before, and no upper-case letter is among these. A key
with such a letter hides its whole subtree.
-/

set_option autoImplicit false

namespace HpsSf.Config
open Foundation (Text lowered madeOf madeOf_iff lowered_of_madeOf)

/-- A node as `YAML::Node` refers to it: its place, by the numbers of the entries
from the root, and what is there. -/
structure Handle where
  place : List Nat
  node : Node

mutual
/-- What `ListAllMember` appends to its output. -/
def listHandles (path : Text) (place : List Nat) (node : Node) : List (Text × Handle) :=
  if madeOf allowed path then
    (path, ⟨place, node⟩) ::
      match node with
      | .map entries => listEntryHandles path place 0 entries
      | _ => []
  else []

def listEntryHandles (path : Text) (place : List Nat) (i : Nat) : List (Text × Node) → List (Text × Handle)
  | [] => []
  | (key, node) :: rest =>
      listHandles (join path key) (place ++ [i]) node ++ listEntryHandles path place (i + 1) rest
end

variable {V C : Type}

/-- The nodes that `LoadFromYaml` hands to registered variables, with their names. -/
def handed (datas : Datas V C) (root : Node) : List (Text × Handle) :=
  (listHandles [] [] root).filterMap fun one =>
    if one.1.isEmpty then none else (datas (lowered one.1)).map fun _ => (lowered one.1, one.2)

/-- The places of the nodes that one variable is given, in order. -/
def placesFor (datas : Datas V C) (root : Node) (name : Text) : List (List Nat) :=
  ((handed datas root).filter fun one => one.1 = name).map fun one => one.2.place

mutual
/-- The tree with all keys in lower case. -/
def Node.lowerKeys : Node → Node
  | .null => .null
  | .scalar text => .scalar text
  | .sequence items => .sequence (lowerItems items)
  | .map entries => .map (lowerEntries entries)

def lowerItems : List Node → List Node
  | [] => []
  | item :: rest => item.lowerKeys :: lowerItems rest

def lowerEntries : List (Text × Node) → List (Text × Node)
  | [] => []
  | (key, node) :: rest => (lowered key, node.lowerKeys) :: lowerEntries rest
end

/-! ## The handles and the list that loading goes through -/

mutual
theorem listHandles_nodes (path : Text) (place : List Nat) (node : Node) :
    (listHandles path place node).map (fun one => (one.1, one.2.node)) = listAllMember path node := by
  cases made : madeOf allowed path with
  | false => cases node <;> simp [listHandles, listAllMember, made]
  | true =>
    cases node with
    | map entries => simp [listHandles, listAllMember, made, listEntryHandles_nodes path place 0 entries]
    | null => simp [listHandles, listAllMember, made]
    | scalar text => simp [listHandles, listAllMember, made]
    | sequence items => simp [listHandles, listAllMember, made]

theorem listEntryHandles_nodes (path : Text) (place : List Nat) (i : Nat) (entries : List (Text × Node)) :
    (listEntryHandles path place i entries).map (fun one => (one.1, one.2.node)) = listEntries path entries := by
  cases entries with
  | nil => rfl
  | cons entry rest =>
    obtain ⟨key, node⟩ := entry
    rw [listEntryHandles, listEntries, List.map_append, listHandles_nodes (join path key) (place ++ [i]) node,
      listEntryHandles_nodes path place (i + 1) rest]
end

/-- Loading registers nobody and forgets nobody. -/
theorem loadNode_registered [DecidableEq V] (emit : Node → Text) (datas : Datas V C) (path : Text) (node : Node)
    (name : Text) : ((loadNode emit datas path node).1 name).isSome = (datas name).isSome := by
  unfold loadNode
  split
  · rfl
  split
  next => rfl
  next setting found =>
    by_cases same : name = lowered path
    · subst same
      simp [found]
    · simp [same]

theorem loadNodes_calls [DecidableEq V] (emit : Node → Text) (datas : Datas V C) (found : List (Text × Node)) :
    (loadNodes emit datas found).2 = found.filterMap fun one =>
      if one.1.isEmpty then none else (datas (lowered one.1)).map fun _ => ⟨lowered one.1, one.2.content emit⟩ := by
  induction found generalizing datas with
  | nil => rfl
  | cons one rest ih =>
    obtain ⟨path, node⟩ := one
    have later : (loadNodes emit (loadNode emit datas path node).1 rest).2 = rest.filterMap fun one =>
        if one.1.isEmpty then none
        else (datas (lowered one.1)).map fun _ => (⟨lowered one.1, one.2.content emit⟩ : Conversion) := by
      rw [ih]
      refine List.filterMap_congr fun other _ => ?_
      have registered := loadNode_registered emit datas path node (lowered other.1)
      cases before : datas (lowered other.1) <;> cases after : (loadNode emit datas path node).1 (lowered other.1) <;>
        simp_all
    rw [loadNodes, List.filterMap_cons]
    simp only [later]
    unfold loadNode
    split
    · simp
    · split <;> simp_all

/-- The calls of `fromString` are those on the nodes handed over. -/
theorem loadFromYaml_handed [DecidableEq V] (emit : Node → Text) (datas : Datas V C) (root : Node) :
    (loadFromYaml emit datas root).2 = (handed datas root).map fun one => ⟨one.1, one.2.node.content emit⟩ := by
  rw [loadFromYaml, loadNodes_calls, handed, ← listHandles_nodes [] [] root, List.filterMap_map, List.map_filterMap]
  refine List.filterMap_congr fun one _ => ?_
  simp only [Function.comp_apply]
  split
  · rfl
  · rw [Option.map_map]
    rfl

/-! ## What lowering does to the paths -/

mutual
/-- Every node of the tree with its keys and its place, in document pre-order. -/
def visited (keys : List Text) (place : List Nat) (node : Node) : List (List Text × Handle) :=
  (keys, ⟨place, node⟩) ::
    match node with
    | .map entries => visitedEntries keys place 0 entries
    | _ => []

def visitedEntries (keys : List Text) (place : List Nat) (i : Nat) : List (Text × Node) → List (List Text × Handle)
  | [] => []
  | (key, node) :: rest =>
      visited (keys ++ [key]) (place ++ [i]) node ++ visitedEntries keys place (i + 1) rest
end

mutual
theorem visited_extend (keys : List Text) (place : List Nat) (node : Node) :
    ∀ found ∈ visited keys place node, keys <+: found.1 := by
  intro found member
  cases node with
  | map entries =>
    rw [visited] at member
    obtain rfl | below := List.mem_cons.mp member
    · exact List.prefix_refl _
    · exact visitedEntries_extend keys place 0 entries found below
  | null => simp_all [visited]
  | scalar text => simp_all [visited]
  | sequence items => simp_all [visited]

theorem visitedEntries_extend (keys : List Text) (place : List Nat) (i : Nat) (entries : List (Text × Node)) :
    ∀ found ∈ visitedEntries keys place i entries, keys <+: found.1 := by
  intro found member
  cases entries with
  | nil => cases member
  | cons entry rest =>
    obtain ⟨key, node⟩ := entry
    rw [visitedEntries] at member
    obtain here | later := List.mem_append.mp member
    · exact (List.prefix_append _ _).trans (visited_extend (keys ++ [key]) (place ++ [i]) node found here)
    · exact visitedEntries_extend keys place (i + 1) rest found later
end

/-- The handles of the nodes with valid paths. -/
def reached (found : List (List Text × Handle)) : List (Text × Handle) :=
  (found.filter fun one => valid one.1).map fun one => (located one.1, one.2)

mutual
theorem listHandles_eq (keys : List Text) (place : List Nat) (node : Node)
    (above : valid keys = madeOf allowed (located keys)) :
    listHandles (located keys) place node = reached (visited keys place node) := by
  cases made : madeOf allowed (located keys) with
  | false =>
    have none : reached (visited keys place node) = [] := by
      rw [reached, List.map_eq_nil_iff, List.filter_eq_nil_iff]
      intro found member holds
      have wrong := valid_of_prefix (visited_extend keys place node found member) holds
      rw [above, made] at wrong
      cases wrong
    rw [none]
    cases node <;> simp [listHandles, made]
  | true =>
    rw [made] at above
    cases node with
    | map entries =>
      have below := listEntryHandles_eq keys place 0 entries above
      simp [listHandles, made, visited, below, reached, above]
    | null => simp [listHandles, made, visited, reached, above]
    | scalar text => simp [listHandles, made, visited, reached, above]
    | sequence items => simp [listHandles, made, visited, reached, above]

theorem listEntryHandles_eq (keys : List Text) (place : List Nat) (i : Nat) (entries : List (Text × Node))
    (above : valid keys = true) :
    listEntryHandles (located keys) place i entries = reached (visitedEntries keys place i entries) := by
  cases entries with
  | nil => rfl
  | cons entry rest =>
    obtain ⟨key, node⟩ := entry
    have first := listHandles_eq (keys ++ [key]) (place ++ [i]) node (valid_append_singleton above key)
    have later := listEntryHandles_eq keys place (i + 1) rest above
    rw [located_append_singleton] at first
    rw [listEntryHandles, visitedEntries, first, later]
    simp [reached]
end

mutual
/-- Lowering moves nothing. -/
theorem visited_lowerKeys (keys : List Text) (place : List Nat) (node : Node) :
    visited (keys.map lowered) place node.lowerKeys =
      (visited keys place node).map fun one => (one.1.map lowered, ⟨one.2.place, one.2.node.lowerKeys⟩) := by
  cases node with
  | map entries =>
    rw [Node.lowerKeys, visited, visited]
    simp only [List.map_cons, visitedEntries_lowerEntries keys place 0 entries, Node.lowerKeys]
  | null => simp [visited, Node.lowerKeys]
  | scalar text => simp [visited, Node.lowerKeys]
  | sequence items => simp [visited, Node.lowerKeys]

theorem visitedEntries_lowerEntries (keys : List Text) (place : List Nat) (i : Nat) (entries : List (Text × Node)) :
    visitedEntries (keys.map lowered) place i (lowerEntries entries) =
      (visitedEntries keys place i entries).map fun one =>
        (one.1.map lowered, ⟨one.2.place, one.2.node.lowerKeys⟩) := by
  cases entries with
  | nil => rfl
  | cons entry rest =>
    obtain ⟨key, node⟩ := entry
    have first := visited_lowerKeys (keys ++ [key]) (place ++ [i]) node
    have later := visitedEntries_lowerEntries keys place (i + 1) rest
    rw [List.map_append, List.map_cons, List.map_nil] at first
    rw [lowerEntries, visitedEntries, visitedEntries, first, later, List.map_append]
end

theorem lowered_join (path key : Text) : join (lowered path) (lowered key) = lowered (join path key) := by
  have dot : '.'.toLower = '.' := by decide
  cases path <;> simp [join, lowered, dot]

theorem located_lowered (keys : List Text) : located (keys.map lowered) = lowered (located keys) := by
  have step (path : Text) : (keys.map lowered).foldl join (lowered path) = lowered (keys.foldl join path) := by
    induction keys generalizing path with
    | nil => rfl
    | cons key rest ih => rw [List.map_cons, List.foldl_cons, List.foldl_cons, lowered_join, ih]
  exact step []

/-- A path is made of its keys. -/
theorem mem_located {keys : List Text} {key : Text} (member : key ∈ keys) : ∀ c ∈ key, c ∈ located keys := by
  induction keys using List.reverseRecOn with
  | nil => cases member
  | append_singleton front last ih =>
    intro c inside
    rw [located_append_singleton, join]
    obtain earlier | here := List.mem_append.mp member
    · have found := ih earlier c inside
      split
      next empty =>
        rw [List.isEmpty_iff.mp empty] at found
        cases found
      next => exact List.mem_append_left _ found
    · obtain rfl := List.mem_singleton.mp here
      split
      · exact inside
      · exact List.mem_append_right _ (List.mem_cons_of_mem _ inside)

/-- A path is valid when it is valid in lower case and in lower case already. -/
theorem valid_eq_lowered (keys : List Text) :
    valid keys = (valid (keys.map lowered) && keys.all fun key => lowered key = key) := by
  have lower (holds : valid keys = true) : ∀ key ∈ keys, lowered key = key := by
    intro key member
    have made := valid_iff.mp holds keys (List.prefix_refl _)
    exact lowered_of_madeOf allowed_lower
      (madeOf_iff.mpr fun c inside => madeOf_iff.mp made c (mem_located member c inside))
  have same (all : ∀ key ∈ keys, lowered key = key) : keys.map lowered = keys :=
    (List.map_congr_left all).trans (List.map_id keys)
  rw [Bool.eq_iff_iff, Bool.and_eq_true_iff, List.all_eq_true]
  constructor
  · intro holds
    exact ⟨(same (lower holds)).symm ▸ holds, fun key member => decide_eq_true (lower holds key member)⟩
  · rintro ⟨holds, all⟩
    rwa [same fun key member => of_decide_eq_true (all key member)] at holds

/-! ## Two loads -/

/-- In lower case the path is the name of a registered variable. -/
def names (datas : Datas V C) (name : Text) (keys : List Text) : Bool :=
  !name.isEmpty && (datas name).isSome && located (keys.map lowered) = name

theorem placesFor_eq (datas : Datas V C) (root : Node) (name : Text) :
    placesFor datas root name =
      ((visited [] [] root).filter fun one => valid one.1 && names datas name one.1).map fun one => one.2.place := by
  have flat : listHandles [] [] root = reached (visited [] [] root) := listHandles_eq [] [] root rfl
  rw [placesFor, handed, flat, reached, List.filterMap_map, List.filterMap_filter, List.filter_filterMap,
    List.map_filterMap, ← List.filterMap_eq_map, List.filterMap_filter]
  refine List.filterMap_congr fun one _ => ?_
  simp only [Function.comp_apply]
  cases holds : valid one.1 with
  | false => simp
  | true =>
    by_cases same : lowered (located one.1) = name
    · have empty : (located one.1).isEmpty = name.isEmpty := by rw [← same, lowered, List.isEmpty_map]
      cases registered : datas name <;> cases root : name.isEmpty <;>
        simp [names, located_lowered, same, registered, empty, root]
    · have other : names datas name one.1 = false := by simp [names, located_lowered, same]
      cases registered : datas (lowered (located one.1)) <;> simp [other, same]

/-- A variable is given the same nodes whatever the case of the keys. -/
def CaseInsensitive (datas : Datas V C) (root : Node) : Prop :=
  ∀ name, placesFor datas root name = placesFor datas root.lowerKeys name

/-- No key on the way to a node for a registered variable has an upper-case letter. -/
def PlainKeys (datas : Datas V C) (root : Node) : Prop :=
  ∀ one ∈ visited [] [] root, valid (one.1.map lowered) = true → (∃ name, names datas name one.1 = true) →
    ∀ key ∈ one.1, lowered key = key

theorem case_insensitive_iff (datas : Datas V C) (root : Node) :
    CaseInsensitive datas root ↔ PlainKeys datas root := by
  have lower (name : Text) : placesFor datas root.lowerKeys name =
      ((visited [] [] root).filter fun one => valid (one.1.map lowered) && names datas name one.1).map
        fun one => one.2.place := by
    have moved := visited_lowerKeys [] [] root
    rw [List.map_nil] at moved
    rw [placesFor_eq, moved, List.filter_map, List.map_map]
    refine congrArg (List.map _) (List.filter_congr fun one _ => ?_)
    cases holds : valid (one.1.map lowered) with
    | false => simp [holds]
    | true =>
      have plain := holds
      rw [valid_eq_lowered, Bool.and_eq_true_iff] at plain
      have same : (one.1.map lowered).map lowered = one.1.map lowered :=
        (List.map_congr_left fun key member => of_decide_eq_true (List.all_eq_true.mp plain.2 key member)).trans
          (List.map_id _)
      simp [holds, names, same]
  have given (name : Text) : placesFor datas root name =
      (((visited [] [] root).filter fun one => valid (one.1.map lowered) && names datas name one.1).filter
        fun one => one.1.all fun key => lowered key = key).map fun one => one.2.place := by
    rw [placesFor_eq, List.filter_filter]
    refine congrArg (List.map _) (List.filter_congr fun one _ => ?_)
    rw [valid_eq_lowered, Bool.and_right_comm, Bool.and_comm]
  constructor
  · rintro insensitive one member holds ⟨name, named⟩ key inside
    -- As many places are left, so no node is.
    have length := congrArg List.length (insensitive name)
    rw [given, lower, List.length_map, List.length_map, List.length_filter_eq_length_iff] at length
    have plain := length one (List.mem_filter.mpr ⟨member, by simp [holds, named]⟩)
    exact of_decide_eq_true (List.all_eq_true.mp plain key inside)
  · intro plain name
    rw [given, lower]
    refine congrArg (List.map _) (List.filter_eq_self.mpr fun one member => ?_)
    obtain ⟨inside, both⟩ := List.mem_filter.mp member
    obtain ⟨holds, named⟩ := Bool.and_eq_true_iff.mp both
    exact List.all_eq_true.mpr fun key within => decide_eq_true (plain one inside holds ⟨name, named⟩ key within)

/-- A registry with one variable. -/
def oneName : Datas Nat Unit := fun name => if name = "a".toList then some ⟨.create 0, fun _ => none⟩ else none

/-- The key `A` hides the node of the variable `a`. -/
theorem upper_case_hidden :
    placesFor oneName (.map [("A".toList, .null)]) "a".toList = [] ∧
      placesFor oneName (Node.lowerKeys (.map [("A".toList, .null)])) "a".toList = [[0]] ∧
      ¬ CaseInsensitive oneName (.map [("A".toList, .null)]) := by
  have hidden : placesFor oneName (.map [("A".toList, .null)]) "a".toList = [] := by decide
  have shown : placesFor oneName (Node.lowerKeys (.map [("A".toList, .null)])) "a".toList = [[0]] := by decide
  refine ⟨hidden, shown, fun insensitive => ?_⟩
  have same := insensitive "a".toList
  rw [hidden, shown] at same
  cases same

end HpsSf.Config
