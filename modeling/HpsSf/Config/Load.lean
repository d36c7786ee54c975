import HpsSf.Config.ConfigVar
import HpsSf.Config.Yaml
import Mathlib.Data.List.Infix
import Mathlib.Logic.Function.Basic

/-! Loading a YAML tree into the registered variables.

The tree is flattened first: every node with a valid path goes into a list, in
document order, and a subtree under an invalid path is left out. Then each node
of the list is given to the variable that is registered under its path.
-/

set_option autoImplicit false

namespace HpsSf.Config
open Foundation (Text lowered madeOf lowered_of_madeOf)

/-- The characters of a name. There is no `9` among them. -/
def allowed : Text := "abcdefghijklmnopqrstuvwxyz._012345678".toList

/-- `prefix.empty() ? key : prefix + "." + key` -/
def join (path key : Text) : Text := if path.isEmpty then key else path ++ '.' :: key

mutual
/-- What `ListAllMember` appends to its output. -/
def listAllMember (path : Text) (node : Node) : List (Text × Node) :=
  if madeOf allowed path then
    (path, node) ::
      match node with
      | .map entries => listEntries path entries
      | _ => []
  else []

/-- The loop over the entries of a map. -/
def listEntries (path : Text) : List (Text × Node) → List (Text × Node)
  | [] => []
  | (key, node) :: rest => listAllMember (join path key) node ++ listEntries path rest
end

/-- A variable with the conversion of its type; `none` is a `std::exception`.
`V` stands for the values of all types together. -/
structure Setting (V C : Type) where
  var : ConfigVar V C
  fromStr : Text → Option V

/-- Whatever is thrown is caught and logged, so a failed conversion changes nothing. -/
def Setting.fromString {V C : Type} [DecidableEq V] (setting : Setting V C) (text : Text) :
    Setting V C × List (Notification V C) :=
  match setting.fromStr text with
  | none => (setting, [])
  | some v =>
      let (var, told) := setting.var.setValue v
      ({ setting with var := var }, told)

/-- `GetDatas()`, as `LookupBase` reads it. -/
abbrev Datas (V C : Type) := Text → Option (Setting V C)

/-- A call of `fromString` on the variable with this name. -/
structure Conversion where
  name : Text
  text : Text
  deriving DecidableEq, Repr

/-- The scalar itself, or the emitted node. -/
def Node.content (emit : Node → Text) : Node → Text
  | .scalar text => text
  | node => emit node

variable {V C : Type} [DecidableEq V]

/-- The body of the loop of `LoadFromYaml`. -/
def loadNode (emit : Node → Text) (datas : Datas V C) (path : Text) (node : Node) : Datas V C × List Conversion :=
  if path.isEmpty then (datas, [])
  else
    match datas (lowered path) with
    -- Nobody has registered this name.
    | none => (datas, [])
    | some setting =>
        (Function.update datas (lowered path) (some (setting.fromString (node.content emit)).1),
          [⟨lowered path, node.content emit⟩])

def loadNodes (emit : Node → Text) (datas : Datas V C) : List (Text × Node) → Datas V C × List Conversion
  | [] => (datas, [])
  | (path, node) :: rest =>
      let (datas, calls) := loadNode emit datas path node
      let (datas, later) := loadNodes emit datas rest
      (datas, calls ++ later)

/-- The variables after loading, and the calls of `fromString` that were made. -/
def loadFromYaml (emit : Node → Text) (datas : Datas V C) (root : Node) : Datas V C × List Conversion :=
  loadNodes emit datas (listAllMember [] root)

/-! ## What the paths say -/

/-- The path of a node: the keys from the root, joined by dots. -/
def located (keys : List Text) : Text := keys.foldl join []

/-- The paths of a node and of its ancestors use only the allowed characters. -/
def valid (keys : List Text) : Bool := keys.inits.all fun above => madeOf allowed (located above)

mutual
/-- Every node of the tree with its keys, in document pre-order. -/
def nodes (keys : List Text) (node : Node) : List (List Text × Node) :=
  (keys, node) ::
    match node with
    | .map entries => entryNodes keys entries
    | _ => []

def entryNodes (keys : List Text) : List (Text × Node) → List (List Text × Node)
  | [] => []
  | (key, node) :: rest => nodes (keys ++ [key]) node ++ entryNodes keys rest
end

theorem located_append_singleton (keys : List Text) (key : Text) :
    located (keys ++ [key]) = join (located keys) key := by
  rw [located, List.foldl_append, List.foldl_cons, List.foldl_nil, ← located]

theorem valid_iff {keys : List Text} :
    valid keys = true ↔ ∀ above, above <+: keys → madeOf allowed (located above) = true := by
  simp [valid, List.mem_inits]

theorem valid_of_prefix {keys longer : List Text} (shorter : keys <+: longer) (holds : valid longer = true) :
    valid keys = true :=
  valid_iff.mpr fun above before => valid_iff.mp holds above (before.trans shorter)

theorem valid_append_singleton {keys : List Text} (above : valid keys = true) (key : Text) :
    valid (keys ++ [key]) = madeOf allowed (located (keys ++ [key])) := by
  rw [Bool.eq_iff_iff]
  constructor
  · intro holds
    exact valid_iff.mp holds _ (List.prefix_refl _)
  · intro last
    refine valid_iff.mpr fun before shorter => ?_
    obtain rfl | shorter := List.prefix_concat_iff.mp shorter
    · exact last
    · exact valid_iff.mp above before shorter

mutual
/-- The nodes below a node have its keys first. -/
theorem nodes_extend (keys : List Text) (node : Node) : ∀ found ∈ nodes keys node, keys <+: found.1 := by
  intro found member
  cases node with
  | map entries =>
    rw [nodes] at member
    obtain rfl | below := List.mem_cons.mp member
    · exact List.prefix_refl _
    · exact entryNodes_extend keys entries found below
  | null => simp_all [nodes]
  | scalar text => simp_all [nodes]
  | sequence items => simp_all [nodes]

theorem entryNodes_extend (keys : List Text) (entries : List (Text × Node)) :
    ∀ found ∈ entryNodes keys entries, keys <+: found.1 := by
  intro found member
  cases entries with
  | nil => cases member
  | cons entry rest =>
    obtain ⟨key, node⟩ := entry
    rw [entryNodes] at member
    obtain here | later := List.mem_append.mp member
    · exact (List.prefix_append _ _).trans (nodes_extend (keys ++ [key]) node found here)
    · exact entryNodes_extend keys rest found later
end

/-- A node with its path, if the path and those of its ancestors are valid. -/
def reachable (found : List (List Text × Node)) : List (Text × Node) :=
  (found.filter fun one => valid one.1).map fun one => (located one.1, one.2)

theorem reachable_append (first second : List (List Text × Node)) :
    reachable (first ++ second) = reachable first ++ reachable second := by
  rw [reachable, List.filter_append, List.map_append, ← reachable, ← reachable]

mutual
/-- Flattening keeps exactly the nodes with valid paths. -/
theorem listAllMember_eq (keys : List Text) (node : Node) (above : valid keys = madeOf allowed (located keys)) :
    listAllMember (located keys) node = reachable (nodes keys node) := by
  cases made : madeOf allowed (located keys) with
  | false =>
    -- Everything below has this path above it.
    have none : reachable (nodes keys node) = [] := by
      rw [reachable, List.map_eq_nil_iff, List.filter_eq_nil_iff]
      intro found member holds
      have wrong := valid_of_prefix (nodes_extend keys node found member) holds
      rw [above, made] at wrong
      cases wrong
    rw [none]
    cases node <;> simp [listAllMember, made]
  | true =>
    rw [made] at above
    cases node with
    | map entries =>
      have below := listEntries_eq keys entries above
      rw [listAllMember, if_pos made, nodes]
      simp [below, reachable, above]
    | null => simp [listAllMember, made, nodes, reachable, above]
    | scalar text => simp [listAllMember, made, nodes, reachable, above]
    | sequence items => simp [listAllMember, made, nodes, reachable, above]

theorem listEntries_eq (keys : List Text) (entries : List (Text × Node)) (above : valid keys = true) :
    listEntries (located keys) entries = reachable (entryNodes keys entries) := by
  cases entries with
  | nil => rfl
  | cons entry rest =>
    obtain ⟨key, node⟩ := entry
    have first := listAllMember_eq (keys ++ [key]) node (valid_append_singleton above key)
    rw [located_append_singleton] at first
    rw [listEntries, entryNodes, reachable_append, first, listEntries_eq keys rest above]
end

/-! ## What is loaded -/

/-- The texts that the nodes found give to the variable with this name. -/
def textsFor (emit : Node → Text) (found : List (Text × Node)) (name : Text) : List Text :=
  if name.isEmpty then []
  else (found.filter fun one => one.1 = name).map fun one => one.2.content emit

/-- The calls of `fromString` one after the other, on one variable. -/
def Setting.fromStrings (setting : Setting V C) (texts : List Text) : Setting V C :=
  texts.foldl (fun setting text => (setting.fromString text).1) setting

def callsOn (name : Text) (calls : List Conversion) : List Text :=
  (calls.filter fun call => call.name = name).map Conversion.text

theorem callsOn_append (name : Text) (first second : List Conversion) :
    callsOn name (first ++ second) = callsOn name first ++ callsOn name second := by
  rw [callsOn, List.filter_append, List.map_append, ← callsOn, ← callsOn]

theorem textsFor_cons (emit : Node → Text) (one : Text × Node) (rest : List (Text × Node)) (name : Text) :
    textsFor emit (one :: rest) name = textsFor emit [one] name ++ textsFor emit rest name := by
  unfold textsFor
  split
  · rfl
  · rw [← List.map_append, ← List.filter_append, List.singleton_append]

theorem Setting.fromStrings_append (setting : Setting V C) (first second : List Text) :
    setting.fromStrings (first ++ second) = (setting.fromStrings first).fromStrings second :=
  List.foldl_append

theorem untouched (entry : Option (Setting V C)) : entry.map (·.fromStrings []) = entry := by
  cases entry <;> rfl

/-- One node: every variable gets exactly the texts that are for it. -/
theorem loadNode_spec (emit : Node → Text) (datas : Datas V C) (path : Text) (node : Node)
    (lower : lowered path = path) (name : Text) :
    (loadNode emit datas path node).1 name =
        (datas name).map (·.fromStrings (textsFor emit [(path, node)] name)) ∧
      callsOn name (loadNode emit datas path node).2 =
        if (datas name).isSome then textsFor emit [(path, node)] name else [] := by
  unfold loadNode
  rw [lower]
  by_cases root : path.isEmpty
  · have nothing : textsFor emit [(path, node)] name = [] := by
      unfold textsFor
      split
      · rfl
      next named =>
        have other : path ≠ name := fun same => named (same ▸ root)
        simp [other]
    rw [if_pos root, nothing]
    constructor
    · exact (untouched _).symm
    · simp [callsOn]
  · rw [if_neg root]
    by_cases same : path = name
    · subst same
      have text : textsFor emit [(path, node)] path = [node.content emit] := by simp [textsFor, root]
      rw [text]
      cases found : datas path with
      | none => simp [found, callsOn]
      | some setting => simp [Setting.fromStrings, callsOn]
    · have nothing : textsFor emit [(path, node)] name = [] := by simp [textsFor, same]
      rw [nothing, untouched]
      cases found : datas path with
      | none => simp [callsOn]
      | some setting => simp [callsOn, same, Function.update_of_ne (Ne.symm same)]

/-- The whole list of nodes, by induction: the texts of one variable come in order. -/
theorem loadNodes_spec (emit : Node → Text) (datas : Datas V C) (found : List (Text × Node))
    (lower : ∀ one ∈ found, lowered one.1 = one.1) (name : Text) :
    (loadNodes emit datas found).1 name = (datas name).map (·.fromStrings (textsFor emit found name)) ∧
      callsOn name (loadNodes emit datas found).2 =
        if (datas name).isSome then textsFor emit found name else [] := by
  induction found generalizing datas with
  | nil =>
    have nothing : textsFor emit [] name = [] := by simp [textsFor]
    rw [nothing]
    exact ⟨(untouched _).symm, by simp [loadNodes, callsOn]⟩
  | cons one rest ih =>
    obtain ⟨path, node⟩ := one
    have first := loadNode_spec emit datas path node (lower _ (List.mem_cons_self ..)) name
    have later := ih (loadNode emit datas path node).1 fun one member => lower one (List.mem_cons_of_mem _ member)
    rw [loadNodes, textsFor_cons]
    simp only [callsOn_append]
    rw [later.1, later.2, first.1, first.2]
    constructor
    · rw [Option.map_map]
      congr 1
      funext setting
      exact (Setting.fromStrings_append ..).symm
    · cases datas name <;> simp

theorem allowed_lower : ∀ c ∈ allowed, c.toLower = c := by
  have all : allowed.all (fun c => c.toLower == c) = true := by decide
  intro c member
  exact eq_of_beq (List.all_eq_true.mp all c member)

/-- A path that is kept has no upper-case letter. -/
theorem reachable_lowered (found : List (List Text × Node)) : ∀ one ∈ reachable found, lowered one.1 = one.1 := by
  intro one member
  obtain ⟨⟨keys, node⟩, kept, rfl⟩ := List.mem_map.mp member
  have holds := (List.mem_filter.mp kept).2
  exact lowered_of_madeOf allowed_lower (valid_iff.mp holds keys (List.prefix_refl _))

/-- Loading makes exactly the calls that the paths say. -/
theorem load_exact (emit : Node → Text) (datas : Datas V C) (root : Node) (name : Text) :
    let texts := textsFor emit (reachable (nodes [] root)) name
    (loadFromYaml emit datas root).1 name = (datas name).map (·.fromStrings texts) ∧
      callsOn name (loadFromYaml emit datas root).2 = if (datas name).isSome then texts else [] := by
  have flat : listAllMember [] root = reachable (nodes [] root) := listAllMember_eq [] root rfl
  rw [loadFromYaml, flat]
  exact loadNodes_spec emit datas _ (reachable_lowered _) name

end HpsSf.Config
