import HpsSf.Config.Yaml
import HpsSf.Foundation.OrderedSet
import HpsSf.Log.Level

/-! The definitions of loggers and their conversion to YAML and back. -/

set_option autoImplicit false

namespace HpsSf.Log
open Foundation (Text OrderedSet)
open Config (Node YamlCpp YamlFault)

/-- The type is 1 for a file and 2 for the standard output. -/
structure LogAppenderDefine where
  type : Nat := 0
  level : LogLevel := .unknow
  formatter : Text := []
  file : Text := []
  deriving DecidableEq, Repr

structure LogDefine where
  name : Text
  level : LogLevel := .unknow
  formatter : Text := []
  appenders : List LogAppenderDefine := []
  deriving DecidableEq, Repr

/-- `std::set<hps_LogDefine>`; `operator<` compares the names. -/
abbrev LogDefines := OrderedSet LogDefine.name

/-! ## Encoding -/

def LogAppenderDefine.node (a : LogAppenderDefine) : Node :=
  .map ((if a.type = 1 then
      [("type".toList, .scalar "hps_FileLogAppender".toList), ("file".toList, .scalar a.file)]
    else [("type".toList, .scalar "hps_StdoutLogAppender".toList)]) ++
    (if a.level ≠ .unknow then [("level".toList, .scalar a.level.toString)] else []) ++
    if a.formatter.isEmpty then [] else [("formatter".toList, .scalar a.formatter)])

def LogDefine.node (i : LogDefine) : Node :=
  .map ([("name".toList, .scalar i.name)] ++
    (if i.level ≠ .unknow then [("level".toList, .scalar i.level.toString)] else []) ++
    (if i.formatter.isEmpty then [] else [("formatter".toList, .scalar i.formatter)]) ++
    if i.appenders.isEmpty then [] else [("appenders".toList, .sequence (i.appenders.map (·.node)))])

/-- The node stays null when nothing is pushed to it. -/
def LogDefines.node (v : LogDefines) : Node :=
  if v.elements.isEmpty then .null else .sequence (v.elements.map (·.node))

/-- `hps_LexicalCast<std::set<hps_LogDefine>, std::string>` -/
def LogDefines.encode (yaml : YamlCpp) (v : LogDefines) : Text := yaml.emit v.node

/-! ## Decoding -/

section Decoding

variable (yaml : YamlCpp)

/-- One pass of the loop over the appenders; `none` is a `continue`. -/
def decodeAppender (a : Node) : Except YamlFault (Option LogAppenderDefine) := do
  match ← a.get "type".toList with
  | none => return none
  | some type =>
    let type ← type.asString yaml
    if type = "hps_FileLogAppender".toList then
      match ← a.get "file".toList with
      | none => return none
      | some file =>
        let file ← file.asString yaml
        match ← a.get "formatter".toList with
        | none => return some { type := 1, file := file }
        | some formatter => return some { type := 1, file := file, formatter := ← formatter.asString yaml }
    -- For the standard output neither a level nor a formatter is read.
    else if type = "hps_StdoutLogAppender".toList then return some { type := 2 }
    else return none

/-- A loop that pushes what its passes give. -/
def decodeEach {A : Type} (pass : Node → Except YamlFault (Option A)) : List Node → Except YamlFault (List A)
  | [] => return []
  | node :: rest => do
    let first ← pass node
    let later ← decodeEach pass rest
    return first.toList ++ later

/-- One pass of the loop over the loggers. -/
def decodeDefine (n : Node) : Except YamlFault (Option LogDefine) := do
  match ← n.get "name".toList with
  | none => return none
  | some name =>
    let name ← name.asString yaml
    let level ← match ← n.get "level".toList with
      | some level => level.asString yaml
      | none => pure []
    let formatter ← match ← n.get "formatter".toList with
      | some formatter => formatter.asString yaml
      | none => pure []
    let appenders ← match ← n.get "appenders".toList with
      | some appenders => decodeEach (decodeAppender yaml) appenders.items
      | none => pure []
    return some ⟨name, .fromString level, formatter, appenders⟩

/-- `hps_LexicalCast<std::string, std::set<hps_LogDefine>>` -/
def LogDefines.decode (v : Text) : Except YamlFault LogDefines := do
  match yaml.load v with
  | none => throw .parser
  | some node =>
    let defines ← decodeEach (decodeDefine yaml) node.items
    -- Of two definitions with one name the first stays.
    return defines.foldl OrderedSet.insert OrderedSet.empty

end Decoding

/-! ## What comes back -/

/-- What is left of an appender: its level is never read, nor the formatter of one for the standard output. -/
def LogAppenderDefine.decoded (a : LogAppenderDefine) : LogAppenderDefine :=
  if a.type = 1 then { type := 1, file := a.file, formatter := a.formatter } else { type := 2 }

def LogDefine.decoded (i : LogDefine) : LogDefine := { i with appenders := i.appenders.map (·.decoded) }

section RoundTrip

variable (yaml : YamlCpp)

theorem decodeEach_filterMap {A B : Type} {pass : Node → Except YamlFault (Option A)} {node : B → Node}
    {result : B → Option A} {values : List B} (each : ∀ value ∈ values, pass (node value) = .ok (result value)) :
    decodeEach pass (values.map node) = .ok (values.filterMap result) := by
  induction values with
  | nil => rfl
  | cons value rest ih =>
    rw [List.map_cons, decodeEach, each value (List.mem_cons_self ..),
      ih fun other member => each other (List.mem_cons_of_mem _ member), List.filterMap_cons]
    cases result value <;> rfl

theorem decodeEach_map {A B : Type} {pass : Node → Except YamlFault (Option A)} {node : B → Node} {result : B → A}
    {values : List B} (each : ∀ value ∈ values, pass (node value) = .ok (some (result value))) :
    decodeEach pass (values.map node) = .ok (values.map result) := by
  rw [decodeEach_filterMap each, List.filterMap_eq_map']

theorem decodeAppender_node (a : LogAppenderDefine) : decodeAppender yaml a.node = .ok (some a.decoded) := by
  obtain ⟨type, level, formatter, file⟩ := a
  by_cases kind : type = 1 <;> by_cases unknow : level = .unknow <;> cases formatter <;>
  simp [decodeAppender, LogAppenderDefine.node, LogAppenderDefine.decoded, Node.get, Node.asString, kind, unknow, bind,
    Except.bind, pure, Except.pure, List.lookup_cons, List.lookup_nil]

theorem decodeDefine_node {i : LogDefine} (named : i.level.Named) : decodeDefine yaml i.node = .ok (some i.decoded) := by
  obtain ⟨name, level, formatter, appenders⟩ := i
  have read : LogLevel.fromString level.toString = level := LogLevel.fromString_toString named
  have none : LogLevel.fromString [] = .unknow := by decide
  have each : decodeEach (decodeAppender yaml) (appenders.map (·.node)) = .ok (appenders.map (·.decoded)) :=
    decodeEach_map fun a _ => decodeAppender_node yaml a
  by_cases unknow : level = .unknow <;> cases formatter <;> cases appenders <;>
  simp_all [decodeDefine, LogDefine.node, LogDefine.decoded, Node.get, Node.asString, Node.items, bind, Except.bind, pure,
    Except.pure, List.lookup_cons, List.lookup_nil]

/-- Decoding gives every definition back, with what is left of its appenders. -/
theorem decode_encode (s : LogDefines) (loads : yaml.load (yaml.emit s.node) = some s.node)
    (named : ∀ i ∈ s.elements, i.level.Named) :
    ∃ back, LogDefines.decode yaml (s.encode yaml) = .ok back ∧ back.elements = s.elements.map (·.decoded) := by
  have each : decodeEach (decodeDefine yaml) s.node.items = .ok (s.elements.map (·.decoded)) := by
    unfold LogDefines.node
    split
    next empty =>
      rw [List.isEmpty_iff.mp empty]
      rfl
    · exact decodeEach_map fun i member => decodeDefine_node yaml (named i member)
  have sorted : (s.elements.map (·.decoded)).Pairwise fun x y => x.name < y.name :=
    List.pairwise_map.mpr s.sorted
  refine ⟨(s.elements.map (·.decoded)).foldl OrderedSet.insert OrderedSet.empty, ?_, ?_⟩
  · rw [LogDefines.decode, LogDefines.encode, loads]
    simp only
    rw [each]
    rfl
  · exact OrderedSet.foldl_insert OrderedSet.empty sorted

end RoundTrip

theorem map_eq_self {A : Type} {f : A → A} {values : List A} : values.map f = values ↔ ∀ value ∈ values, f value = value := by
  conv => lhs; rhs; rw [← List.map_id values]
  exact List.map_eq_map_iff

theorem LogAppenderDefine.decoded_eq_iff {a : LogAppenderDefine} (kind : a.type = 1 ∨ (a.type = 2 ∧ a.file = [])) :
    a.decoded = a ↔ a.level = .unknow ∧ (a.type = 2 → a.formatter = []) := by
  obtain ⟨type, level, formatter, file⟩ := a
  obtain one | ⟨two, empty⟩ := kind
  · cases one
    simp [LogAppenderDefine.decoded, eq_comm]
  · cases two
    cases empty
    simp [LogAppenderDefine.decoded, eq_comm]

theorem LogDefine.decoded_eq_iff {i : LogDefine}
    (kinds : ∀ a ∈ i.appenders, a.type = 1 ∨ (a.type = 2 ∧ a.file = [])) :
    i.decoded = i ↔ ∀ a ∈ i.appenders, a.level = .unknow ∧ (a.type = 2 → a.formatter = []) := by
  have same : i.decoded = i ↔ i.appenders.map (·.decoded) = i.appenders := by
    cases i
    simp [LogDefine.decoded]
  rw [same, map_eq_self]
  exact forall₂_congr fun a member => LogAppenderDefine.decoded_eq_iff (kinds a member)

/-- The round trip gives a set back exactly when no appender has a level and none
for the standard output has a formatter. -/
theorem round_trip_iff (yaml : YamlCpp) (s : LogDefines) (loads : yaml.load (yaml.emit s.node) = some s.node)
    (named : ∀ i ∈ s.elements, i.level.Named)
    (kinds : ∀ i ∈ s.elements, ∀ a ∈ i.appenders, a.type = 1 ∨ (a.type = 2 ∧ a.file = [])) :
    LogDefines.decode yaml (s.encode yaml) = .ok s ↔
      ∀ i ∈ s.elements, ∀ a ∈ i.appenders, a.level = .unknow ∧ (a.type = 2 → a.formatter = []) := by
  obtain ⟨back, decoded, elements⟩ := decode_encode yaml s loads named
  have fixed : LogDefines.decode yaml (s.encode yaml) = .ok s ↔ s.elements.map (·.decoded) = s.elements := by
    rw [decoded, ← elements]
    constructor
    · intro same
      cases same
      rfl
    · intro same
      rw [OrderedSet.ext same]
  rw [fixed, map_eq_self]
  exact forall₂_congr fun i member => LogDefine.decoded_eq_iff (kinds i member)

/-- yaml-cpp on the one tree of a set. -/
def onlyTree (node : Node) (text : Text) : YamlCpp where
  emit _ := text
  load read := if read = text then some node else none
  nullText := none

theorem onlyTree_loads (node : Node) (text : Text) : (onlyTree node text).load ((onlyTree node text).emit node) = some node :=
  if_pos rfl

def twoAppenders : LogDefines where
  elements := [⟨"root".toList, .info, [], [{ type := 1, file := "root.txt".toList }, { type := 2 }]⟩]
  sorted := List.pairwise_singleton _ _

def twoAppendersText : Text :=
  "- name: root\n  level: INFO\n  appenders:\n    - type: hps_FileLogAppender\n      file: root.txt\n    - type: hps_StdoutLogAppender".toList

theorem round_trip_iff_twoAppenders :
    LogDefines.decode (onlyTree twoAppenders.node twoAppendersText)
      (twoAppenders.encode (onlyTree twoAppenders.node twoAppendersText)) = .ok twoAppenders := by
  refine (round_trip_iff _ twoAppenders (onlyTree_loads ..) ?_ ?_).mpr ?_
  · simp [twoAppenders, LogLevel.Named]
  · simp [twoAppenders]
  · simp [twoAppenders]

/-- An appender that logs errors only. -/
def errorsOnly : LogDefines where
  elements := [⟨"root".toList, .info, [], [{ type := 2, level := .error }]⟩]
  sorted := List.pairwise_singleton _ _

def errorsOnlyText : Text :=
  "- name: root\n  level: INFO\n  appenders:\n    - type: hps_StdoutLogAppender\n      level: ERROR".toList

/-- Its level is written and not read back. -/
theorem appender_level_lost :
    errorsOnly.encode (onlyTree errorsOnly.node errorsOnlyText) = errorsOnlyText ∧
      LogDefines.decode (onlyTree errorsOnly.node errorsOnlyText)
        (errorsOnly.encode (onlyTree errorsOnly.node errorsOnlyText)) ≠ .ok errorsOnly := by
  refine ⟨rfl, ?_⟩
  obtain ⟨back, decoded, elements⟩ := decode_encode (onlyTree errorsOnly.node errorsOnlyText) errorsOnly
    (onlyTree_loads ..) (by simp [errorsOnly, LogLevel.Named])
  rw [decoded]
  intro same
  cases same
  simp [errorsOnly, LogDefine.decoded, LogAppenderDefine.decoded] at elements

end HpsSf.Log
