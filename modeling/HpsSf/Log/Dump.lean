import HpsSf.Foundation.Traverse
import HpsSf.Log.Define
import HpsSf.Log.Objects
import Mathlib.Data.List.Basic

/-! The dump of the logger manager, read as a configuration.

Each appender and each logger writes itself as a document, which the one above
loads and puts into its own. The names of fields and types are written out by
hand here and in the decoder.
-/

set_option autoImplicit false

namespace HpsSf.Log
open Foundation (System Text OrderedSet mapM_eq_ok)
open Config (Node YamlCpp YamlFault)

/-! ## Appenders -/

namespace LogAppender

/-- `m_hasFormatter && m_formatter` -/
def ownFormatter (a : LogAppender) : Option LogFormatter := if a.hasFormatter then a.formatter else none

def levelEntry (level : LogLevel) : List (Text × Node) :=
  if level ≠ .unknow then [("level".toList, .scalar level.toString)] else []

def formatterEntry (formatter : Option LogFormatter) : List (Text × Node) :=
  match formatter with
  | some formatter => [("formatter".toList, .scalar formatter.pattern)]
  | none => []

/-- The tree of `hps_FileLogAppender::toYAMLString` and of `hps_StdoutLogAppender::toYAMLString`. -/
def node (a : LogAppender) : Node :=
  match a.kind with
  | .file filename =>
    .map (levelEntry a.level ++
      [("file".toList, .scalar filename), ("type".toList, .scalar "hps_FileAppender".toList)] ++
      formatterEntry a.ownFormatter)
  | .stdout =>
    .map ([("type".toList, .scalar "hps_StdoutLogAppender".toList)] ++ levelEntry a.level ++
      formatterEntry a.ownFormatter)

def toYAMLString (yaml : YamlCpp) (a : LogAppender) : Text := yaml.emit a.node

/-- The definition that describes the appender. -/
def define (a : LogAppender) : LogAppenderDefine :=
  let formatter := (a.ownFormatter.map LogFormatter.pattern).getD []
  match a.kind with
  | .file filename => { type := 1, level := a.level, formatter := formatter, file := filename }
  | .stdout => { type := 2, level := a.level, formatter := formatter }

/-- The decoder does not know the type name that a file appender writes. -/
def decoded (a : LogAppender) : Option LogAppenderDefine :=
  match a.kind with
  | .file _ => none
  | .stdout => some { type := 2 }

/-- It logs to the terminal, at every level, and has no pattern of its own. -/
structure Plain (a : LogAppender) : Prop where
  kind : a.kind = .stdout
  level : a.level = .unknow
  pattern : (a.ownFormatter.map LogFormatter.pattern).getD [] = []

theorem decodeAppender_node (yaml : YamlCpp) (a : LogAppender) : decodeAppender yaml a.node = .ok a.decoded := by
  unfold node decoded levelEntry formatterEntry
  cases a.kind <;> by_cases unknow : a.level = .unknow <;> cases a.ownFormatter <;>
  simp [decodeAppender, Node.get, Node.asString, unknow, bind, Except.bind, pure, Except.pure, List.lookup_cons]

theorem decoded_eq_iff (a : LogAppender) : a.decoded = some a.define ↔ a.Plain := by
  unfold decoded define
  constructor
  · intro same
    cases kind : a.kind with
    | file filename => simp [kind] at same
    | stdout =>
      simp only [kind, Option.some.injEq, LogAppenderDefine.mk.injEq, true_and, and_true] at same
      exact ⟨kind, same.1.symm, same.2.symm⟩
  · intro plain
    simp [plain.kind, plain.level, plain.pattern]

end LogAppender

/-! ## Loggers -/

/-- `YAML::Load` -/
def loadDocument (yaml : YamlCpp) (text : Text) : Except YamlFault Node :=
  match yaml.load text with
  | some node => .ok node
  | none => .error .parser

namespace Objects

/-- The tree of a logger around those of its appenders. -/
def nodeWith (s : Objects) (l : LoggerPtr) (appenders : List Node) : Node :=
  let logger := s.logger l
  .map ([("name".toList, .scalar logger.name)] ++ LogAppender.levelEntry logger.level ++
    -- The type name of an appender, which the decoder passes over.
    [("type".toList, .scalar "hps_StdoutLogAppender".toList)] ++ LogAppender.formatterEntry logger.formatter ++
    if appenders.isEmpty then [] else [("appenders".toList, .sequence appenders)])

/-- `hps_Logger::toYAMLString` -/
def toYAMLString (yaml : YamlCpp) (s : Objects) (l : LoggerPtr) : Except YamlFault Text := do
  let appenders ← (s.logger l).appenders.mapM fun i => loadDocument yaml ((s.appender i).toYAMLString yaml)
  return yaml.emit (s.nodeWith l appenders)

def node (s : Objects) (l : LoggerPtr) : Node := s.nodeWith l ((s.logger l).appenders.map fun i => (s.appender i).node)

/-- The definition that describes the logger; a null formatter has no pattern. -/
def define (s : Objects) (l : LoggerPtr) : LogDefine :=
  let logger := s.logger l
  ⟨logger.name, logger.level, (logger.formatter.map LogFormatter.pattern).getD [],
    logger.appenders.map fun i => (s.appender i).define⟩

def decoded (s : Objects) (l : LoggerPtr) : LogDefine :=
  { s.define l with appenders := (s.logger l).appenders.filterMap fun i => (s.appender i).decoded }

variable (yaml : YamlCpp) (s : Objects) (l : LoggerPtr)

theorem decodeDefine_node (named : (s.logger l).level.Named) :
    decodeDefine yaml (s.node l) = .ok (some (s.decoded l)) := by
  have read : LogLevel.fromString (s.logger l).level.toString = (s.logger l).level := LogLevel.fromString_toString named
  have none : LogLevel.fromString [] = .unknow := by decide
  have each : decodeEach (decodeAppender yaml) ((s.logger l).appenders.map fun i => (s.appender i).node) =
      .ok ((s.logger l).appenders.filterMap fun i => (s.appender i).decoded) :=
    decodeEach_filterMap fun i _ => LogAppender.decodeAppender_node yaml (s.appender i)
  unfold node nodeWith decoded define LogAppender.levelEntry LogAppender.formatterEntry
  generalize s.logger l = logger at named read each ⊢
  obtain ⟨name, level, formatter, appenders⟩ := logger
  by_cases unknow : level = .unknow <;> cases formatter <;> cases appenders <;>
  simp_all [decodeDefine, Node.get, Node.asString, Node.items, bind, Except.bind, pure, Except.pure, List.lookup_cons,
    List.lookup_nil]

theorem decoded_eq_iff : s.decoded l = s.define l ↔ ∀ i ∈ (s.logger l).appenders, (s.appender i).Plain := by
  have same : s.decoded l = s.define l ↔
      ((s.logger l).appenders.filterMap fun i => (s.appender i).decoded) =
        (s.logger l).appenders.map fun i => (s.appender i).define := by
    simp [decoded, define]
  rw [same, List.filterMap_eq_map_iff_forall_eq_some]
  exact forall₂_congr fun i _ => LogAppender.decoded_eq_iff (s.appender i)

end Objects

/-! ## The manager -/

structure Registered where
  name : Text
  logger : LoggerPtr
  deriving DecidableEq, Repr

/-- `m_loggers`, beside all the objects there are. -/
structure LoggerManager where
  objects : Objects
  loggers : OrderedSet Registered.name

inductive ManagerOp where
  | getLogger (name : Text) (l : LoggerPtr)
  | object (op : ObjectOp)

namespace LoggerManager

/-- The constructor: a root logger with an appender for the terminal. -/
def create (objects : Objects) : LoggerManager :=
  { objects := objects.addAppender 0 0
    loggers := OrderedSet.empty.insert ⟨(objects.logger 0).name, 0⟩ }

/-- `getLogger` makes a logger, at an address that is free, when there is none of the name. -/
def step (m : LoggerManager) : ManagerOp → Option LoggerManager
  | .getLogger name l =>
    match m.loggers.find ⟨name, l⟩ with
    | some _ => some m
    | none =>
      if ∀ i ∈ m.loggers.elements, i.logger ≠ l then
        some
          { objects := m.objects.setLogger l (.create name)
            loggers := m.loggers.insert ⟨name, l⟩ }
      else none
  | .object op => some { m with objects := m.objects.apply op }

def machine : System LoggerManager ManagerOp where
  start m := ∃ objects : Objects, objects.Fresh ∧ (objects.logger 0).name = "root".toList ∧
    objects.appender 0 = { kind := .stdout } ∧ m = create objects
  step := step

def toYAMLString (yaml : YamlCpp) (m : LoggerManager) : Except YamlFault Text := do
  let nodes ← m.loggers.elements.mapM fun i => m.objects.toYAMLString yaml i.logger >>= loadDocument yaml
  return yaml.emit (if nodes.isEmpty then .null else .sequence nodes)

def node (m : LoggerManager) : Node :=
  if m.loggers.elements.isEmpty then .null else .sequence (m.loggers.elements.map fun i => m.objects.node i.logger)

/-- Of the trees that the dump emits, yaml-cpp loads each as it was. -/
structure LoadsBack (yaml : YamlCpp) (m : LoggerManager) : Prop where
  appender : ∀ i ∈ m.loggers.elements, ∀ a ∈ (m.objects.logger i.logger).appenders,
    yaml.load (yaml.emit (m.objects.appender a).node) = some (m.objects.appender a).node
  logger : ∀ i ∈ m.loggers.elements, yaml.load (yaml.emit (m.objects.node i.logger)) = some (m.objects.node i.logger)
  dump : yaml.load (yaml.emit m.node) = some m.node

/-- The dump is a configuration with exactly one definition for each logger, the one that describes it. -/
def Reloads (yaml : YamlCpp) (m : LoggerManager) : Prop :=
  ∃ text defines, m.toYAMLString yaml = .ok text ∧ LogDefines.decode yaml text = .ok defines ∧
    defines.elements = m.loggers.elements.map fun i => m.objects.define i.logger

/-- The loggers are registered under their names. -/
def Named (m : LoggerManager) : Prop := ∀ i ∈ m.loggers.elements, (m.objects.logger i.logger).name = i.name

theorem apply_name (s : Objects) (op : ObjectOp) (l : LoggerPtr) : ((s.apply op).logger l).name = (s.logger l).name := by
  have written (l' : LoggerPtr) (val : Option LogFormatter) :
      ((s.setFormatter l' val).logger l).name = (s.logger l).name := by
    rw [Objects.setFormatter_logger]
    obtain rfl | other := eq_or_ne l l'
    · simp
    · simp [other]
  have kept (l' : LoggerPtr) (object : LoggerObject) (same : object.name = (s.logger l').name) :
      ((s.setLogger l' object).logger l).name = (s.logger l).name := by
    obtain rfl | other := eq_or_ne l l'
    · simpa using same
    · rw [Objects.setLogger_of_ne s _ other]
  cases op with
  | addAppender l' a =>
    rw [Objects.apply, Objects.addAppender_logger]
    obtain rfl | other := eq_or_ne l l'
    · simp
    · simp [other]
  | delAppender l' a => exact kept l' _ rfl
  | clearAppenders l' => exact kept l' _ rfl
  | setFormatter l' val => exact written l' val
  | setPattern l' val =>
    unfold Objects.apply Objects.setPattern
    dsimp only
    split
    next => rfl
    next => exact written l' _
  | setLevel l' level => exact kept l' _ rfl
  | setAppenderFormatter a val => rfl
  | setAppenderLevel a level => rfl

theorem create_named (objects : Objects) : (create objects).Named := by
  intro i member
  obtain rfl : i = ⟨(objects.logger 0).name, 0⟩ := List.mem_singleton.mp member
  exact apply_name objects (.addAppender 0 0) 0

theorem Named.step {m next : LoggerManager} (named : m.Named) {op : ManagerOp} (stepped : m.step op = some next) :
    next.Named := by
  cases op with
  | object op =>
    cases stepped
    exact fun i member => (apply_name m.objects op i.logger).trans (named i member)
  | getLogger name l =>
    unfold LoggerManager.step at stepped
    dsimp only at stepped
    split at stepped
    next =>
      cases stepped
      exact named
    next =>
      split at stepped
      next free =>
        cases stepped
        intro i member
        obtain rfl | old := OrderedSet.mem_insertInto member
        · simp [LoggerObject.create]
        · rw [Objects.setLogger_of_ne _ _ (free i old)]
          exact named i old
      next => cases stepped

theorem named_of_reaches {allowed : LoggerManager → ManagerOp → Prop} {m : LoggerManager}
    (reached : machine.Reaches allowed m) : m.Named := by
  refine reached.invariant (fun m begins => ?_) fun m op next named _ stepped => named.step stepped
  obtain ⟨objects, -, -, -, rfl⟩ := begins
  exact create_named objects

section Reloading

variable {yaml : YamlCpp} {m : LoggerManager}

theorem toYAMLString_eq (loads : m.LoadsBack yaml) : m.toYAMLString yaml = .ok (yaml.emit m.node) := by
  have loggers : (m.loggers.elements.mapM fun i => m.objects.toYAMLString yaml i.logger >>= loadDocument yaml) =
      .ok (m.loggers.elements.map fun i => m.objects.node i.logger) := by
    refine mapM_eq_ok fun i member => ?_
    have appenders : ((m.objects.logger i.logger).appenders.mapM fun a =>
        loadDocument yaml ((m.objects.appender a).toYAMLString yaml)) =
          .ok ((m.objects.logger i.logger).appenders.map fun a => (m.objects.appender a).node) := by
      refine mapM_eq_ok fun a held => ?_
      rw [loadDocument, LogAppender.toYAMLString, loads.appender i member a held]
    rw [Objects.toYAMLString, appenders]
    change loadDocument yaml (yaml.emit (m.objects.node i.logger)) = _
    rw [loadDocument, loads.logger i member]
  rw [toYAMLString, loggers]
  simp [node, bind, Except.bind, pure, Except.pure]

/-- What the decoder makes of the dump. -/
theorem decode_dump (named : m.Named) (levels : ∀ i ∈ m.loggers.elements, (m.objects.logger i.logger).level.Named)
    (loads : m.LoadsBack yaml) : ∃ defines, LogDefines.decode yaml (yaml.emit m.node) = .ok defines ∧
      defines.elements = m.loggers.elements.map fun i => m.objects.decoded i.logger := by
  have each : decodeEach (decodeDefine yaml) m.node.items =
      .ok (m.loggers.elements.map fun i => m.objects.decoded i.logger) := by
    unfold node
    split
    next empty =>
      rw [List.isEmpty_iff.mp empty]
      rfl
    · exact decodeEach_map fun i member => Objects.decodeDefine_node yaml m.objects i.logger (levels i member)
  have sorted : (m.loggers.elements.map fun i => m.objects.decoded i.logger).Pairwise fun x y => x.name < y.name := by
    refine List.pairwise_map.mpr (m.loggers.sorted.imp_of_mem fun first second below => ?_)
    change (m.objects.logger _).name < (m.objects.logger _).name
    rwa [named _ first, named _ second]
  refine ⟨(m.loggers.elements.map fun i => m.objects.decoded i.logger).foldl OrderedSet.insert OrderedSet.empty, ?_, ?_⟩
  · rw [LogDefines.decode, loads.dump]
    simp only
    rw [each]
    rfl
  · exact OrderedSet.foldl_insert OrderedSet.empty sorted

/-- The dump reloads exactly when all appenders of its loggers are plain. -/
theorem reloads_iff {allowed : LoggerManager → ManagerOp → Prop} (reached : machine.Reaches allowed m)
    (levels : ∀ i ∈ m.loggers.elements, (m.objects.logger i.logger).level.Named) (loads : m.LoadsBack yaml) :
    m.Reloads yaml ↔
      ∀ i ∈ m.loggers.elements, ∀ a ∈ (m.objects.logger i.logger).appenders, (m.objects.appender a).Plain := by
  obtain ⟨back, decoded, elements⟩ := decode_dump (named_of_reaches reached) levels loads
  have same : m.Reloads yaml ↔ (m.loggers.elements.map fun i => m.objects.decoded i.logger) =
      m.loggers.elements.map fun i => m.objects.define i.logger := by
    constructor
    · rintro ⟨text, defines, dumped, read, matching⟩
      cases (toYAMLString_eq loads).symm.trans dumped
      cases decoded.symm.trans read
      exact elements.symm.trans matching
    · exact fun same => ⟨_, back, toYAMLString_eq loads, decoded, elements.trans same⟩
  rw [same, List.map_inj_left]
  exact forall₂_congr fun i _ => Objects.decoded_eq_iff m.objects i.logger

end Reloading

/-! ## The manager as it is constructed -/

def initial : LoggerManager := create .initial

theorem initial_start : machine.start initial := ⟨.initial, Objects.initial_fresh, rfl, rfl, rfl⟩

/-- Its appender takes every level. -/
def everyLevel : LoggerManager := { initial with objects := initial.objects.apply (.setAppenderLevel 0 .unknow) }

section Documents

/-- The level is left out when it is empty. -/
def appenderText (indent level : Text) : Text :=
  "type: hps_StdoutLogAppender".toList ++ if level.isEmpty then [] else '\n' :: indent ++ "level: ".toList ++ level

def loggerText (level : Text) : Text :=
  "name: root\nlevel: DEBUG\ntype: hps_StdoutLogAppender\nformatter: \"".toList ++ defaultPattern ++
    "\"\nappenders:\n  - ".toList ++ appenderText "    ".toList level

def managerText (level : Text) : Text :=
  "- name: root\n  level: DEBUG\n  type: hps_StdoutLogAppender\n  formatter: \"".toList ++ defaultPattern ++
    "\"\n  appenders:\n    - ".toList ++ appenderText "      ".toList level

/-- yaml-cpp on the three documents of a manager with the root logger alone. -/
def rootYaml (m : LoggerManager) (level : Text) : YamlCpp where
  emit
    | .map (entry :: _) => if entry.1 = "name".toList then loggerText level else appenderText [] level
    | _ => managerText level
  load read :=
    if read = managerText level then some m.node
    else if read = loggerText level then some (m.objects.node 0)
    else if read = appenderText [] level then some (m.objects.appender 0).node
    else none
  nullText := none

theorem rootYaml_loads {m : LoggerManager} {level : Text} (loggers : m.loggers.elements = [⟨"root".toList, 0⟩])
    (held : (m.objects.logger 0).appenders = [0]) (kind : (m.objects.appender 0).kind = .stdout) :
    m.LoadsBack (rootYaml m level) := by
  -- The three texts begin with different characters.
  have starts {first second : Char} {text other : Text} (begins : text.head? = some first)
      (begins' : other.head? = some second) (apart : first ≠ second) : text ≠ other := by
    rintro rfl
    exact apart (Option.some.inj (begins.symm.trans begins'))
  have fromManager : appenderText [] level ≠ managerText level := starts rfl rfl (by decide : 't' ≠ '-')
  have fromLogger : appenderText [] level ≠ loggerText level := starts rfl rfl (by decide : 't' ≠ 'n')
  have logger : loggerText level ≠ managerText level := starts rfl rfl (by decide : 'n' ≠ '-')
  have load (read : Text) : (rootYaml m level).load read =
      if read = managerText level then some m.node
      else if read = loggerText level then some (m.objects.node 0)
      else if read = appenderText [] level then some (m.objects.appender 0).node
      else none := rfl
  have emitted : (rootYaml m level).emit (m.objects.appender 0).node = appenderText [] level := by
    unfold LogAppender.node
    rw [kind]
    rfl
  constructor
  · intro i member a inside
    rw [loggers] at member
    obtain rfl := List.mem_singleton.mp member
    rw [held] at inside
    obtain rfl := List.mem_singleton.mp inside
    rw [emitted, load, if_neg fromManager, if_neg fromLogger, if_pos rfl]
  · intro i member
    rw [loggers] at member
    obtain rfl := List.mem_singleton.mp member
    change (rootYaml m level).load (loggerText level) = _
    rw [load, if_neg logger, if_pos rfl]
  · have dumped : (rootYaml m level).emit m.node = managerText level := by
      unfold node
      rw [loggers]
      rfl
    rw [dumped, load, if_pos rfl]

end Documents

theorem reloads_iff_everyLevel : everyLevel.Reloads (rootYaml everyLevel []) := by
  have reached : machine.Reaches (fun _ _ => True) everyLevel :=
    .step (.start initial_start) trivial (show machine.step initial (.object (.setAppenderLevel 0 .unknow)) = _ from rfl)
  refine (reloads_iff reached ?_ (rootYaml_loads rfl rfl rfl)).mpr ?_
  · intro i member
    obtain rfl := List.mem_singleton.mp member
    nofun
  · intro i member a held
    obtain rfl := List.mem_singleton.mp member
    obtain rfl := List.mem_singleton.mp held
    exact ⟨rfl, rfl, rfl⟩

/-- The first manager there is: its appender is not read back with the level it has. -/
theorem first_dump_not_reloaded :
    machine.Reaches (fun _ _ => True) initial ∧ initial.LoadsBack (rootYaml initial "DEBUG".toList) ∧
      (∀ i ∈ initial.loggers.elements, (initial.objects.logger i.logger).level = .debug) ∧
        initial.toYAMLString (rootYaml initial "DEBUG".toList) = .ok (managerText "DEBUG".toList) ∧
          ¬ initial.Reloads (rootYaml initial "DEBUG".toList) := by
  have loads : initial.LoadsBack (rootYaml initial "DEBUG".toList) := rootYaml_loads rfl rfl rfl
  have levels : ∀ i ∈ initial.loggers.elements, (initial.objects.logger i.logger).level = .debug := by
    intro i member
    obtain rfl := List.mem_singleton.mp member
    rfl
  have dumped := toYAMLString_eq loads
  refine ⟨.start initial_start, loads, levels, dumped, ?_⟩
  rintro ⟨text, defines, written, read, matching⟩
  cases dumped.symm.trans written
  obtain ⟨back, decoded, elements⟩ := decode_dump (show initial.Named from create_named _)
    (fun i member value => by
      rw [levels i member]
      nofun) loads
  cases decoded.symm.trans read
  have same := (Objects.decoded_eq_iff initial.objects 0).mp (List.cons.inj (elements.symm.trans matching)).1
  exact absurd (same 0 (List.mem_singleton_self _)).level (by decide)

end LoggerManager
end HpsSf.Log
