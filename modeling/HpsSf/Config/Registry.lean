import HpsSf.Config.Load
import HpsSf.Foundation.OrderedSet
import Mathlib.Data.Char
import Mathlib.Data.List.Lex

/-! The registry of configuration variables over a history of lookups, settings and documents.

A name stays bound to the variable that the first lookup has made, with the type and
the description of then. A document sets a variable to the last of the texts it has for
the name that convert.
-/

set_option autoImplicit false

namespace HpsSf.Config
open Foundation (Text OrderedSet lowered madeOf lowered_of_madeOf)

/-- `hps_ConfigVar<T>` behind a pointer to its base. `V` stands for the values of all types together. -/
structure Variable (Ty V C : Type) where
  type : Ty
  name : Text
  description : Text
  var : ConfigVar V C

/-- The constructor lowers the name. -/
def Variable.create {Ty V C : Type} (type : Ty) (name : Text) (default_value : V) (description : Text) :
    Variable Ty V C :=
  ⟨type, lowered name, description, .create default_value⟩

/-- An entry of `GetDatas()`. -/
structure Bound where
  name : Text
  ptr : Nat
  deriving DecidableEq, Repr

/-- All variables in the order in which they were made, and `GetDatas()`. -/
structure Registry (Ty V C : Type) where
  datas : OrderedSet Bound.name
  vars : List (Variable Ty V C)
  bound : ∀ b ∈ datas.elements, madeOf allowed b.name = true ∧ ∃ v, vars[b.ptr]? = some v ∧ v.name = b.name
  owned : ∀ (p : Nat) (v : Variable Ty V C), vars[p]? = some v → ⟨v.name, p⟩ ∈ datas.elements

namespace Registry
variable {Ty V C : Type}

def empty : Registry Ty V C := ⟨.empty, [], by simp [OrderedSet.empty], by simp⟩

/-- `LookupBase` -/
def lookupBase (r : Registry Ty V C) (name : Text) : Option Nat := (r.datas.find ⟨name, 0⟩).map Bound.ptr

/-- The second `Lookup`. -/
def lookup [DecidableEq Ty] (r : Registry Ty V C) (type : Ty) (name : Text) : Option Nat :=
  (r.lookupBase name).filter fun p => (r.vars[p]?).any fun v => v.type = type

theorem lookupBase_some {r : Registry Ty V C} {name : Text} {p : Nat} (found : r.lookupBase name = some p) :
    ⟨name, p⟩ ∈ r.datas.elements := by
  obtain ⟨b, there, rfl⟩ := Option.map_eq_some_iff.mp found
  obtain ⟨member, same⟩ := OrderedSet.find_some there
  obtain rfl : b.name = name := same
  exact member

theorem lookupBase_of_mem {r : Registry Ty V C} {b : Bound} (member : b ∈ r.datas.elements) :
    r.lookupBase b.name = some b.ptr := by
  have found : r.datas.find ⟨b.name, 0⟩ = some b := by
    cases result : r.datas.find ⟨b.name, 0⟩ with
    | none => exact absurd rfl (OrderedSet.find_none.mp result b member)
    | some other =>
      obtain ⟨inside, same⟩ := OrderedSet.find_some result
      rw [OrderedSet.eq_of_key inside member same]
  rw [lookupBase, found, Option.map_some]

theorem lookupBase_none {r : Registry Ty V C} {name : Text} (missing : r.lookupBase name = none) :
    ∀ b ∈ r.datas.elements, b.name ≠ name :=
  OrderedSet.find_none.mp (Option.map_eq_none_iff.mp missing)

/-- `GetDatas()[name] = v` for a name that is not there and a variable that is new. -/
def register (r : Registry Ty V C) (v : Variable Ty V C) (made : madeOf allowed v.name = true)
    (absent : ∀ b ∈ r.datas.elements, b.name ≠ v.name) : Registry Ty V C where
  datas := r.datas.insert ⟨v.name, r.vars.length⟩
  vars := r.vars ++ [v]
  bound b member := by
    obtain rfl | old := OrderedSet.mem_insertInto member
    · exact ⟨made, v, by simp, rfl⟩
    · obtain ⟨made, w, there, same⟩ := r.bound b old
      exact ⟨made, w, by rw [List.getElem?_append_left (List.getElem?_eq_some_iff.mp there).1, there], same⟩
  owned p w there := by
    obtain inside | beyond := Nat.lt_or_ge p r.vars.length
    · rw [List.getElem?_append_left inside] at there
      exact OrderedSet.mem_insertInto_of_mem (r.owned p w there)
    · rw [List.getElem?_append_right beyond, List.getElem?_singleton] at there
      split at there
      next last =>
        obtain rfl := Option.some.inj there
        obtain rfl : p = r.vars.length := by omega
        exact OrderedSet.mem_insertInto_self absent
      next => cases there

/-- The variable behind a pointer, changed. -/
def modify (r : Registry Ty V C) (p : Nat) (f : ConfigVar V C → ConfigVar V C) : Registry Ty V C where
  datas := r.datas
  vars := r.vars.modify p fun v => { v with var := f v.var }
  bound b member := by
    obtain ⟨made, v, there, same⟩ := r.bound b member
    refine ⟨made, if p = b.ptr then { v with var := f v.var } else v, ?_, by split <;> exact same⟩
    rw [List.getElem?_modify, there]
    split <;> simp_all
  owned q v there := by
    rw [List.getElem?_modify] at there
    obtain ⟨w, before, rfl⟩ := Option.map_eq_some_iff.mp there
    have member := r.owned q w before
    split <;> exact member

/-- The first `Lookup`; `std::invalid_argument` with the name. -/
def lookupOrCreate [DecidableEq Ty] (r : Registry Ty V C) (type : Ty) (name : Text) (default_value : V)
    (description : Text) : Except Text (Registry Ty V C × Option Nat) :=
  match found : r.lookupBase name with
  -- A variable of another type is null.
  | some _ => .ok (r, r.lookup type name)
  | none =>
    if made : madeOf allowed name then
      have lower : (Variable.create (C := C) type name default_value description).name = name :=
        lowered_of_madeOf allowed_lower made
      .ok (r.register (.create type name default_value description) (by rw [lower]; exact made)
        (by rw [lower]; exact lookupBase_none found), some r.vars.length)
    else .error name

/-- `Visit` -/
def visit (r : Registry Ty V C) : List Nat := r.datas.elements.map Bound.ptr

variable [DecidableEq V]

def setValue (r : Registry Ty V C) (p : Nat) (v : V) : Registry Ty V C := r.modify p fun var => (var.setValue v).1

/-- `fromString` of the variable; a failure changes nothing. -/
def fromString (fromStr : Ty → Text → Option V) (r : Registry Ty V C) (p : Nat) (val : Text) : Registry Ty V C :=
  match (r.vars[p]?).bind fun v => fromStr v.type val with
  | some x => r.setValue p x
  | none => r

/-- The body of the loop of `LoadFromYaml`. -/
def loadNode (emit : Node → Text) (fromStr : Ty → Text → Option V) (r : Registry Ty V C) (one : Text × Node) :
    Registry Ty V C :=
  if one.1.isEmpty then r
  else
    match r.lookupBase (lowered one.1) with
    | some p => r.fromString fromStr p (one.2.content emit)
    | none => r

def loadFromYaml (emit : Node → Text) (fromStr : Ty → Text → Option V) (r : Registry Ty V C) (root : Node) :
    Registry Ty V C :=
  (listAllMember [] root).foldl (loadNode emit fromStr) r

/-! ## Histories -/

/-- A request to a variable, as far as it changes the variable. -/
def change (var : ConfigVar V C) : Request V C → ConfigVar V C
  | .setValue v => (var.setValue v).1
  | .delListener key => var.delListener key
  | .clearListener => var.clearListener
  | .addListener _ | .getListener _ => var

inductive Op (Ty V C : Type) where
  | lookupOrCreate (type : Ty) (name : Text) (default_value : V) (description : Text)
  | request (p : Nat) (request : Request V C)
  | fromString (p : Nat) (val : Text)
  | loadFromYaml (root : Node)

variable [DecidableEq Ty]

/-- An exception leaves the registry as it is. -/
def step (emit : Node → Text) (fromStr : Ty → Text → Option V) (r : Registry Ty V C) : Op Ty V C → Registry Ty V C
  | .lookupOrCreate type name default_value description =>
    match r.lookupOrCreate type name default_value description with
    | .ok (next, _) => next
    | .error _ => r
  | .request p request => r.modify p (change · request)
  | .fromString p val => r.fromString fromStr p val
  | .loadFromYaml root => r.loadFromYaml emit fromStr root

def run (emit : Node → Text) (fromStr : Ty → Text → Option V) (r : Registry Ty V C) (ops : List (Op Ty V C)) :
    Registry Ty V C :=
  ops.foldl (step emit fromStr) r

/-- Nothing is forgotten, and nothing but the value and the listeners of a variable changes. -/
structure Keeps (r next : Registry Ty V C) : Prop where
  datas : ∀ b ∈ r.datas.elements, b ∈ next.datas.elements
  vars : ∀ (p : Nat) (v : Variable Ty V C), r.vars[p]? = some v → ∃ w : Variable Ty V C, next.vars[p]? = some w ∧
    w.type = v.type ∧ w.name = v.name ∧ w.description = v.description

variable {emit : Node → Text} {fromStr : Ty → Text → Option V} {r middle next : Registry Ty V C}

omit [DecidableEq V] [DecidableEq Ty] in
theorem Keeps.same : r.Keeps r := ⟨fun _ => id, fun _ v there => ⟨v, there, rfl, rfl, rfl⟩⟩

omit [DecidableEq V] [DecidableEq Ty] in
theorem Keeps.trans (first : r.Keeps middle) (second : middle.Keeps next) : r.Keeps next := by
  refine ⟨fun b member => second.datas b (first.datas b member), fun p v there => ?_⟩
  obtain ⟨w, there, type, name, description⟩ := first.vars p v there
  obtain ⟨x, there, type', name', description'⟩ := second.vars p w there
  exact ⟨x, there, type'.trans type, name'.trans name, description'.trans description⟩

omit [DecidableEq V] [DecidableEq Ty] in
theorem modify_keeps (r : Registry Ty V C) (p : Nat) (f : ConfigVar V C → ConfigVar V C) :
    r.Keeps (r.modify p f) := by
  refine ⟨fun _ => id, fun q v there => ⟨if p = q then { v with var := f v.var } else v, ?_, ?_⟩⟩
  · simp only [modify, List.getElem?_modify, there]
    split <;> simp_all
  · split <;> exact ⟨rfl, rfl, rfl⟩

omit [DecidableEq Ty] in
theorem fromString_keeps (r : Registry Ty V C) (p : Nat) (val : Text) :
    r.Keeps (r.fromString fromStr p val) := by
  unfold fromString
  split
  · exact modify_keeps r p _
  · exact .same

omit [DecidableEq Ty] in
theorem load_keeps (r : Registry Ty V C) (root : Node) : r.Keeps (r.loadFromYaml emit fromStr root) := by
  unfold loadFromYaml
  generalize listAllMember [] root = found
  induction found generalizing r with
  | nil => exact .same
  | cons one rest ih =>
    refine Keeps.trans ?_ (ih (r.loadNode emit fromStr one))
    unfold loadNode
    split
    · exact .same
    · split
      · exact fromString_keeps r _ _
      · exact .same

omit [DecidableEq V] [DecidableEq Ty] in
theorem register_keeps (r : Registry Ty V C) (v : Variable Ty V C) (made : madeOf allowed v.name = true)
    (absent : ∀ b ∈ r.datas.elements, b.name ≠ v.name) : r.Keeps (r.register v made absent) := by
  refine ⟨fun b => OrderedSet.mem_insertInto_of_mem, fun p w there => ⟨w, ?_, rfl, rfl, rfl⟩⟩
  simp only [register, List.getElem?_append_left (List.getElem?_eq_some_iff.mp there).1, there]

omit [DecidableEq V] in
theorem lookupOrCreate_keeps {type : Ty} {name : Text} {default_value : V} {description : Text}
    {p : Option Nat} (done : r.lookupOrCreate type name default_value description = .ok (next, p)) :
    r.Keeps next := by
  unfold lookupOrCreate at done
  split at done
  next =>
    cases done
    exact .same
  next found =>
    split at done
    next =>
      cases done
      exact register_keeps ..
    next => cases done

theorem step_keeps (r : Registry Ty V C) (op : Op Ty V C) : r.Keeps (r.step emit fromStr op) := by
  cases op with
  | lookupOrCreate type name default_value description =>
    simp only [step]
    split
    next done => exact lookupOrCreate_keeps done
    next => exact .same
  | request p request => exact modify_keeps r p (change · request)
  | fromString p val => exact fromString_keeps r p val
  | loadFromYaml root => exact load_keeps r root

theorem run_keeps (emit : Node → Text) (fromStr : Ty → Text → Option V) (r : Registry Ty V C)
    (ops : List (Op Ty V C)) : r.Keeps (r.run emit fromStr ops) := by
  induction ops generalizing r with
  | nil => exact .same
  | cons op ops ih => exact (step_keeps r op).trans (ih _)

/-- What a name is bound to it stays bound to, whatever happens to the registry: a lookup with the type of
the first one gives that variable, whatever its other arguments are, and one with another type gives null. -/
theorem lookup_permanent {name : Text} {p : Nat} (found : r.lookupBase name = some p)
    (ops : List (Op Ty V C)) :
    ∃ v w : Variable Ty V C, r.vars[p]? = some v ∧ (r.run emit fromStr ops).vars[p]? = some w ∧
      w.type = v.type ∧ w.name = name ∧ w.description = v.description ∧
      ∀ type, (r.run emit fromStr ops).lookup type name = (if v.type = type then some p else none) ∧
        ∀ default_value description, (r.run emit fromStr ops).lookupOrCreate type name default_value description =
          .ok (r.run emit fromStr ops, if v.type = type then some p else none) := by
  have keeps := run_keeps emit fromStr r ops
  generalize r.run emit fromStr ops = later at keeps
  have member := lookupBase_some found
  obtain ⟨made, v, there, named⟩ := r.bound _ member
  obtain ⟨w, after, type, name', description⟩ := keeps.vars p v there
  have bound : later.lookupBase name = some p := lookupBase_of_mem (keeps.datas _ member)
  have typed (type' : Ty) : later.lookup type' name = if v.type = type' then some p else none := by
    simp [lookup, bound, after, type, Option.filter]
  refine ⟨v, w, there, after, type, name'.trans named, description, fun type' => ⟨typed type', fun _ _ => ?_⟩⟩
  unfold lookupOrCreate
  split
  next => rw [typed type']
  next missing => cases bound.symm.trans missing

/-- A port number of one of two types. -/
def port : Registry Bool Nat String :=
  empty.register (.create true "server.port".toList 8080 "port".toList) (by decide) (by simp [empty, OrderedSet.empty])

theorem port_found : port.lookupBase "server.port".toList = some 0 := by decide

/-- Only one text is a number. -/
def eighty (_ : Bool) (text : Text) : Option Nat := if text = "80".toList then some 80 else none

def noText (_ : Node) : Text := []

theorem lookup_permanent_port : ∃ v w : Variable Bool Nat String, port.vars[0]? = some v ∧
    (port.run noText eighty [.lookupOrCreate false "server.port".toList 1 [], .fromString 0 "80".toList]).vars[0]? = some w ∧
      w.type = v.type ∧ w.name = "server.port".toList ∧ w.description = v.description := by
  obtain ⟨v, w, there, after, type, name, description, -⟩ := lookup_permanent port_found
    [.lookupOrCreate false "server.port".toList 1 [], .fromString 0 "80".toList]
  exact ⟨v, w, there, after, type, name, description⟩

omit [DecidableEq V] [DecidableEq Ty] in
/-- `Visit` comes to every variable once, in the order of the names. -/
theorem visit_all (r : Registry Ty V C) : r.visit.Perm (List.range r.vars.length) ∧
    ∃ names : List Text, names.Pairwise (· < ·) ∧
      (r.visit.map fun p => (r.vars[p]?).map Variable.name) = names.map some := by
  constructor
  · have once : r.visit.Nodup := by
      have elements : r.datas.elements.Nodup := by
        refine r.datas.sorted.imp ?_
        rintro b c below rfl
        exact lt_irrefl _ below
      refine elements.map_on fun b member c member' same => ?_
      obtain ⟨-, v, there, named⟩ := r.bound b member
      obtain ⟨-, w, there', named'⟩ := r.bound c member'
      rw [same] at there
      cases there.symm.trans there'
      exact OrderedSet.eq_of_key member member' (named.symm.trans named')
    refine (List.perm_ext_iff_of_nodup once List.nodup_range).mpr fun p => ?_
    rw [List.mem_range]
    constructor
    · intro visited
      obtain ⟨b, member, rfl⟩ := List.mem_map.mp visited
      obtain ⟨-, v, there, -⟩ := r.bound b member
      exact (List.getElem?_eq_some_iff.mp there).1
    · intro inside
      exact List.mem_map.mpr ⟨_, r.owned p _ (List.getElem?_eq_getElem inside), rfl⟩
  · refine ⟨r.datas.elements.map Bound.name, List.pairwise_map.mpr r.datas.sorted, ?_⟩
    rw [visit, List.map_map, List.map_map]
    refine List.map_congr_left fun b member => ?_
    obtain ⟨-, v, there, named⟩ := r.bound b member
    simp [there, named]

/-! ## Documents -/

/-- The registry as `LoadFromYaml` reads it. -/
def view (fromStr : Ty → Text → Option V) (r : Registry Ty V C) : Datas V C := fun name =>
  (r.lookupBase name).bind fun p => (r.vars[p]?).map fun v => ⟨v.var, fromStr v.type⟩

omit [DecidableEq V] [DecidableEq Ty] in
/-- Two names do not share a variable. -/
theorem lookupBase_inj {first second : Text} {p : Nat} (one : r.lookupBase first = some p)
    (other : r.lookupBase second = some p) : first = second := by
  obtain ⟨-, v, there, same⟩ := r.bound _ (lookupBase_some one)
  obtain ⟨-, w, there', same'⟩ := r.bound _ (lookupBase_some other)
  cases there.symm.trans there'
  exact same.symm.trans same'

omit [DecidableEq Ty] in
theorem view_fromString {name : Text} {p : Nat} (found : r.lookupBase name = some p)
    {v : Variable Ty V C} (there : r.vars[p]? = some v) (val : Text) :
    (r.fromString fromStr p val).view fromStr =
      Function.update (r.view fromStr) name (some ((⟨v.var, fromStr v.type⟩ : Setting V C).fromString val).1) := by
  funext other
  have bound : (r.fromString fromStr p val).lookupBase other = r.lookupBase other := by
    unfold fromString
    split <;> rfl
  obtain rfl | distinct := eq_or_ne other name
  · rw [Function.update_self, view, bound, found]
    unfold fromString Setting.fromString
    simp only [there, Option.bind_some]
    cases converted : fromStr v.type val with
    | none => simp [there]
    | some x => simp [setValue, modify, there]
  · rw [Function.update_of_ne distinct, view, bound, view]
    cases elsewhere : r.lookupBase other with
    | none => rfl
    | some q =>
      have apart : p ≠ q := by
        rintro rfl
        exact distinct (lookupBase_inj elsewhere found)
      unfold fromString
      split
      · simp [setValue, modify, apart]
      · rfl

omit [DecidableEq Ty] in
theorem view_loadNode (emit : Node → Text) (fromStr : Ty → Text → Option V) (r : Registry Ty V C)
    (one : Text × Node) :
    (r.loadNode emit fromStr one).view fromStr = (Config.loadNode emit (r.view fromStr) one.1 one.2).1 := by
  unfold loadNode Config.loadNode
  split
  · rfl
  · cases found : r.lookupBase (lowered one.1) with
    | none => simp [view, found]
    | some p =>
      obtain ⟨-, v, there, -⟩ := r.bound _ (lookupBase_some found)
      rw [view_fromString found there]
      simp [view, found, there]

omit [DecidableEq Ty] in
/-- Loading into the registry is loading into what is read of it. -/
theorem view_load (emit : Node → Text) (fromStr : Ty → Text → Option V) (r : Registry Ty V C)
    (root : Node) :
    (r.loadFromYaml emit fromStr root).view fromStr = (Config.loadFromYaml emit (r.view fromStr) root).1 := by
  unfold loadFromYaml Config.loadFromYaml
  generalize listAllMember [] root = found
  induction found generalizing r with
  | nil => rfl
  | cons one rest ih => rw [List.foldl_cons, ih, view_loadNode, loadNodes]

/-- The last of the texts that converts. -/
def lastOf (convert : Text → Option V) (texts : List Text) : Option V := (texts.filterMap convert).getLast?

omit [DecidableEq V] in
theorem lastOf_append (convert : Text → Option V) (texts : List Text) (text : Text) :
    lastOf convert (texts ++ [text]) = (convert text).or (lastOf convert texts) := by
  unfold lastOf
  rw [List.filterMap_append, List.getLast?_append]
  cases converted : convert text with
  | none => rw [List.filterMap_cons_none converted, List.filterMap_nil, List.getLast?_nil]
  | some x => rw [List.filterMap_cons_some converted, List.filterMap_nil, List.getLast?_singleton]

theorem setValue_val (var : ConfigVar V C) (v : V) : (var.setValue v).1.val = v := by
  unfold ConfigVar.setValue ConfigVar.notify
  by_cases same : v = var.val
  · simp [same]
  · simp [same, ConfigVar.assign]

theorem fromStrings_val (setting : Setting V C) (texts : List Text) :
    (setting.fromStrings texts).fromStr = setting.fromStr ∧
      (setting.fromStrings texts).var.val = (lastOf setting.fromStr texts).getD setting.var.val := by
  induction texts using List.reverseRecOn with
  | nil => exact ⟨rfl, rfl⟩
  | append_singleton texts text ih =>
    obtain ⟨same, val⟩ := ih
    rw [Setting.fromStrings_append, lastOf_append]
    generalize setting.fromStrings texts = before at same val
    change (before.fromString text).1.fromStr = _ ∧ (before.fromString text).1.var.val = _
    unfold Setting.fromString
    rw [same]
    cases setting.fromStr text with
    | none => exact ⟨same, val⟩
    | some x => exact ⟨rfl, setValue_val before.var x⟩

omit [DecidableEq Ty] in
/-- The value of a variable behind a document. -/
theorem load_val {name : Text} {p : Nat} (found : r.lookupBase name = some p) {v : Variable Ty V C}
    (there : r.vars[p]? = some v) (root : Node) :
    ∃ w : Variable Ty V C, (r.loadFromYaml emit fromStr root).lookupBase name = some p ∧
      (r.loadFromYaml emit fromStr root).vars[p]? = some w ∧ w.type = v.type ∧
      w.var.val = (lastOf (fromStr v.type) (textsFor emit (reachable (nodes [] root)) name)).getD v.var.val := by
  have keeps : r.Keeps (r.loadFromYaml emit fromStr root) := load_keeps r root
  obtain ⟨w, after, type, -, -⟩ := keeps.vars p v there
  have bound : (r.loadFromYaml emit fromStr root).lookupBase name = some p :=
    lookupBase_of_mem (keeps.datas _ (lookupBase_some found))
  have loaded := congrFun (view_load emit fromStr r root) name
  have flat : listAllMember [] root = reachable (nodes [] root) := listAllMember_eq [] root rfl
  rw [Config.loadFromYaml, flat, (loadNodes_spec emit (r.view fromStr) _ (reachable_lowered _) name).1] at loaded
  simp only [view, bound, after, found, there, Option.bind_some, Option.map_some, Option.some.injEq] at loaded
  refine ⟨w, bound, after, type, ?_⟩
  have val := (fromStrings_val (⟨v.var, fromStr v.type⟩ : Setting V C)
    (textsFor emit (reachable (nodes [] root)) name)).2
  rw [← loaded] at val
  exact val

omit [DecidableEq Ty] in
/-- A document sets a variable to the last of the texts that it has for the name and that convert, and
leaves it without one. The same document once more changes no value. -/
theorem load_settles {name : Text} {p : Nat} (found : r.lookupBase name = some p) {v : Variable Ty V C}
    (there : r.vars[p]? = some v) (root : Node) :
    ∃ once twice : Variable Ty V C, (r.loadFromYaml emit fromStr root).vars[p]? = some once ∧
      ((r.loadFromYaml emit fromStr root).loadFromYaml emit fromStr root).vars[p]? = some twice ∧
      once.var.val =
        (lastOf (fromStr v.type) (textsFor emit (reachable (nodes [] root)) name)).getD v.var.val ∧
      twice.var.val = once.var.val := by
  obtain ⟨once, bound, first, type, val⟩ := load_val found there root
  obtain ⟨twice, -, second, -, val'⟩ := load_val bound first root
  refine ⟨once, twice, first, second, val, ?_⟩
  rw [val', type]
  cases last : lastOf (fromStr v.type) (textsFor emit (reachable (nodes [] root)) name) with
  | none => rfl
  | some x =>
    rw [val, last]
    rfl

/-- The port is given twice, and the second text is none. -/
theorem load_settles_port : ∃ once twice : Variable Bool Nat String,
    (port.loadFromYaml noText eighty (.map [("server".toList, .map [("port".toList, .scalar "80".toList)]),
      ("server.port".toList, .scalar "http".toList)])).vars[0]? = some once ∧
      once.var.val = 80 ∧ twice.var.val = once.var.val := by
  obtain ⟨once, twice, first, -, val, same⟩ := load_settles port_found rfl
    (.map [("server".toList, .map [("port".toList, .scalar "80".toList)]), ("server.port".toList, .scalar "http".toList)])
  refine ⟨once, twice, first, val.trans ?_, same⟩
  decide +kernel

/-- The document with one entry. -/
def single (name text : Text) : Node := .map [(name, .scalar text)]

omit [DecidableEq Ty] in
/-- Every variable can be set from a document, except one with an empty name: with a single entry, it is
`fromString` on the variable alone. -/
theorem load_single {name : Text} {p : Nat} (found : r.lookupBase name = some p) (text : Text) :
    r.loadFromYaml emit fromStr (single name text) = if name.isEmpty then r else r.fromString fromStr p text := by
  obtain ⟨made, -⟩ := r.bound _ (lookupBase_some found)
  have listed : listAllMember [] (single name text) = [([], single name text), (name, .scalar text)] := by
    have root : madeOf allowed [] = true := rfl
    simp [single, listAllMember, listEntries, join, root, made]
  rw [loadFromYaml, listed]
  have lower : lowered name = name := lowered_of_madeOf allowed_lower made
  simp [loadNode, lower, found, Node.content]

omit [DecidableEq V] [DecidableEq Ty] in
theorem mem_of_lastOf {convert : Text → Option V} {texts : List Text} {x : V}
    (last : lastOf convert texts = some x) :
    ∃ text, convert text = some x := by
  obtain ⟨text, -, converted⟩ := List.mem_filterMap.mp (List.mem_of_getLast? last)
  exact ⟨text, converted⟩

omit [DecidableEq Ty] in
/-- Exactly the variables with a name that is not empty can be changed by a document, given that some text
converts to another value. -/
theorem settable_iff {name : Text} {p : Nat} (found : r.lookupBase name = some p)
    {v : Variable Ty V C} (there : r.vars[p]? = some v) :
    (∃ root, ∃ w : Variable Ty V C, (r.loadFromYaml emit fromStr root).vars[p]? = some w ∧ w.var.val ≠ v.var.val) ↔
      name ≠ [] ∧ ∃ text x, fromStr v.type text = some x ∧ x ≠ v.var.val := by
  constructor
  · rintro ⟨root, w, after, changed⟩
    obtain ⟨once, -, first, -, val⟩ := load_val found there root
    cases first.symm.trans after
    cases last : lastOf (fromStr v.type) (textsFor emit (reachable (nodes [] root)) name) with
    | none =>
      rw [last] at val
      exact absurd val changed
    | some x =>
      obtain ⟨text, converted⟩ := mem_of_lastOf last
      rw [last] at val
      refine ⟨?_, text, x, converted, fun same => changed (val.trans same)⟩
      rintro rfl
      cases last
  · rintro ⟨named, text, x, converted, other⟩
    refine ⟨single name text, { v with var := (v.var.setValue x).1 }, ?_, ?_⟩
    · rw [load_single found, if_neg (by simpa using named), fromString, there, Option.bind_some, converted]
      simp [setValue, modify, there]
    · change (v.var.setValue x).1.val ≠ _
      rwa [setValue_val]

theorem settable_iff_port : ∃ root, ∃ w : Variable Bool Nat String,
    (port.loadFromYaml noText eighty root).vars[0]? = some w ∧ w.var.val ≠ 8080 :=
  (settable_iff port_found rfl).mpr ⟨by decide, "80".toList, 80, rfl, by decide⟩

end Registry
end HpsSf.Config
