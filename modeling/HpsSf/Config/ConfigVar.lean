import HpsSf.Foundation.Word
import Mathlib.Data.List.Basic

/-! A configuration variable, and what its listener registry does over a history.

`addListener` counts a key up and returns it, but its assignment to `m_cbs` is
commented out, so no callback is ever stored.
-/

set_option autoImplicit false

namespace HpsSf.Config
open Foundation (incr64)

/-- `m_cbs` is a map: the keys are in order. -/
structure ConfigVar (V C : Type) where
  val : V
  cbs : List (Nat × C)
  ordered : (cbs.map Prod.fst).Pairwise (· < ·)
  deriving DecidableEq

/-- One call `i.second(m_val, v)`. -/
structure Notification (V C : Type) where
  listener : Nat × C
  old : V
  new : V
  deriving DecidableEq, Repr

variable {V C : Type}

namespace ConfigVar

/-- The constructor. -/
def create (val : V) : ConfigVar V C := ⟨val, [], .nil⟩

/-- The phase of `setValue` under the read lock; `none` is the return for an equal value. -/
def notify [DecidableEq V] (var : ConfigVar V C) (v : V) : Option (List (Notification V C)) :=
  if v = var.val then none else some (var.cbs.map fun listener => ⟨listener, var.val, v⟩)

/-- The phase of `setValue` under the write lock. -/
def assign (var : ConfigVar V C) (v : V) : ConfigVar V C := { var with val := v }

def setValue [DecidableEq V] (var : ConfigVar V C) (v : V) : ConfigVar V C × List (Notification V C) :=
  match var.notify v with
  | none => (var, [])
  | some told => (var.assign v, told)

/-- `s_fun_id` is shared by all variables of the type; the callback is dropped. -/
def addListener (var : ConfigVar V C) (funId : Nat) (_cb : C) : ConfigVar V C × Nat := (var, incr64 funId)

def delListener (var : ConfigVar V C) (key : Nat) : ConfigVar V C where
  val := var.val
  cbs := var.cbs.filter fun listener => listener.1 ≠ key
  ordered := var.ordered.sublist (List.filter_sublist.map _)

def getListener (var : ConfigVar V C) (key : Nat) : Option C := var.cbs.lookup key

def clearListener (var : ConfigVar V C) : ConfigVar V C := ⟨var.val, [], .nil⟩

end ConfigVar

/-! ## Histories -/

inductive Request (V C : Type) where
  | setValue (v : V)
  | addListener (cb : C)
  | delListener (key : Nat)
  | getListener (key : Nat)
  | clearListener
  deriving DecidableEq, Repr

inductive Answer (V C : Type) where
  | told (notifications : List (Notification V C))
  | key (key : Nat)
  | listener (cb : Option C)
  | done
  deriving DecidableEq, Repr

/-- A variable, the key counter of its type and, for comparison, the listeners
that have been added and not removed since. -/
structure Watched (V C : Type) where
  var : ConfigVar V C
  funId : Nat
  added : List (Nat × C)

namespace Watched

def create (val : V) (funId : Nat) : Watched V C := ⟨.create val, funId, []⟩

def step [DecidableEq V] (w : Watched V C) : Request V C → Watched V C × Answer V C
  | .setValue v =>
      let (var, told) := w.var.setValue v
      ({ w with var := var }, .told told)
  | .addListener cb =>
      let (var, key) := w.var.addListener w.funId cb
      (⟨var, key, w.added ++ [(key, cb)]⟩, .key key)
  | .delListener key =>
      ({ w with var := w.var.delListener key, added := w.added.filter fun listener => listener.1 ≠ key }, .done)
  | .getListener key => (w, .listener (w.var.getListener key))
  | .clearListener => ({ w with var := w.var.clearListener, added := [] }, .done)

/-- What the answer to a request must be. -/
def Expects [DecidableEq V] (w : Watched V C) : Request V C → Watched V C → Answer V C → Prop
  | .setValue v, next, answer =>
      if v = w.var.val then answer = .told [] ∧ next = w
      else next.var.val = v ∧ ∃ told, answer = .told told ∧
        told.Perm (w.added.map fun listener => ⟨listener, w.var.val, v⟩)
  | .addListener cb, next, answer =>
      ∃ key, answer = .key key ∧ key ∉ w.added.map Prod.fst ∧ next.var.getListener key = some cb
  | .getListener key, next, answer => answer = .listener (w.added.lookup key) ∧ next = w
  | .delListener _, _, answer => answer = .done
  | .clearListener, _, answer => answer = .done

/-- Every answer in the history is as it must be, and `getListener` would find
exactly the listeners added and not removed since, at every point. -/
def Faithful [DecidableEq V] (w : Watched V C) : List (Request V C) → Prop
  | [] => ∀ key, w.var.getListener key = w.added.lookup key
  | request :: rest =>
      (∀ key, w.var.getListener key = w.added.lookup key) ∧
        w.Expects request (w.step request).1 (w.step request).2 ∧ (w.step request).1.Faithful rest

/-- Nothing stored and nothing added. -/
def Bare (w : Watched V C) : Prop := w.var.cbs = [] ∧ w.added = []

theorem Bare.getListener {w : Watched V C} (bare : w.Bare) (key : Nat) :
    w.var.getListener key = w.added.lookup key := by
  rw [ConfigVar.getListener, bare.1, bare.2]

/-- Any request but `addListener` is answered well. -/
theorem Bare.step [DecidableEq V] {w : Watched V C} (bare : w.Bare) {request : Request V C}
    (other : ∀ cb, request ≠ .addListener cb) :
    w.Expects request (w.step request).1 (w.step request).2 ∧ (w.step request).1.Bare := by
  obtain ⟨empty, none⟩ := bare
  cases request with
  | setValue v =>
    by_cases same : v = w.var.val
    · have unchanged : w.step (.setValue v) = (w, .told []) := by
        simp [Watched.step, ConfigVar.setValue, ConfigVar.notify, same]
      rw [unchanged]
      exact ⟨by simp [Expects, same], empty, none⟩
    · simp [Expects, Watched.step, ConfigVar.setValue, ConfigVar.notify, ConfigVar.assign, same, Bare, empty, none]
  | addListener cb => exact absurd rfl (other cb)
  | delListener key => exact ⟨rfl, by simp [Watched.step, ConfigVar.delListener, Bare, empty, none]⟩
  | getListener key => exact ⟨by simp [Expects, Watched.step, ConfigVar.getListener, empty, none], empty, none⟩
  | clearListener => exact ⟨rfl, rfl, rfl⟩

theorem Bare.faithful_iff [DecidableEq V] {w : Watched V C} (bare : w.Bare) (history : List (Request V C)) :
    w.Faithful history ↔ ∀ cb, .addListener cb ∉ history := by
  induction history generalizing w with
  | nil => simpa [Faithful] using bare.getListener
  | cons request rest ih =>
    by_cases adds : ∃ cb, request = .addListener cb
    · obtain ⟨cb, rfl⟩ := adds
      -- The key is returned and nothing is found under it.
      refine iff_of_false ?_ fun never => never cb (List.mem_cons_self ..)
      rintro ⟨-, ⟨key, -, -, found⟩, -⟩
      simp [Watched.step, ConfigVar.addListener, ConfigVar.getListener, bare.1] at found
    · have other (cb : C) : request ≠ .addListener cb := fun same => adds ⟨cb, same⟩
      obtain ⟨answered, after⟩ := bare.step other
      constructor
      · intro faithful cb member
        obtain same | later := List.mem_cons.mp member
        · exact other cb same.symm
        · exact (ih after).mp faithful.2.2 cb later
      · intro never
        refine ⟨bare.getListener, answered, (ih after).mpr fun cb later => never cb (List.mem_cons_of_mem _ later)⟩

/-- The registry keeps to its contract over exactly the histories in which no
listener is ever added. -/
theorem registry_faithful_iff [DecidableEq V] (val : V) (funId : Nat) (history : List (Request V C)) :
    (create val funId).Faithful history ↔ ∀ cb, .addListener cb ∉ history :=
  Bare.faithful_iff ⟨rfl, rfl⟩ history

/-- A listener is added, the value changes, and nobody is told. -/
theorem listener_dropped :
    ¬ (create (0 : Nat) 0 : Watched Nat String).Faithful [.addListener "cb", .setValue 1] ∧
      ((create (0 : Nat) 0 : Watched Nat String).step (.addListener "cb")).2 = .key 1 ∧
      ((create (0 : Nat) 0 : Watched Nat String).step (.addListener "cb")).1.var.getListener 1 = none ∧
      (((create (0 : Nat) 0 : Watched Nat String).step (.addListener "cb")).1.step (.setValue 1)).2 = .told [] := by
  refine ⟨?_, by decide, by decide, by decide⟩
  rintro ⟨-, ⟨key, -, -, found⟩, -⟩
  simp [Watched.step, ConfigVar.addListener, ConfigVar.getListener, create, ConfigVar.create] at found

end Watched
end HpsSf.Config
