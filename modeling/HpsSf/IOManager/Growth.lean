import HpsSf.Foundation.System
import HpsSf.IOManager.Registry
import Mathlib.Data.List.Basic

/-! The growth of the table of contexts while calls of `addEvent` overlap.

A call sees a short table under the read lock and resizes it under the write
lock, to a size computed from its own descriptor. It does not look again in
between, so a call for a smaller descriptor can cut off what a call for a larger
one has just made.
-/

set_option autoImplicit false

namespace HpsSf.IOManager
open Foundation

variable {S F C T : Type}

/-- A call of `addEvent`. -/
structure Adding (S F C : Type) where
  caller : Caller S F
  fd : Int
  event : Event
  cb : Option C

def Adding.op (adding : Adding S F C) : Op S F C :=
  .addEvent adding.caller adding.fd adding.event adding.cb

inductive Progress (S F C : Type) where
  | outside
  /-- The table was too short. -/
  | short (adding : Adding S F C)
  /-- The context is known, its mutex not locked yet. -/
  | found (adding : Adding S F C) (id : Nat)

structure Growing (S F C T : Type) where
  registry : Registry S F C
  thread : T → Progress S F C

inductive Turn (S F C T : Type) where
  /-- The lookup under the read lock. -/
  | check (t : T) (adding : Adding S F C)
  /-- The resize under the write lock. -/
  | grow (t : T)
  /-- The section under the mutex of the context. -/
  | register (t : T) (ctl : EpollCall → Bool)
  /-- A section of another call, on a context found at any time before. -/
  | other (ctl : EpollCall → Bool) (id : Nat) (op : Op S F C)

namespace Growing
variable [DecidableEq T]

def setThread (s : Growing S F C T) (t : T) (progress : Progress S F C) : Growing S F C T :=
  { s with thread := Function.update s.thread t progress }

def step (s : Growing S F C T) : Turn S F C T → Option (Growing S F C T)
  | .check t adding =>
      match s.thread t, s.registry.locate adding.fd with
      | .outside, .ok (some id) => some (s.setThread t (.found adding id))
      | .outside, .ok none => some (s.setThread t (.short adding))
      | _, _ => none
  | .grow t =>
      match s.thread t with
      | .short adding =>
          match s.registry.grow adding.fd with
          | .ok (registry, id) => some ({ s with registry := registry }.setThread t (.found adding id))
          | .error _ => none
      | _ => none
  | .register t ctl =>
      match s.thread t with
      | .found adding id =>
          match s.registry.within ctl id adding.op with
          | .ok (registry, _) => some ({ s with registry := registry }.setThread t .outside)
          | .error _ => none
      | _ => none
  | .other ctl id op =>
      match s.registry.within ctl id op with
      | .ok (registry, _) => some { s with registry := registry }
      | .error _ => none

end Growing

/-- Any number of threads in `addEvent`; a fault ends the process. -/
def growing (S F C T : Type) [DecidableEq T] : System (Growing S F C T) (Turn S F C T) where
  start s := s = ⟨.initial, fun _ => .outside⟩
  step := Growing.step

/-- The size that `contextResize(fd * 1.5)` gives the table. -/
def tableSize (fd : Int) : Nat := (int32 (fd.toNat * 3 / 2)).toNat

theorem tableSize_lt (fd : Int) : tableSize fd < 2 ^ 31 := by
  have below := BitVec.toInt_lt (x := BitVec.ofNat 32 (fd.toNat * 3 / 2))
  unfold tableSize int32
  omega

/-- A resize does not find a table longer than it makes. -/
def Lengthens (s : Growing S F C T) : Turn S F C T → Prop
  | .grow t => ∀ adding, s.thread t = .short adding → s.registry.fdContexts.length ≤ tableSize adding.fd
  | _ => True

/-- What growing must not change: the table keeps its entries. -/
structure Registry.Kept (before after : Registry S F C) : Prop where
  table : before.fdContexts <+: after.fdContexts
  /-- Each context is the one that `delEvent` and the other calls find for its descriptor. -/
  found : ∀ (id : Nat) (ctx : FdContext S F C), after.contexts[id]? = some ctx → after.locate ctx.fd = .ok (some id)

namespace Registry

/-- The condition on a resize is exact. -/
theorem grow_table_iff {registry next : Registry S F C} {fd : Int} {id : Nat}
    (grown : registry.grow fd = .ok (next, id)) :
    registry.fdContexts <+: next.fdContexts ↔ registry.fdContexts.length ≤ tableSize fd := by
  obtain ⟨kept, fresh, first, last, rfl, -⟩ := grow_ok grown
  change kept = registry.fdContexts.take (tableSize fd) at first
  change fresh = List.range' kept.length (tableSize fd - kept.length) at last
  constructor
  · intro shared
    have longer := shared.length_le
    simp only [List.length_append, List.length_range', last, first, List.length_take] at longer
    omega
  · intro enough
    rw [first, List.take_of_length_le enough]
    exact List.prefix_append _ _

/-- The table finds every context, whatever the order of the resizes. -/
structure Indexed (registry : Registry S F C) : Prop where
  table : registry.fdContexts = List.range registry.contexts.length
  small : registry.contexts.length < 2 ^ 31
  numbered : ∀ (id : Nat) (ctx : FdContext S F C), registry.contexts[id]? = some ctx → ctx.fd = id

theorem Indexed.locate {registry : Registry S F C} (indexed : registry.Indexed) {id : Nat} {ctx : FdContext S F C}
    (found : registry.contexts[id]? = some ctx) : registry.locate ctx.fd = .ok (some id) := by
  have inside := (List.getElem?_eq_some_iff.mp found).1
  have length : int32 registry.fdContexts.length = registry.contexts.length := by
    rw [indexed.table, List.length_range, int32_of_lt indexed.small]
  rw [indexed.numbered id ctx found]
  unfold Registry.locate entry
  rw [length, if_pos (by omega), if_neg (by omega), Int.toNat_natCast, indexed.table, List.getElem?_range inside]
  rfl

theorem Indexed.within {ctl : EpollCall → Bool} {registry next : Registry S F C} {id : Nat} {op : Op S F C}
    {answer : Answer S F C} (indexed : registry.Indexed)
    (ran : registry.within ctl id op = .ok (next, answer)) :
    next.Indexed ∧ next.fdContexts = registry.fdContexts := by
  obtain ⟨ctx, out, found, effect, rfl, -⟩ := within_ok ran
  have inside := (List.getElem?_eq_some_iff.mp found).1
  refine ⟨⟨by simpa using indexed.table, by simpa using indexed.small, fun place other at_place => ?_⟩, rfl⟩
  by_cases same : id = place
  · subst same
    rw [List.getElem?_set_self inside] at at_place
    cases at_place
    rw [effect.fd, indexed.numbered _ _ found]
  · rw [List.getElem?_set_ne same] at at_place
    exact indexed.numbered place other at_place

theorem Indexed.grow {registry next : Registry S F C} {fd : Int} {id : Nat} (indexed : registry.Indexed)
    (enough : registry.fdContexts.length ≤ tableSize fd) (grown : registry.grow fd = .ok (next, id)) :
    next.Indexed := by
  obtain ⟨kept, fresh, first, last, rfl, -⟩ := grow_ok grown
  change kept = registry.fdContexts.take (tableSize fd) at first
  change fresh = List.range' kept.length (tableSize fd - kept.length) at last
  rw [List.take_of_length_le enough] at first
  rw [first, indexed.table, List.length_range] at last
  rw [indexed.table, List.length_range] at enough
  have bound := tableSize_lt fd
  refine ⟨?_, ?_, fun place ctx at_place => ?_⟩
  · simp only [List.length_append, List.length_map]
    rw [first, indexed.table, List.range_add]
    simp [List.range'_eq_map_range]
  · simp only [List.length_append, List.length_map, last, List.length_range']
    omega
  · rw [List.getElem?_append] at at_place
    split at at_place
    next => exact indexed.numbered place ctx at_place
    next beyond =>
      rw [last, List.getElem?_map] at at_place
      obtain ⟨number, numbered, rfl⟩ := Option.map_eq_some_iff.mp at_place
      obtain ⟨inside, same⟩ := List.getElem?_eq_some_iff.mp numbered
      rw [List.getElem_range'] at same
      simp only [FdContext.fresh]
      omega

theorem indexed_initial : (initial : Registry S F C).Indexed := by
  refine ⟨by simp [initial], by simp [initial], fun id ctx found => ?_⟩
  obtain ⟨number, numbered, rfl⟩ := Option.map_eq_some_iff.mp (List.getElem?_map .. ▸ found)
  obtain ⟨inside, same⟩ := List.getElem?_eq_some_iff.mp numbered
  rw [List.getElem_range] at same
  simp [FdContext.fresh, same]

end Registry

namespace Growing
variable [DecidableEq T]

/-- What one turn does to the registry. -/
theorem step_registry {s next : Growing S F C T} {turn : Turn S F C T} (stepped : s.step turn = some next) :
    next.registry = s.registry ∨
      (∃ t adding id, turn = .grow t ∧ s.thread t = .short adding ∧
        s.registry.grow adding.fd = .ok (next.registry, id)) ∨
      ∃ ctl id op answer, s.registry.within ctl id op = .ok (next.registry, answer) := by
  cases turn with
  | check t adding =>
    simp only [step] at stepped
    split at stepped <;> cases stepped <;> exact .inl rfl
  | grow t =>
    simp only [step] at stepped
    split at stepped
    next adding short =>
      split at stepped
      next registry id grown =>
        cases stepped
        exact .inr (.inl ⟨t, adding, id, rfl, short, grown⟩)
      next => cases stepped
    next => cases stepped
  | register t ctl =>
    simp only [step] at stepped
    split at stepped
    next adding id found =>
      split at stepped
      next registry answer ran =>
        cases stepped
        exact .inr (.inr ⟨ctl, id, adding.op, answer, ran⟩)
      next => cases stepped
    next => cases stepped
  | other ctl id op =>
    simp only [step] at stepped
    split at stepped
    next registry answer ran =>
      cases stepped
      exact .inr (.inr ⟨ctl, id, op, answer, ran⟩)
    next => cases stepped

theorem step_kept {s next : Growing S F C T} {turn : Turn S F C T} (indexed : s.registry.Indexed)
    (lengthens : Lengthens s turn) (stepped : s.step turn = some next) :
    next.registry.Indexed ∧ s.registry.fdContexts <+: next.registry.fdContexts := by
  obtain same | ⟨t, adding, id, rfl, short, grown⟩ | ⟨ctl, id, op, answer, ran⟩ := step_registry stepped
  · rw [same]
    exact ⟨indexed, List.prefix_refl _⟩
  · have enough := lengthens adding short
    exact ⟨indexed.grow enough grown, (Registry.grow_table_iff grown).mpr enough⟩
  · obtain ⟨after, table⟩ := indexed.within ran
    exact ⟨after, table ▸ List.prefix_refl _⟩

/-- However the calls interleave: as long as no resize finds a table longer than
the one it makes, the table keeps its entries and every context stays the one
that is found for its descriptor. -/
theorem table_kept {origin s : Growing S F C T} (reached : (growing S F C T).Reaches Lengthens origin)
    (path : (growing S F C T).Path Lengthens origin s) : origin.registry.Kept s.registry := by
  have indexed : origin.registry.Indexed := by
    refine reached.invariant (P := fun s => s.registry.Indexed) (fun s begins => ?_)
      fun s turn next before lengthens stepped => (step_kept before lengthens stepped).1
    rw [show s = ⟨.initial, fun _ => .outside⟩ from begins]
    exact Registry.indexed_initial
  -- Along the path the tables are longer and longer prefixes of each other.
  obtain ⟨after, table⟩ : s.registry.Indexed ∧ origin.registry.fdContexts <+: s.registry.fdContexts := by
    induction path with
    | here => exact ⟨indexed, List.prefix_refl _⟩
    | step _ lengthens stepped ih =>
      obtain ⟨after, longer⟩ := step_kept ih.1 lengthens stepped
      exact ⟨after, ih.2.trans longer⟩
  exact ⟨table, fun id ctx found => after.locate found⟩

def lengthensTest (s : Growing Unit Nat Nat (Fin 2)) : Turn Unit Nat Nat (Fin 2) → Bool
  | .grow t =>
      match s.thread t with
      | .short adding => s.registry.fdContexts.length ≤ tableSize adding.fd
      | _ => true
  | _ => true

theorem lengthens_of_test (s : Growing Unit Nat Nat (Fin 2)) (turn : Turn Unit Nat Nat (Fin 2))
    (passed : lengthensTest s turn = true) : Lengthens s turn := by
  cases turn with
  | grow t =>
    intro adding short
    simpa [lengthensTest, short] using passed
  | _ => trivial

def addingAt (fd : Int) : Adding Unit Nat Nat := ⟨⟨some (), 1, true⟩, fd, .read, none⟩

/-- Two threads find the table short; the one with the smaller descriptor goes first. -/
def smallerFirst : List (Turn Unit Nat Nat (Fin 2)) :=
  [.check 0 (addingAt 32), .check 1 (addingAt 48), .grow 0, .register 0 fun _ => true, .grow 1,
    .register 1 fun _ => true]

/-- The one with the larger descriptor goes first. -/
def largerFirst : List (Turn Unit Nat Nat (Fin 2)) :=
  [.check 0 (addingAt 32), .check 1 (addingAt 48), .grow 1, .register 1 fun _ => true, .grow 0,
    .register 0 fun _ => true]

theorem table_kept_smallerFirst :
    ∃ s, (growing Unit Nat Nat (Fin 2)).Reaches Lengthens s ∧ s.registry.fdContexts.length = 72 ∧
      (Registry.initial : Registry Unit Nat Nat).Kept s.registry := by
  have begins : (growing Unit Nat Nat (Fin 2)).start ⟨.initial, fun _ => .outside⟩ := rfl
  obtain ⟨s, replayed, length⟩ := (Option.any_eq_true _ _).mp (show ((growing Unit Nat Nat (Fin 2)).replay
    lengthensTest ⟨.initial, fun _ => .outside⟩ smallerFirst).any
      (fun s => s.registry.fdContexts.length = 72) = true by decide)
  have path := System.path_of_replay lengthens_of_test .here replayed
  exact ⟨s, (System.Reaches.start begins).along path, of_decide_eq_true length, table_kept (.start begins) path⟩

/-- The later resize is for the smaller descriptor: it shrinks the table, and the
event registered for the larger one can no longer be found or deleted. -/
theorem larger_descriptor_lost :
    ∃ s, (growing Unit Nat Nat (Fin 2)).Reaches (fun _ _ => True) s ∧ s.registry.fdContexts.length = 48 ∧
      s.registry.contexts[48]?.map (fun ctx => (ctx.fd, covers ctx.events .read)) = some (48, true) ∧
      s.registry.locate 48 = .ok none ∧
      (s.registry.delEvent (fun _ => true) 48 .read).toOption.map (fun out => out.2.returned) = some false := by
  obtain ⟨s, reached, test⟩ := System.reaches_test (growing Unit Nat Nat (Fin 2)) (fun _ _ => True)
    (fun _ _ => true) (fun _ _ _ => trivial) ⟨.initial, fun _ => .outside⟩ rfl largerFirst
    (fun s => s.registry.fdContexts.length = 48 ∧
      s.registry.contexts[48]?.map (fun ctx => (ctx.fd, covers ctx.events .read)) = some (48, true) ∧
      s.registry.locate 48 = .ok none ∧
      (s.registry.delEvent (fun _ => true) 48 .read).toOption.map (fun out => out.2.returned) = some false)
    (by decide)
  exact ⟨s, reached, of_decide_eq_true test⟩

end Growing
end HpsSf.IOManager
