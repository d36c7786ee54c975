import HpsSf.Fiber.Lifecycle
import Mathlib.Data.List.Basic
import Mathlib.Data.List.Perm.Basic

/-! The queue of a scheduler: entries, insertion under the lock, and the scan of `run`. -/

set_option autoImplicit false

namespace HpsSf.Scheduler

/-- The content of an entry: one of a fiber and a callback, never both and never null. -/
inductive Task (F C : Type) where
  | fiber (fiber : F)
  | cb (cb : C)
  deriving DecidableEq, Repr

structure FiberAndThread (F C : Type) where
  task : Task F C
  thread : Int
  deriving DecidableEq, Repr

variable {F C : Type}

/-- Returns whether a tickle is needed. A null fiber and an empty callback make no entry. -/
def scheduleNoLock (fibers : List (FiberAndThread F C)) (fc : Option (Task F C)) (thread : Int) :
    Bool × List (FiberAndThread F C) :=
  (fibers.isEmpty,
    match fc with
    | some task => fibers ++ [⟨task, thread⟩]
    | none => fibers)

/-- An entry the scan steps over: pinned to another thread, or a fiber that is executing. -/
def FiberAndThread.skipped (self : Int) (state : F → Fiber.State) (it : FiberAndThread F C) : Bool :=
  (it.thread != -1 && it.thread != self) ||
    match it.task with
    | .fiber f => state f == .exec
    | .cb _ => false

/-- The scan of `run`: the first entry that is not skipped, and the queue without it. -/
def pick (self : Int) (state : F → Fiber.State) :
    List (FiberAndThread F C) → Option (FiberAndThread F C × List (FiberAndThread F C))
  | [] => none
  | it :: rest =>
      if it.skipped self state then
        (pick self state rest).map fun (ft, left) => (ft, it :: left)
      else some (it, rest)

/-- What the scan takes was in the queue at some place, and only that entry is erased. -/
theorem pick_eq_some {self : Int} {state : F → Fiber.State} {fibers left : List (FiberAndThread F C)}
    {ft : FiberAndThread F C} (picked : pick self state fibers = some (ft, left)) :
    ft.skipped self state = false ∧
      ∃ before after, fibers = before ++ ft :: after ∧ left = before ++ after := by
  induction fibers generalizing left with
  | nil => cases picked
  | cons it rest ih =>
    simp only [pick] at picked
    split at picked
    next skipped =>
      obtain ⟨⟨other, tail⟩, found, same⟩ := Option.map_eq_some_iff.mp picked
      cases same
      obtain ⟨taken, before, after, whole, shorter⟩ := ih found
      exact ⟨taken, it :: before, after, by rw [whole, List.cons_append],
        by rw [shorter, List.cons_append]⟩
    next taken =>
      cases picked
      exact ⟨Bool.eq_false_iff.mpr taken, [], rest, rfl, rfl⟩

/-- The scan finds nothing only if it steps over all entries. -/
theorem skipped_of_pick_eq_none {self : Int} {state : F → Fiber.State} {fibers : List (FiberAndThread F C)}
    (nothing : pick self state fibers = none) : ∀ it ∈ fibers, it.skipped self state = true := by
  induction fibers with
  | nil => exact nofun
  | cons it rest ih =>
    simp only [pick] at nothing
    split at nothing
    next skipped => exact List.forall_mem_cons.mpr ⟨skipped, ih (Option.map_eq_none_iff.mp nothing)⟩
    next => cases nothing

theorem pick_perm {self : Int} {state : F → Fiber.State} {fibers left : List (FiberAndThread F C)}
    {ft : FiberAndThread F C} (picked : pick self state fibers = some (ft, left)) :
    fibers.Perm (ft :: left) := by
  obtain ⟨_, before, after, rfl, rfl⟩ := pick_eq_some picked
  exact List.perm_middle

end HpsSf.Scheduler
