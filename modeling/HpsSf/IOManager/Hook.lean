import HpsSf.Foundation.System
import Mathlib.Logic.Function.Basic

/-! When the hooked `sleep` and `usleep` may be called.

The flag of the hook, the current scheduler and the current fiber of a thread are
written by the constructor and the destructor of schedulers, by `run`, and by
switching. `run` sets the flag for every scheduler and nothing takes it back.
-/

set_option autoImplicit false

namespace HpsSf.Hook
open Foundation (System)

inductive Kind where
  | scheduler
  | ioManager
  deriving DecidableEq, Repr

/-- A fiber of the thread: its main one, the root fiber of a scheduler, or one that `run` switches to. -/
inductive Ref where
  | main
  | root (k : Nat)
  | task (f : Nat)
  deriving DecidableEq, Repr

/-- A root fiber, which `stop` calls. -/
inductive Root where
  | init
  | exec
  | over
  deriving DecidableEq, Repr

/-- A scheduler that lives; it has a root fiber where this thread is its `use_caller` thread. -/
structure Live where
  kind : Kind
  root : Option Root
  deriving DecidableEq, Repr

inductive Phase where
  /-- User code on the main fiber. -/
  | outside
  /-- A thread of the pool of a scheduler before `run`. -/
  | started (k : Nat)
  /-- `run` of a scheduler or its `idle`; `run` is in the given fiber. -/
  | loop (k : Nat) (home : Ref)
  /-- User code in a fiber that `run` has switched to. -/
  | task (k : Nat) (home : Ref)
  /-- A thread of a pool behind `run`. -/
  | finished
  deriving DecidableEq, Repr

/-- The thread is in `run` of a scheduler, or about to begin it. -/
def Phase.runs (k : Nat) : Phase → Bool
  | .started k' | .loop k' _ | .task k' _ => k' = k
  | _ => false

/-- User code has the thread. -/
def Phase.user : Phase → Bool
  | .outside | .task _ _ => true
  | _ => false

/-- The thread-locals of a thread, the schedulers that live, and what the thread does. -/
structure Locals where
  t_hook_enable : Bool
  t_scheduler : Option Nat
  t_scheduler_fiber : Option Ref
  t_fiber : Option Ref
  schedulers : Nat → Option Live
  phase : Phase

inductive Label where
  /-- By this thread or, without `use_caller`, by any other one. -/
  | construct (k : Nat) (kind : Kind) (use_caller : Bool)
  /-- `m_rootFiber->call()` in `stop`. -/
  | call (k : Nat)
  /-- A thread of the pool begins `run`. -/
  | run
  | swapIn (f : Nat)
  /-- The fiber yields or ends, or calls `stop` of its own scheduler. -/
  | swapOut
  /-- `run` ends. -/
  | back
  | destroy (k : Nat)
  | destroyElsewhere (k : Nat)

namespace Locals

def put (s : Locals) (k : Nat) (live : Option Live) : Locals :=
  { s with schedulers := Function.update s.schedulers k live }

/-- `setThis(); set_hook_enable(true);` -/
def beginRun (s : Locals) (k : Nat) : Locals := { s with t_scheduler := some k, t_hook_enable := true }

/-- The constructor; `none` is a failed assertion. -/
def construct (s : Locals) (k : Nat) (kind : Kind) (use_caller : Bool) : Option Locals :=
  if (s.schedulers k).isSome then none
  else if use_caller then
    if s.phase.user && s.t_scheduler.isNone then
      some { s.put k (some ⟨kind, some .init⟩) with
        t_fiber := some (s.t_fiber.getD .main), t_scheduler := some k, t_scheduler_fiber := some (.root k) }
    else none
  else some (s.put k (some ⟨kind, none⟩))

/-- The destructor on this thread; nobody is in `run` any more. -/
def destroy (s : Locals) (k : Nat) : Option Locals :=
  if s.phase.user && (s.schedulers k).isSome && !s.phase.runs k then
    some { s.put k none with t_scheduler := if s.t_scheduler = some k then none else s.t_scheduler }
  else none

def step (s : Locals) : Label → Option Locals
  | .construct k kind use_caller => s.construct k kind use_caller
  | .call k =>
      match s.phase, s.schedulers k with
      -- `stop` asserts that the scheduler is the one of the thread.
      | .outside, some ⟨kind, some .init⟩ =>
          if s.t_scheduler = some k then
            some { (s.put k (some ⟨kind, some .exec⟩)).beginRun k with
              t_fiber := some (.root k), phase := .loop k (.root k) }
          else none
      | _, _ => none
  | .run =>
      match s.phase with
      | .started k =>
          -- Not the root thread: `t_scheduler_fiber` is the current fiber.
          some { s.beginRun k with t_fiber := some .main, t_scheduler_fiber := some .main, phase := .loop k .main }
      | _ => none
  | .swapIn f =>
      match s.phase with
      | .loop k home => some { s with t_fiber := some (.task f), phase := .task k home }
      | _ => none
  | .swapOut =>
      match s.phase with
      | .task k home => some { s with t_fiber := s.t_scheduler_fiber, phase := .loop k home }
      | _ => none
  | .back =>
      match s.phase with
      | .loop k (.root _) =>
          some { s.put k ((s.schedulers k).map fun live => { live with root := some .over }) with
            t_fiber := some .main, phase := .outside }
      | .loop _ _ => some { s with phase := .finished }
      | _ => none
  | .destroy k => s.destroy k
  | .destroyElsewhere k =>
      -- A pool is joined before, and the root thread is in `stop` itself.
      if (s.schedulers k).isSome && !s.phase.runs k then some (s.put k none) else none

/-- A thread of user code, or of the pool of a scheduler, beside schedulers of other threads. -/
structure Begins (s : Locals) : Prop where
  hook : s.t_hook_enable = false
  scheduler : s.t_scheduler = none
  fiber : s.t_fiber = none
  elsewhere : ∀ k live, s.schedulers k = some live → live.root = none
  phase : s.phase = .outside ∨ ∃ k, s.phase = .started k ∧ (s.schedulers k).isSome = true

def machine : System Locals Label where
  start := Begins
  step := step

/-- `hps_IOManager::GetThis()`, a cast of the current scheduler. -/
def ioManager (s : Locals) : Option Nat :=
  s.t_scheduler.filter fun k => (s.schedulers k).any fun live => live.kind = .ioManager

/-- The current fiber is one that `run` has switched to, and switching away from it leads there. -/
def Resumable (s : Locals) : Prop :=
  ∃ k home f, s.phase = .task k home ∧ s.t_scheduler = some k ∧ s.t_fiber = some (.task f) ∧
    s.t_scheduler_fiber = some home

/-- Where user code meets the hook, there is a scheduler with timers and a fiber to come back to. -/
def HookSafe (s : Locals) : Prop :=
  s.t_hook_enable = true → s.phase.user = true → s.ioManager.isSome = true ∧ s.Resumable

/-- `run` switches to a fiber for an IO manager only, and does not end on a root fiber. -/
def Hooked (s : Locals) : Label → Prop
  | .swapIn _ => s.ioManager.isSome = true
  | .back => ∀ k k', s.phase ≠ .loop k (.root k')
  | _ => True

/-! ## What is kept -/

structure Kept (s : Locals) : Prop where
  outside : s.phase = .outside → s.t_hook_enable = false
  started : ∀ k, s.phase = .started k → (s.schedulers k).isSome = true
  runs : ∀ k home, s.phase = .loop k home ∨ s.phase = .task k home →
    s.t_scheduler = some k ∧ s.t_scheduler_fiber = some home ∧ (s.schedulers k).isSome = true ∧ s.t_hook_enable = true
  task : ∀ k home, s.phase = .task k home → s.ioManager.isSome = true ∧ ∃ f, s.t_fiber = some (.task f)
  caller : s.phase = .outside → ∀ k live, s.t_scheduler = some k → s.schedulers k = some live →
    live.root.isSome = true →
    s.t_scheduler_fiber = some (.root k)

theorem Kept.hookSafe {s : Locals} (kept : s.Kept) : s.HookSafe := by
  intro hook user
  cases phase : s.phase with
  | outside => cases (kept.outside phase).symm.trans hook
  | task k home =>
    obtain ⟨scheduler, fiber, -⟩ := kept.runs k home (.inr phase)
    obtain ⟨ioManager, f, current⟩ := kept.task k home phase
    exact ⟨ioManager, k, home, f, phase, scheduler, current, fiber⟩
  | started | loop | finished =>
    rw [phase] at user
    cases user

/-- Schedulers of which the thread is not in `run` come and go. -/
theorem Kept.put {s : Locals} (kept : s.Kept) {k : Nat} {live : Option Live} (away : s.phase.runs k = false)
    (foreign : ∀ l, live = some l → l.root = none) : (s.put k live).Kept := by
  have other (k' : Nat) (runs : s.phase.runs k' = true) : (s.put k live).schedulers k' = s.schedulers k' := by
    refine Function.update_of_ne ?_ ..
    rintro rfl
    cases away.symm.trans runs
  refine ⟨kept.outside, fun k' phase => ?_, fun k' home phase => ?_, fun k' home phase => ?_,
    fun phase k' l scheduler found caller => ?_⟩
  · rw [other k' (by simp [show s.phase = .started k' from phase, Phase.runs])]
    exact kept.started k' phase
  · obtain ⟨scheduler, fiber, lives, hook⟩ := kept.runs k' home phase
    rw [other k' (by obtain phase | phase := phase <;> simp [show s.phase = _ from phase, Phase.runs])]
    exact ⟨scheduler, fiber, lives, hook⟩
  · obtain ⟨manager, current⟩ := kept.task k' home phase
    obtain ⟨scheduler, -, -⟩ := kept.runs k' home (.inr phase)
    have same : s.ioManager = (s.put k live).ioManager := by
      have lives := other k' (by simp [show s.phase = .task k' home from phase, Phase.runs])
      have scheduler' : (s.put k live).t_scheduler = some k' := scheduler
      rw [ioManager, ioManager, scheduler, scheduler', Option.filter_some, Option.filter_some, lives]
    exact ⟨same ▸ manager, current⟩
  · by_cases here : k' = k
    · subst here
      have new : (s.put k' live).schedulers k' = live := Function.update_self ..
      rw [foreign l (new.symm.trans found)] at caller
      cases caller
    · exact kept.caller phase k' l scheduler ((Function.update_of_ne here ..).symm.trans found) caller

/-- The thread is in `run` of schedulers that live. -/
theorem Kept.lives {s : Locals} (kept : s.Kept) {k : Nat} (runs : s.phase.runs k = true) :
    (s.schedulers k).isSome = true := by
  cases phase : s.phase with
  | outside | finished =>
    rw [phase] at runs
    cases runs
  | started k' =>
    rw [phase] at runs
    obtain rfl : k' = k := of_decide_eq_true runs
    exact kept.started k' phase
  | loop k' home =>
    rw [phase] at runs
    obtain rfl : k' = k := of_decide_eq_true runs
    exact (kept.runs k' home (.inl phase)).2.2.1
  | task k' home =>
    rw [phase] at runs
    obtain rfl : k' = k := of_decide_eq_true runs
    exact (kept.runs k' home (.inr phase)).2.2.1

/-- In user code outside of `run` little has to hold. -/
theorem Kept.of_outside {s : Locals} (outside : s.phase = .outside) (hook : s.t_hook_enable = false)
    (caller : ∀ k live, s.t_scheduler = some k → s.schedulers k = some live → live.root.isSome = true →
      s.t_scheduler_fiber = some (.root k)) : s.Kept := by
  refine ⟨fun _ => hook, fun k phase => ?_, fun k home phase => ?_, fun k home phase => ?_, fun _ => caller⟩
  · cases outside.symm.trans phase
  · obtain phase | phase := phase <;> cases outside.symm.trans phase
  · cases outside.symm.trans phase

theorem Kept.construct {s next : Locals} (kept : s.Kept) {k : Nat} {kind : Kind} {use_caller : Bool}
    (constructed : s.construct k kind use_caller = some next) : next.Kept := by
  rw [Locals.construct] at constructed
  split at constructed
  next => cases constructed
  next fresh =>
    split at constructed
    · split at constructed
      next may =>
        obtain rfl := Option.some.inj constructed
        obtain ⟨user, none⟩ := Bool.and_eq_true_iff.mp may
        -- A thread in `run` has a scheduler.
        have outside : s.phase = .outside := by
          cases phase : s.phase with
          | outside => rfl
          | task k' home =>
            rw [(kept.runs k' home (.inr phase)).1] at none
            cases none
          | started | loop | finished =>
            rw [phase] at user
            cases user
        refine Kept.of_outside outside (kept.outside outside) fun k' live scheduler _ _ => ?_
        obtain rfl : k = k' := Option.some.inj scheduler
        rfl
      next => cases constructed
    · obtain rfl := Option.some.inj constructed
      refine kept.put ?_ fun l same => ?_
      · by_contra runs
        exact fresh (kept.lives (Bool.of_not_eq_false runs))
      · cases same
        rfl

theorem Kept.destroy {s next : Locals} (kept : s.Kept) {k : Nat} (destroyed : s.destroy k = some next) : next.Kept := by
  obtain ⟨may, same⟩ := Option.ite_none_right_eq_some.mp destroyed
  obtain rfl := Option.some.inj same
  obtain ⟨may, away⟩ := Bool.and_eq_true_iff.mp may
  replace away : s.phase.runs k = false := by simpa using away
  by_cases current : s.t_scheduler = some k
  · have outside : s.phase = .outside := by
      cases phase : s.phase with
      | outside => rfl
      | task k' home =>
        obtain rfl := Option.some.inj ((kept.runs k' home (.inr phase)).1.symm.trans current)
        simp [phase, Phase.runs] at away
      | started | loop | finished => simp [phase, Phase.user] at may
    refine Kept.of_outside outside (kept.outside outside) fun k' live scheduler _ _ => ?_
    rw [if_pos current] at scheduler
    cases scheduler
  · rw [if_neg current]
    exact kept.put away nofun

theorem step_kept {s next : Locals} (kept : s.Kept) {label : Label} (hooked : s.Hooked label)
    (stepped : s.step label = some next) : next.Kept := by
  cases label with
  | construct k kind use_caller => exact kept.construct stepped
  | destroy k => exact kept.destroy stepped
  | destroyElsewhere k =>
    obtain ⟨may, same⟩ := Option.ite_none_right_eq_some.mp stepped
    obtain rfl := Option.some.inj same
    exact kept.put (by simpa using (Bool.and_eq_true_iff.mp may).2) nofun
  | call k =>
    rw [step] at stepped
    split at stepped
    next kind outside found =>
      obtain ⟨current, same⟩ := Option.ite_none_right_eq_some.mp stepped
      obtain rfl := Option.some.inj same
      have fiber := kept.caller outside k _ current found rfl
      refine ⟨nofun, nofun, fun k' home phase => ?_, nofun, nofun⟩
      obtain phase | phase := phase <;> cases phase
      exact ⟨rfl, fiber, by simp [put, beginRun], rfl⟩
    next => cases stepped
  | run =>
    rw [step] at stepped
    split at stepped
    next k started =>
      obtain rfl := Option.some.inj stepped
      refine ⟨nofun, nofun, fun k' home phase => ?_, nofun, nofun⟩
      obtain phase | phase := phase <;> cases phase
      exact ⟨rfl, rfl, kept.started k started, rfl⟩
    next => cases stepped
  | swapIn f =>
    rw [step] at stepped
    split at stepped
    next k home loop =>
      obtain rfl := Option.some.inj stepped
      refine ⟨nofun, nofun, fun k' home' phase => ?_, fun k' home' phase => ⟨hooked, f, rfl⟩, nofun⟩
      obtain phase | phase := phase <;> cases phase
      exact kept.runs k home (.inl loop)
    next => cases stepped
  | swapOut =>
    rw [step] at stepped
    split at stepped
    next k home task =>
      obtain rfl := Option.some.inj stepped
      refine ⟨nofun, nofun, fun k' home' phase => ?_, nofun, nofun⟩
      obtain phase | phase := phase <;> cases phase
      exact kept.runs k home (.inr task)
    next => cases stepped
  | back =>
    rw [step] at stepped
    split at stepped
    next k k' loop => exact absurd loop (hooked k k')
    next =>
      obtain rfl := Option.some.inj stepped
      refine ⟨nofun, nofun, fun k home phase => ?_, nofun, nofun⟩
      obtain phase | phase := phase <;> cases phase
    next => cases stepped

theorem Begins.kept {s : Locals} (begins : s.Begins) : s.Kept := by
  refine ⟨fun _ => begins.hook, fun k phase => ?_, fun k home phase => ?_, fun k home phase => ?_,
    fun _ k live scheduler _ _ => ?_⟩
  · obtain outside | ⟨k', started, lives⟩ := begins.phase
    · cases outside.symm.trans phase
    · cases started.symm.trans phase
      exact lives
  · obtain outside | ⟨k', started, -⟩ := begins.phase
    · obtain phase | phase := phase <;> cases outside.symm.trans phase
    · obtain phase | phase := phase <;> cases started.symm.trans phase
  · obtain outside | ⟨k', started, -⟩ := begins.phase
    · cases outside.symm.trans phase
    · cases started.symm.trans phase
  · rw [begins.scheduler] at scheduler
    cases scheduler

theorem kept_of_reaches {s : Locals} (reached : machine.Reaches Hooked s) : s.Kept :=
  reached.invariant (P := Kept) (fun _ (begins : Begins _) => begins.kept)
    fun _ _ _ kept hooked stepped => step_kept kept hooked stepped

/-- In every run in which only IO managers switch to fibers and no root fiber comes
back, the hook is safe wherever user code meets it. -/
theorem hooks_safe {s : Locals} (reached : machine.Reaches Hooked s) : s.HookSafe :=
  (kept_of_reaches reached).hookSafe

/-- After such a run a further step is safe only if it is one of these. -/
theorem hookSafe_iff {s next : Locals} (reached : machine.Reaches Hooked s) {label : Label}
    (stepped : s.step label = some next) : next.HookSafe ↔ s.Hooked label := by
  have kept := kept_of_reaches reached
  refine ⟨fun safe => ?_, fun hooked => (step_kept kept hooked stepped).hookSafe⟩
  cases label with
  | swapIn f =>
    rw [step] at stepped
    split at stepped
    next k home loop =>
      obtain rfl := Option.some.inj stepped
      exact (safe (kept.runs k home (.inl loop)).2.2.2 rfl).1
    next => cases stepped
  | back =>
    intro k k' loop
    rw [step, loop] at stepped
    obtain rfl := Option.some.inj stepped
    -- The thread is back in its main fiber with the flag set.
    obtain ⟨_, _, _, outside, -⟩ := (safe (kept.runs k (.root k') (.inl loop)).2.2.2 rfl).2
    cases outside
  | _ => trivial

/-- A thread of user code, and a thread of the pool of a scheduler. -/
def userThread : Locals := ⟨false, none, none, none, fun _ => none, .outside⟩

def poolThread (kind : Kind) : Locals := ⟨false, none, none, none, fun k => if k = 0 then some ⟨kind, none⟩ else none,
    .started 0⟩

theorem begins_userThread : userThread.Begins := ⟨rfl, rfl, rfl, nofun, .inl rfl⟩

theorem begins_poolThread (kind : Kind) : (poolThread kind).Begins := by
  refine ⟨rfl, rfl, rfl, fun k live found => ?_, .inr ⟨0, rfl, rfl⟩⟩
  obtain ⟨-, same⟩ := Option.ite_none_right_eq_some.mp found
  exact congrArg Live.root (Option.some.inj same).symm

/-- A fiber on a worker of an IO manager. -/
theorem hooks_safe_worker :
    ∃ s, machine.Reaches Hooked s ∧ s.t_hook_enable = true ∧ s.phase = .task 0 .main ∧ s.ioManager = some 0 ∧
      s.HookSafe := by
  obtain ⟨s, reached, test⟩ := System.reaches_test machine Hooked
    (fun s label => match label with
      | .swapIn _ => s.ioManager.isSome
      | .back => false
      | _ => true)
    (fun s label passed => by
      cases label with
      | swapIn f => exact passed
      | back => cases passed
      | _ => trivial)
    (poolThread .ioManager) (begins_poolThread .ioManager) [.run, .swapIn 1, .swapOut, .swapIn 2]
    (fun s => s.t_hook_enable = true ∧ s.phase = .task 0 .main ∧ s.ioManager = some 0) (by decide)
  obtain ⟨hook, phase, manager⟩ := of_decide_eq_true test
  exact ⟨s, reached, hook, phase, manager, hooks_safe reached⟩

/-- A worker of a plain scheduler has no timers to sleep on. On the thread of a
`use_caller` IO manager the flag stays set behind `stop`, with the main fiber as the
current one, and behind the destructor without any scheduler. -/
theorem hook_left_enabled :
    (∃ s, machine.Reaches (fun _ _ => True) s ∧ s.t_hook_enable = true ∧ s.phase = .task 0 .main ∧ s.ioManager = none ∧
      ¬ s.HookSafe) ∧
    (∃ s, machine.Reaches (fun _ _ => True) s ∧ s.t_hook_enable = true ∧ s.phase = .outside ∧ s.ioManager = some 0 ∧
      s.t_fiber = some .main ∧ ¬ s.HookSafe) ∧
    ∃ s, machine.Reaches (fun _ _ => True) s ∧ s.t_hook_enable = true ∧ s.phase = .outside ∧ s.ioManager = none ∧
      ¬ s.HookSafe := by
  refine ⟨?_, ?_, ?_⟩
  · obtain ⟨s, reached, test⟩ := System.reaches_test machine (fun _ _ => True) (fun _ _ => true) (fun _ _ _ => trivial)
      (poolThread .scheduler) (begins_poolThread .scheduler) [.run, .swapIn 1]
      (fun s => s.t_hook_enable = true ∧ s.phase = .task 0 .main ∧ s.ioManager = none) (by decide)
    obtain ⟨hook, phase, manager⟩ := of_decide_eq_true test
    refine ⟨s, reached, hook, phase, manager, fun safe => ?_⟩
    have present := (safe hook (by rw [phase]; rfl)).1
    rw [manager] at present
    cases present
  · obtain ⟨s, reached, test⟩ := System.reaches_test machine (fun _ _ => True) (fun _ _ => true) (fun _ _ _ => trivial)
      userThread begins_userThread [.construct 0 .ioManager true, .call 0, .swapIn 1, .swapOut, .back]
      (fun s => s.t_hook_enable = true ∧ s.phase = .outside ∧ s.ioManager = some 0 ∧ s.t_fiber = some .main) (by decide)
    obtain ⟨hook, phase, manager, fiber⟩ := of_decide_eq_true test
    refine ⟨s, reached, hook, phase, manager, fiber, fun safe => ?_⟩
    obtain ⟨_, _, _, task, -⟩ := (safe hook (by rw [phase]; rfl)).2
    cases phase.symm.trans task
  · obtain ⟨s, reached, test⟩ := System.reaches_test machine (fun _ _ => True) (fun _ _ => true) (fun _ _ _ => trivial)
      userThread begins_userThread [.construct 0 .ioManager true, .call 0, .back, .destroy 0]
      (fun s => s.t_hook_enable = true ∧ s.phase = .outside ∧ s.ioManager = none) (by decide)
    obtain ⟨hook, phase, manager⟩ := of_decide_eq_true test
    refine ⟨s, reached, hook, phase, manager, fun safe => ?_⟩
    have present := (safe hook (by rw [phase]; rfl)).1
    rw [manager] at present
    cases present

end Locals
end HpsSf.Hook
