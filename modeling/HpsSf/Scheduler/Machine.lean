import HpsSf.Foundation.System
import HpsSf.Foundation.Word
import HpsSf.Scheduler.Queue

/-! The workers of a scheduler as one transition system.

Each critical section, each write of a fiber's state, each counter access and
each `swapcontext` is one step of one worker. What the body of a running fiber
does is open: it may schedule, yield, return or throw at any time. The idle
fiber is open too; the scheduler and the IO manager each close it by saying when
it may end. A failed assertion has no step.
-/

set_option autoImplicit false

namespace HpsSf.Scheduler
open Foundation

abbrev Entry := FiberAndThread FiberId Callback

/-- Which variable of `run` holds the fiber: `ft.fiber` or `cb_fiber`. -/
inductive Branch where
  | fiber (f : FiberId)
  | callback
  deriving DecidableEq, Repr

/-- From the call of `swapIn` to the end of the loop body. -/
inductive Stage where
  /-- `swapIn` is called; `m_state` is still to be set to EXEC. -/
  | enter
  /-- `m_state` is EXEC; the context is still to be entered. -/
  | switch
  /-- On the fiber's stack, in its body. -/
  | exec
  /-- Still on the fiber's stack, the new `m_state` stored. `done` is the last `swapOut` of `MainFunc`. -/
  | leave (done : Bool)
  /-- `swapIn` has returned; the active count is still to be decremented. -/
  | back
  /-- The state of the fiber is still to be read. -/
  | settle
  | requeue
  | hold
  | recycle
  deriving DecidableEq, Repr

inductive Pc where
  /-- At the top of the loop, before the scan of the queue. -/
  | scan
  /-- After the scan, with what it took. -/
  | branch (ft : Option Entry)
  | task (stage : Stage) (branch : Branch)
  | idle
  | exited
  deriving DecidableEq, Repr

structure Worker where
  pc : Pc
  cbFiber : Option FiberId
  /-- The idle fiber is in state TERM. -/
  idleOver : Bool
  deriving DecidableEq, Repr

def Worker.fiberOf (worker : Worker) : Branch → Option FiberId
  | .fiber f => some f
  | .callback => worker.cbFiber

/-- What the worker does next where the source leaves it a choice. -/
inductive Act where
  | proceed | yieldToReady | yieldToHold | returns | throws
  deriving DecidableEq, Repr

/-- What one step between `swapIn` and the end of the loop body changes. -/
structure Effect where
  fiber : Fiber
  pc : Pc
  /-- `cb_fiber.reset()` in the callback branch. -/
  releases : Bool := false
  /-- `schedule(fiber)`. -/
  requeues : Bool := false
  /-- `m_activeThreadCount --`. -/
  decrements : Bool := false
  started : Option Callback := none
  finished : Option Callback := none

def Worker.after (worker : Worker) (branch : Branch) (effect : Effect) : Worker :=
  { worker with
    pc := effect.pc
    cbFiber := if effect.releases && branch == .callback then none else worker.cbFiber }

/-- One step of a worker on the fiber it has taken. -/
def advance (fiber : Fiber) (branch : Branch) : Stage → Act → Option Effect
  | .enter, .proceed =>
      -- `HPS_ASSERT(m_state != EXEC)` of `swapIn`.
      if fiber.state = .exec then none
      else some { fiber := { fiber with state := .exec }, pc := .task .switch branch }
  | .switch, .proceed =>
      match fiber.context with
      | .fresh => some { fiber := fiber, pc := .task .exec branch, started := fiber.cb }
      | .suspended => some { fiber := fiber, pc := .task .exec branch }
      -- resumes behind the last swapOut of MainFunc
      | .ended => none
  | .exec, .yieldToReady =>
      -- The state is stored before the context is: another worker may see READY too early.
      some { fiber := { fiber with state := .ready }, pc := .task (.leave false) branch }
  | .exec, .yieldToHold =>
      some { fiber := { fiber with state := .hold }, pc := .task (.leave false) branch }
  | .exec, .returns =>
      some { fiber := { fiber with state := .term, cb := none }
             pc := .task (.leave true) branch, finished := fiber.cb }
  | .exec, .throws =>
      some { fiber := { fiber with state := .except }
             pc := .task (.leave true) branch, finished := fiber.cb }
  | .leave done, .proceed =>
      some { fiber := { fiber with context := if done then .ended else .suspended }
             pc := .task .back branch }
  | .back, .proceed => some { fiber := fiber, pc := .task .settle branch, decrements := true }
  | .settle, .proceed =>
      match fiber.state with
      | .ready => some { fiber := fiber, pc := .task .requeue branch }
      | .term | .except =>
          match branch with
          | .fiber _ => some { fiber := fiber, pc := .scan }
          | .callback => some { fiber := fiber, pc := .task .recycle branch }
      -- Neither READY nor ended: `run` stores HOLD once more.
      | .init | .hold | .exec => some { fiber := fiber, pc := .task .hold branch }
  | .requeue, .proceed => some { fiber := fiber, pc := .scan, releases := true, requeues := true }
  | .hold, .proceed =>
      some { fiber := { fiber with state := .hold }, pc := .scan, releases := true }
  | .recycle, .proceed => (fiber.reset none).map fun fiber => { fiber := fiber, pc := .scan }
  | _, _ => none

/-- What a caller gives to `schedule`. A callback is numbered when it is given. -/
inductive Call where
  | fiber (f : FiberId)
  | callback
  | empty
  deriving DecidableEq, Repr

structure State (n : Nat) where
  fibers : List Entry
  heap : FiberId → Fiber
  nextFiber : FiberId
  worker : Fin n → Worker
  activeThreadCount : Nat
  idleThreadCount : Nat
  autoStop : Bool
  stopping : Bool
  /-- History: the thread argument of each callback given to `schedule`, by serial number. -/
  pins : List Int
  /-- History: the callbacks whose body was entered, with the thread that entered it. -/
  startedOn : List (Callback × Int)
  /-- History: the callbacks whose body has returned or thrown. -/
  finished : List Callback

variable {n : Nat}

namespace State

/-- After `start()`: every worker is about to scan an empty queue. -/
def initial (n : Nat) : State n where
  fibers := []
  heap _ := Fiber.create none false
  nextFiber := 0
  worker _ := ⟨.scan, none, false⟩
  activeThreadCount := 0
  idleThreadCount := 0
  autoStop := false
  stopping := false
  pins := []
  startedOn := []
  finished := []

def setWorker (s : State n) (w : Fin n) (self : Worker) : State n :=
  { s with worker := Function.update s.worker w self }

def setFiber (s : State n) (f : FiberId) (fiber : Fiber) : State n :=
  { s with heap := Function.update s.heap f fiber }

/-- `hps_Scheduler::stopping()`, evaluated under the lock. -/
def verdict (s : State n) : Bool :=
  s.autoStop && s.stopping && s.fibers.isEmpty && s.activeThreadCount == 0

/-- A thread outside the pool may call at any time, a worker only from the body it runs. -/
def mayCall (s : State n) : Option (Fin n) → Bool
  | none => true
  | some w =>
      match (s.worker w).pc with
      | .task .exec _ => true
      | _ => false

def knows (s : State n) : Call → Bool
  | .fiber f => f < s.nextFiber
  | .callback | .empty => true

/-- One `scheduleNoLock`, on behalf of `schedule`. -/
def accept (s : State n) (thread : Int) : Call → State n
  | .fiber f => { s with fibers := (scheduleNoLock s.fibers (some (.fiber f)) thread).2 }
  | .callback =>
      { s with
        fibers := (scheduleNoLock s.fibers (some (.cb s.pins.length)) thread).2
        pins := s.pins ++ [thread] }
  | .empty => { s with fibers := (scheduleNoLock s.fibers none thread).2 }

/-- The critical section of `run`. -/
def scan (s : State n) (self : Int) (w : Fin n) : State n :=
  match pick self (fun f => (s.heap f).state) s.fibers with
  | some (ft, left) =>
      { s.setWorker w { s.worker w with pc := .branch (some ft) } with
        fibers := left
        activeThreadCount := incr64 s.activeThreadCount }
  | none => s.setWorker w { s.worker w with pc := .branch none }

/-- The three-way choice of `run`, up to the call of `swapIn`. -/
def choose (s : State n) (w : Fin n) : Option Entry → Option (State n)
  | some ⟨.fiber f, _⟩ =>
      if (s.heap f).state.runnable then
        some (s.setWorker w { s.worker w with pc := .task .enter (.fiber f) })
      else
        some { s.setWorker w { s.worker w with pc := .scan } with
               activeThreadCount := decr64 s.activeThreadCount }
  | some ⟨.cb c, _⟩ =>
      match (s.worker w).cbFiber with
      | some f => ((s.heap f).reset (some c)).map fun fiber =>
          (s.setFiber f fiber).setWorker w { s.worker w with pc := .task .enter .callback }
      | none =>
          some { (s.setFiber s.nextFiber (Fiber.create (some c) true)).setWorker w
                   { s.worker w with pc := .task .enter .callback, cbFiber := some s.nextFiber } with
                 nextFiber := s.nextFiber + 1 }
  | none =>
      if (s.worker w).idleOver then some (s.setWorker w { s.worker w with pc := .exited })
      else
        some { s.setWorker w { s.worker w with pc := .idle } with
               idleThreadCount := incr64 s.idleThreadCount }

def apply (s : State n) (self : Int) (w : Fin n) (branch : Branch) (f : FiberId) (effect : Effect) :
    State n :=
  { s with
    fibers := if effect.requeues then (scheduleNoLock s.fibers (some (.fiber f)) (-1)).2 else s.fibers
    heap := Function.update s.heap f effect.fiber
    worker := Function.update s.worker w ((s.worker w).after branch effect)
    activeThreadCount :=
      if effect.decrements then decr64 s.activeThreadCount else s.activeThreadCount
    startedOn := s.startedOn ++ (effect.started.map fun c => (c, self)).toList
    finished := s.finished ++ effect.finished.toList }

end State

inductive Label (n : Nat) where
  | schedule (caller : Option (Fin n)) (fc : Call) (thread : Int)
  | scheduleAll (caller : Option (Fin n)) (fcs : List Call)
  /-- User code constructs a fiber. -/
  | newFiber (caller : Option (Fin n))
  | setAutoStop
  | setStopping
  | scan (w : Fin n)
  | branch (w : Fin n)
  | task (w : Fin n) (act : Act)
  /-- The idle fiber gives control back, suspended or ended. -/
  | idle (w : Fin n) (ended : Bool)

/-- `tid` gives the thread id of each worker. -/
def step (tid : Fin n → Int) (s : State n) : Label n → Option (State n)
  | .schedule caller fc thread =>
      if s.mayCall caller && s.knows fc then some (s.accept thread fc) else none
  | .scheduleAll caller fcs =>
      if s.mayCall caller && fcs.all s.knows then
        some (fcs.foldl (fun s fc => s.accept (-1) fc) s)
      else none
  | .newFiber caller =>
      if s.mayCall caller then
        some { s.setFiber s.nextFiber (Fiber.create none false) with nextFiber := s.nextFiber + 1 }
      else none
  | .setAutoStop => some { s with autoStop := true }
  | .setStopping => some { s with stopping := true }
  | .scan w =>
      match (s.worker w).pc with
      | .scan => some (s.scan (tid w) w)
      | _ => none
  | .branch w =>
      match (s.worker w).pc with
      | .branch ft => s.choose w ft
      | _ => none
  | .task w act =>
      match (s.worker w).pc with
      | .task stage branch =>
          match (s.worker w).fiberOf branch with
          | some f => (advance (s.heap f) branch stage act).map (s.apply (tid w) w branch f)
          | none => none
      | _ => none
  | .idle w ended =>
      match (s.worker w).pc with
      | .idle =>
          some { s.setWorker w { s.worker w with
                   pc := .scan, idleOver := ended || (s.worker w).idleOver } with
                 idleThreadCount := decr64 s.idleThreadCount }
      | _ => none

def machine (tid : Fin n → Int) : System (State n) (Label n) where
  start s := s = State.initial n
  step := step tid

/-- The invariant rule at the one initial state of the machine. -/
theorem machine_invariant {tid : Fin n → Int} {allowed : State n → Label n → Prop} {P : State n → Prop}
    (initially : P (State.initial n))
    (preserved : ∀ s label next, P s → allowed s label → step tid s label = some next → P next)
    {s : State n} (reached : (machine tid).Reaches allowed s) : P s :=
  reached.invariant (fun s begins => by rw [show s = State.initial n from begins]; exact initially)
    preserved

/-! Inversion of a step, one lemma for each kind of label. -/

section
variable {tid : Fin n → Int} {s next : State n} {w : Fin n}

theorem step_schedule {caller : Option (Fin n)} {fc : Call} {thread : Int}
    (stepped : step tid s (.schedule caller fc thread) = some next) :
    s.mayCall caller = true ∧ s.knows fc = true ∧ next = s.accept thread fc := by
  simp only [step] at stepped
  split at stepped
  next able =>
    rw [Bool.and_eq_true] at able
    exact ⟨able.1, able.2, (Option.some.inj stepped).symm⟩
  next => cases stepped

theorem step_scheduleAll {caller : Option (Fin n)} {fcs : List Call}
    (stepped : step tid s (.scheduleAll caller fcs) = some next) :
    s.mayCall caller = true ∧ (∀ fc ∈ fcs, s.knows fc = true) ∧
      next = fcs.foldl (fun s fc => s.accept (-1) fc) s := by
  simp only [step] at stepped
  split at stepped
  next able =>
    rw [Bool.and_eq_true, List.all_eq_true] at able
    exact ⟨able.1, able.2, (Option.some.inj stepped).symm⟩
  next => cases stepped

theorem step_newFiber {caller : Option (Fin n)} (stepped : step tid s (.newFiber caller) = some next) :
    next = { s.setFiber s.nextFiber (Fiber.create none false) with nextFiber := s.nextFiber + 1 } := by
  simp only [step] at stepped
  split at stepped
  next => exact (Option.some.inj stepped).symm
  next => cases stepped

theorem step_scan (stepped : step tid s (.scan w) = some next) :
    (s.worker w).pc = .scan ∧
      ((∃ ft left, pick (tid w) (fun f => (s.heap f).state) s.fibers = some (ft, left) ∧
          next = { s.setWorker w { s.worker w with pc := .branch (some ft) } with
            fibers := left, activeThreadCount := incr64 s.activeThreadCount }) ∨
        (pick (tid w) (fun f => (s.heap f).state) s.fibers = none ∧
          next = s.setWorker w { s.worker w with pc := .branch none })) := by
  simp only [step] at stepped
  split at stepped
  next scanning =>
    refine ⟨scanning, ?_⟩
    cases stepped
    simp only [State.scan]
    split
    next ft left picked => exact .inl ⟨ft, left, picked, rfl⟩
    next picked => exact .inr ⟨picked, rfl⟩
  next => cases stepped

/-- The guard of the fiber branch never fails, so its alternative does not occur. -/
theorem step_branch (stepped : step tid s (.branch w) = some next) :
    (∃ f thread, (s.worker w).pc = .branch (some ⟨.fiber f, thread⟩) ∧
      next = s.setWorker w { s.worker w with pc := .task .enter (.fiber f) }) ∨
    (∃ c thread f, (s.worker w).pc = .branch (some ⟨.cb c, thread⟩) ∧
      (s.worker w).cbFiber = some f ∧ (s.heap f).state.resettable = true ∧
      next = (s.setFiber f ⟨.init, .fresh, some c, (s.heap f).pooled⟩).setWorker w
        { s.worker w with pc := .task .enter .callback }) ∨
    (∃ c thread, (s.worker w).pc = .branch (some ⟨.cb c, thread⟩) ∧ (s.worker w).cbFiber = none ∧
      next = { (s.setFiber s.nextFiber (Fiber.create (some c) true)).setWorker w
        { s.worker w with pc := .task .enter .callback, cbFiber := some s.nextFiber } with
          nextFiber := s.nextFiber + 1 }) ∨
    ((s.worker w).pc = .branch none ∧
      (next = s.setWorker w { s.worker w with pc := .exited } ∧ (s.worker w).idleOver = true ∨
        next = { s.setWorker w { s.worker w with pc := .idle } with
          idleThreadCount := incr64 s.idleThreadCount } ∧ (s.worker w).idleOver = false)) := by
  simp only [step] at stepped
  split at stepped
  next ft branching =>
    match ft, branching, stepped with
    | some ⟨.fiber f, thread⟩, branching, stepped =>
      simp only [State.choose, Fiber.State.runnable_eq_true, if_true, Option.some.injEq] at stepped
      exact .inl ⟨f, thread, branching, stepped.symm⟩
    | some ⟨.cb c, thread⟩, branching, stepped =>
      simp only [State.choose] at stepped
      split at stepped
      next f owned =>
        obtain ⟨fiber, recycled, same⟩ := Option.map_eq_some_iff.mp stepped
        obtain ⟨able, rfl⟩ := Fiber.reset_eq_some recycled
        exact .inr (.inl ⟨c, thread, f, branching, owned, able, same.symm⟩)
      next unowned =>
        exact .inr (.inr (.inl ⟨c, thread, branching, unowned, (Option.some.inj stepped).symm⟩))
    | none, branching, stepped =>
      simp only [State.choose] at stepped
      split at stepped
      next ended => exact .inr (.inr (.inr ⟨branching, .inl ⟨(Option.some.inj stepped).symm, ended⟩⟩))
      next more =>
        exact .inr (.inr (.inr ⟨branching, .inr ⟨(Option.some.inj stepped).symm, by simpa using more⟩⟩))
  next => cases stepped

theorem step_task {act : Act} (stepped : step tid s (.task w act) = some next) :
    ∃ stage branch f effect, (s.worker w).pc = .task stage branch ∧
      (s.worker w).fiberOf branch = some f ∧ advance (s.heap f) branch stage act = some effect ∧
      next = s.apply (tid w) w branch f effect := by
  simp only [step] at stepped
  split at stepped
  next stage branch running =>
    split at stepped
    next f owned =>
      obtain ⟨effect, advanced, same⟩ := Option.map_eq_some_iff.mp stepped
      exact ⟨stage, branch, f, effect, running, owned, advanced, same.symm⟩
    next => cases stepped
  next => cases stepped

theorem step_idle {ended : Bool} (stepped : step tid s (.idle w ended) = some next) :
    (s.worker w).pc = .idle ∧
      next = { s.setWorker w { s.worker w with
        pc := .scan, idleOver := ended || (s.worker w).idleOver } with
          idleThreadCount := decr64 s.idleThreadCount } := by
  simp only [step] at stepped
  split at stepped
  next idling => exact ⟨idling, (Option.some.inj stepped).symm⟩
  next => cases stepped

end
end HpsSf.Scheduler
