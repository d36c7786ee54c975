import HpsSf.Scheduler.Programs

/-! How much is left to do, over all tasks.

A body that schedules finitely many others, and they again, has a finite cost. Every
step on a task lowers what is left of it. A step that lowers nothing is one of a
worker that has found no task: it scans, idles or leaves `run`.
-/

set_option autoImplicit false

namespace HpsSf.Scheduler
open Foundation

variable {n : Nat} {I : Type}

/-- No chain of bodies that schedule each other goes on forever. -/
def Terminating (prog : I → Program I) : Prop :=
  WellFounded fun j i => ∃ own, Instr.schedule j own ∈ (prog i).steps

/-- The steps that instructions still take, with those of the callbacks that they schedule. -/
def stepsCost (cost : I → Nat) : List (Instr I) → Nat
  | [] => 0
  | .yieldToReady :: rest => 9 + stepsCost cost rest
  | .schedule body _ :: rest => 10 + cost body + stepsCost cost rest

/-- A cost of bodies that is the cost of what they do. -/
def Priced (prog : I → Program I) (cost : I → Nat) : Prop := ∀ i, cost i = stepsCost cost (prog i).steps

theorem stepsCost_congr {first second : I → Nat} {steps : List (Instr I)}
    (same : ∀ j, (∃ own, Instr.schedule j own ∈ steps) → first j = second j) :
    stepsCost first steps = stepsCost second steps := by
  induction steps with
  | nil => rfl
  | cons instr rest ih =>
    have tail := ih fun j ⟨own, member⟩ => same j ⟨own, List.mem_cons_of_mem _ member⟩
    cases instr with
    | yieldToReady => rw [stepsCost, stepsCost, tail]
    | schedule body own => rw [stepsCost, stepsCost, tail, same body ⟨own, List.mem_cons_self ..⟩]

open Classical in
theorem Terminating.priced {prog : I → Program I} (terminating : Terminating prog) : ∃ cost, Priced prog cost := by
  -- the cost by recursion along what a body schedules
  let price (i : I) (known : ∀ j, (∃ own, Instr.schedule j own ∈ (prog i).steps) → Nat) : Nat :=
    stepsCost (fun j => if scheduled : _ then known j scheduled else 0) (prog i).steps
  refine ⟨terminating.fix price, fun i => ?_⟩
  rw [terminating.fix_eq]
  exact stepsCost_congr fun j scheduled => dif_pos scheduled

namespace Running

def left (cost : I → Nat) (cont : Option (Cont I)) : Nat := cont.elim 0 fun cont => stepsCost cost cont.2.steps

/-- The steps of a worker up to the end of its loop body, and what it puts back into the queue. -/
def taskLoad (prog : I → Program I) (cost : I → Nat) (s : Running n I) (w : Fin n) (f : FiberId) : Stage → Nat
  | .enter => 7 + left cost (s.target prog f)
  | .switch => 6 + left cost (s.target prog f)
  | .exec => 5 + left cost (s.control w)
  | .leave false => 13 + left cost (s.control w)
  | .leave true => 4
  | .back => if (s.state.heap f).state = .ready then 12 + left cost (s.saved f) else 3
  | .settle => if (s.state.heap f).state = .ready then 11 + left cost (s.saved f) else 2
  | .requeue => 10 + left cost (s.saved f)
  | .hold | .recycle => 1

def load (prog : I → Program I) (cost : I → Nat) (s : Running n I) (w : Fin n) : Nat :=
  match (s.state.worker w).pc with
  | .branch (some ft) => 8 + left cost (s.pending prog ft.task)
  | .task stage branch =>
      match (s.state.worker w).fiberOf branch with
      | some f => s.taskLoad prog cost w f stage
      | none => 1
  | .scan | .branch none | .idle | .exited => 0

def queueLoad (prog : I → Program I) (cost : I → Nat) (s : Running n I) (fibers : List Entry) : Nat :=
  (fibers.map fun ft => 9 + left cost (s.pending prog ft.task)).sum

def workload (prog : I → Program I) (cost : I → Nat) (s : Running n I) : Nat :=
  s.queueLoad prog cost s.state.fibers + tally (s.load prog cost)

end Running

/-- The worker is on no task. -/
def Pc.resting : Pc → Bool
  | .scan | .branch none | .idle | .exited => true
  | .branch (some _) | .task .. => false

theorem Pc.cases_of_resting {pc : Pc} (resting : pc.resting = true) :
    pc = .scan ∨ pc = .branch none ∨ pc = .idle ∨ pc = .exited := by
  cases pc with
  | branch ft => cases ft <;> simp_all [Pc.resting]
  | task => cases resting
  | _ => simp

theorem Pc.not_active_of_resting {pc : Pc} (resting : pc.resting = true) : pc.active = false := by
  rcases Pc.cases_of_resting resting with rfl | rfl | rfl | rfl <;> rfl

/-- The worker has left `run`, or is about to. -/
def Worker.gone (worker : Worker) : Bool :=
  match worker.pc with
  | .exited => true
  | .branch none => worker.idleOver
  | _ => false

namespace Running

/-- A step on a task. -/
structure Busy (prog : I → Program I) (cost : I → Nat) (tid : Fin n → Int) (s next : Running n I) (w : Fin n) :
    Prop where
  less : next.workload prog cost < s.workload prog cost
  worker : ∃ own, next.state.worker = Function.update s.state.worker w own ∧ own.gone = false ∧
    own.idleOver = (s.state.worker w).idleOver
  entries : ∀ ft ∈ next.state.fibers, ft ∈ s.state.fibers ∨ ft.thread = -1 ∨ ft.thread = tid w
  autoStop : next.state.autoStop = s.state.autoStop
  stopping : next.state.stopping = s.state.stopping

/-- The steps of a worker that has found no task. -/
inductive Idles (tid : Fin n → Int) (s : State n) (w : Fin n) : Worker → Prop where
  | scan : (s.worker w).pc = .scan → pick (tid w) (fun f => (s.heap f).state) s.fibers = none →
      Idles tid s w { s.worker w with pc := .branch none }
  | enter : (s.worker w).pc = .branch none → (s.worker w).idleOver = false →
      Idles tid s w { s.worker w with pc := .idle }
  | idle : (s.worker w).pc = .idle →
      Idles tid s w { s.worker w with pc := .scan, idleOver := s.verdict || (s.worker w).idleOver }
  | exit : (s.worker w).pc = .branch none → (s.worker w).idleOver = true →
      Idles tid s w { s.worker w with pc := .exited }

variable {prog : I → Program I} {cost : I → Nat} {tid : Fin n → Int} {s next : Running n I} {w : Fin n}

@[simp] theorem queueLoad_append (prog : I → Program I) (cost : I → Nat) (s : Running n I) (front rest : List Entry) :
    s.queueLoad prog cost (front ++ rest) = s.queueLoad prog cost front + s.queueLoad prog cost rest := by
  simp [queueLoad]

@[simp] theorem queueLoad_cons (prog : I → Program I) (cost : I → Nat) (s : Running n I) (ft : Entry)
    (rest : List Entry) : s.queueLoad prog cost (ft :: rest) =
      9 + left cost (s.pending prog ft.task) + s.queueLoad prog cost rest := by
  simp [queueLoad]

@[simp] theorem queueLoad_nil (prog : I → Program I) (cost : I → Nat) (s : Running n I) :
    s.queueLoad prog cost [] = 0 := rfl

theorem queueLoad_perm (prog : I → Program I) (cost : I → Nat) (s : Running n I) {front rest : List Entry}
    (perm : front.Perm rest) : s.queueLoad prog cost front = s.queueLoad prog cost rest :=
  (perm.map _).sum_eq

theorem Frame.queueLoad {own : Worker} (frame : Frame s next w own) (sound : s.Sound) (prog : I → Program I)
    (cost : I → Nat) :
    next.queueLoad prog cost s.state.fibers = s.queueLoad prog cost s.state.fibers := by
  refine congrArg List.sum (List.map_congr_left fun ft member => ?_)
  rw [frame.pending sound prog member]

/-- A callback that a fiber still carries has been given. -/
theorem Sound.carried (sound : s.Sound) {stage : Stage} {branch : Branch} {f : FiberId}
    (running : (s.state.worker w).pc = .task stage branch) (owned : (s.state.worker w).fiberOf branch = some f)
    {c : Callback} (carries : (s.state.heap f).carried = some c) : c < s.bodies.length :=
  sound.given (.inr ⟨w, by simp [Reading.hand, running, owned, Scheduler.carrying, carries]⟩)

/-- The context that a worker is going to switch to stays what it is. -/
theorem Sound.target_of_same (sound : s.Sound) (prog : I → Program I) {stage : Stage} {branch : Branch} {f : FiberId}
    (running : (s.state.worker w).pc = .task stage branch) (owned : (s.state.worker w).fiberOf branch = some f)
    (unended : (s.state.heap f).state.over = false) (bodies : ∃ more, next.bodies = s.bodies ++ more)
    (heap : next.state.heap f = s.state.heap f) (saved : next.saved f = s.saved f) :
    next.target prog f = s.target prog f := by
  obtain ⟨more, bodies⟩ := bodies
  rw [Running.target, Running.target, heap, saved]
  cases (s.state.heap f).context with
  | suspended | ended => rfl
  | fresh =>
    cases cb : (s.state.heap f).cb with
    | none => rfl
    | some c =>
      have old := sound.carried running owned (c := c) (by simp [Fiber.carried, unended, cb])
      simp [begins, bodies, List.getElem?_append_left old]

/-- A step of one worker leaves what the others have to do. -/
theorem Frame.load {own : Worker} (frame : Frame s next w own) (sound : s.Sound) (prog : I → Program I)
    (cost : I → Nat) {other : Fin n} (distinct : other ≠ w) :
    next.load prog cost other = s.load prog cost other := by
  have worker : next.state.worker other = s.state.worker other := by
    rw [frame.turn.worker, Function.update_of_ne distinct]
  have kept (f : FiberId) (present : 0 < (s.state.worker other).refs f) :
      next.state.heap f = s.state.heap f ∧ next.saved f = s.saved f :=
    have elsewhere : Elsewhere s.state w f := .inr ⟨other, distinct, present⟩
    ⟨(frame.turn.frame f elsewhere).of_pooled (sound.pooled_of_refs present), frame.saved f elsewhere⟩
  rw [Running.load, Running.load, worker]
  cases pc : (s.state.worker other).pc with
  | scan | idle | exited => rfl
  | branch ft =>
    match ft, pc with
    | none, _ => rfl
    | some ⟨.fiber f, thread⟩, pc => simp only [Running.pending, (kept f (by simp [Worker.refs, pc, Pc.refs])).2]
    | some ⟨.cb c, thread⟩, pc =>
      have old := sound.given (.inr ⟨other, by simp [Reading.hand, pc, Reading.entry]⟩) (c := c)
      obtain ⟨more, bodies⟩ := frame.bodies
      simp [Running.pending, begins, bodies, List.getElem?_append_left old]
  | task stage branch =>
    obtain ⟨f, owned⟩ := sound.owns other stage branch pc
    have on : StageOn s.state other f stage := ⟨branch, pc, owned⟩
    obtain ⟨heap, saved⟩ := kept f on.refs_pos
    have control := frame.control other distinct
    have target (unended : (s.state.heap f).state.over = false) : next.target prog f = s.target prog f :=
      sound.target_of_same prog pc owned unended frame.bodies heap saved
    have fits := sound.fits pc owned
    simp only [owned]
    cases stage with
    | enter =>
      obtain ⟨state, _⟩ := fits
      simp only [taskLoad, target (by rcases state with same | same <;> rw [same] <;> rfl)]
    | switch =>
      obtain ⟨state, _⟩ := fits
      simp only [taskLoad, target (by rw [state]; rfl)]
    | leave done => cases done <;> simp only [taskLoad, control]
    | exec => simp only [taskLoad, control]
    | back | settle | requeue => simp only [taskLoad, heap, saved]
    | hold | recycle => rfl

/-- The workload changes by what the worker and the queue gain or lose. -/
theorem Frame.workload {own : Worker} (frame : Frame s next w own) (sound : s.Sound) (prog : I → Program I)
    (cost : I → Nat) :
    next.workload prog cost + (s.queueLoad prog cost s.state.fibers + s.load prog cost w) =
      s.workload prog cost + (next.queueLoad prog cost next.state.fibers + next.load prog cost w) := by
  have change := tally_change (s.load prog cost) (next.load prog cost) w fun _ => frame.load sound prog cost
  rw [Running.workload, Running.workload]
  omega

/-! ## What one step does -/

/-- A step that has found no task. -/
def Rests (tid : Fin n → Int) (s next : Running n I) (w : Fin n) : Prop :=
  ∃ own count, Idles tid s.state w own ∧
    next = { s with state := { s.state.setWorker w own with idleThreadCount := count } }

/-- Without a change of the queue only the worker's own load counts. -/
theorem Frame.lower {own : Worker} (frame : Frame s next w own) (sound : s.Sound) (prog : I → Program I)
    (cost : I → Nat)
    (fibers : next.state.fibers = s.state.fibers) (less : next.load prog cost w < s.load prog cost w) :
    next.workload prog cost < s.workload prog cost := by
  have change := frame.workload sound prog cost
  have queue := frame.queueLoad sound prog cost
  rw [fibers] at change
  omega

/-- The worker goes on with a task, and leaves queue and flags alone. -/
theorem Frame.busy {self own : Worker} (frame : Frame s next w self) (sound : s.Sound) {stage : Stage} {branch : Branch}
    (worker : next.state.worker = Function.update s.state.worker w own) (task : own.pc = .task stage branch)
    (idleOver : own.idleOver = (s.state.worker w).idleOver) (fibers : next.state.fibers = s.state.fibers)
    (flags : next.state.autoStop = s.state.autoStop ∧ next.state.stopping = s.state.stopping)
    (less : next.load prog cost w < s.load prog cost w) : Busy prog cost tid s next w where
  less := frame.lower sound prog cost fibers less
  worker := ⟨own, worker, by simp [Worker.gone, task], idleOver⟩
  entries _ entry := .inl (fibers ▸ entry)
  autoStop := flags.1
  stopping := flags.2

theorem busy_apply {branch : Branch} {stage : Stage} {g : FiberId} {act : Act} {effect : Effect}
    (advanced : Scheduler.advance (s.state.heap g) branch stage act = some effect)
    (moved : next.state = s.state.apply (tid w) w branch g effect)
    (less : next.workload prog cost < s.workload prog cost) : Busy prog cost tid s next w := by
  refine ⟨less, ⟨(s.state.worker w).after branch effect, congrArg State.worker moved, ?_, rfl⟩, fun ft entry => ?_,
    by rw [moved]; rfl, by rw [moved]; rfl⟩
  · rcases advance_pc advanced with ⟨later, same, _⟩ | ⟨same, _⟩ <;> simp [Worker.gone, same]
  · rw [moved] at entry
    cases requeues : effect.requeues <;> simp [State.apply, scheduleNoLock, requeues] at entry
    · exact .inl entry
    · rcases entry with old | rfl
      · exact .inl old
      · exact .inr (.inl rfl)

theorem scan_kinds (sound : s.Sound) (pc : (s.state.worker w).pc = .scan) (stepped : s.work prog tid w = some next) :
    Busy prog cost tid s next w ∨ Rests tid s next w := by
  obtain ⟨own, frame⟩ := work_frame sound stepped
  have change := frame.workload sound prog cost
  have queue := frame.queueLoad sound prog cost
  obtain ⟨label, labelled, moved, same⟩ := work_step stepped
  simp only [Running.label, pc, Option.some.injEq] at labelled
  subst labelled
  simp only [note, pc] at same
  obtain ⟨_, ⟨ft, rest, picked, state⟩ | ⟨picked, state⟩⟩ := step_scan moved
  · left
    have perm := pick_perm picked
    have fibers : next.state.fibers = rest := congrArg State.fibers state
    have before : s.load prog cost w = 0 := by simp [Running.load, pc]
    have after : next.load prog cost w = 8 + left cost (next.pending prog ft.task) := by
      simp [Running.load, state, State.setWorker]
    -- the entry weighs one more in the queue than with the worker
    have fewer : next.queueLoad prog cost s.state.fibers =
        9 + left cost (next.pending prog ft.task) + next.queueLoad prog cost next.state.fibers := by
      rw [queueLoad_perm prog cost next perm, queueLoad_cons, fibers]
    refine ⟨by omega, ⟨{ s.state.worker w with pc := .branch (some ft) }, congrArg State.worker state, rfl, rfl⟩,
      fun other entry => .inl ?_, by rw [state]; rfl, by rw [state]; rfl⟩
    rw [fibers] at entry
    exact perm.mem_iff.mpr (List.mem_cons_of_mem _ entry)
  · right
    exact ⟨_, s.state.idleThreadCount, .scan pc picked, by rw [same, state]; rfl⟩

theorem branch_kinds (sound : s.Sound) {ft : Option Entry} (pc : (s.state.worker w).pc = .branch ft)
    (stepped : s.work prog tid w = some next) : Busy prog cost tid s next w ∨ Rests tid s next w := by
  obtain ⟨own, frame⟩ := work_frame sound stepped
  obtain ⟨label, labelled, moved, same⟩ := work_step stepped
  simp only [Running.label, pc, Option.some.injEq] at labelled
  subst labelled
  simp only [note, pc] at same
  obtain ⟨g, thread, branching, state⟩ | ⟨c, thread, g, branching, owned, _, state⟩ | ⟨c, thread, branching, _, state⟩ |
    ⟨branching, ⟨state, ended⟩ | ⟨state, unended⟩⟩ := step_branch moved
  · left
    have held : 0 < (s.state.worker w).refs g := by simp [Worker.refs, branching, Pc.refs]
    have parked := (sound.ledger.sound w).taken g thread branching (sound.pooled_of_refs held)
    refine frame.busy sound (congrArg State.worker state) rfl rfl (by rw [state]; rfl)
      ⟨by rw [state]; rfl, by rw [state]; rfl⟩ ?_
    rw [same, state]
    simp [Running.load, State.setWorker, Worker.fiberOf, taskLoad, target, parked.2.1, branching, pending]
  · left
    refine frame.busy sound (congrArg State.worker state) rfl rfl (by rw [state]; rfl)
      ⟨by rw [state]; rfl, by rw [state]; rfl⟩ ?_
    rw [same, state]
    simp [Running.load, State.setWorker, State.setFiber, Worker.fiberOf, owned, taskLoad, target, branching, pending,
      begins]
  · left
    refine frame.busy sound (congrArg State.worker state) rfl rfl (by rw [state]; rfl)
      ⟨by rw [state]; rfl, by rw [state]; rfl⟩ ?_
    rw [same, state]
    simp [Running.load, State.setWorker, State.setFiber, Fiber.create, Worker.fiberOf, taskLoad, target, branching,
      pending, begins]
  · exact .inr ⟨_, s.state.idleThreadCount, .exit branching ended, by rw [same, state]; rfl⟩
  · exact .inr ⟨_, _, .enter branching unended, by rw [same, state]⟩

theorem idle_kinds (pc : (s.state.worker w).pc = .idle) (stepped : s.work prog tid w = some next) :
    Rests tid s next w := by
  obtain ⟨label, labelled, moved, same⟩ := work_step stepped
  simp only [Running.label, pc, Option.some.injEq] at labelled
  subst labelled
  simp only [note, pc] at same
  obtain ⟨_, state⟩ := step_idle moved
  exact ⟨_, _, .idle pc, by rw [same, state]⟩

/-- What a step on a fiber outside of its body costs. -/
theorem task_lower (sound : s.Sound) (cost : I → Nat) {stage : Stage} {branch : Branch} {g : FiberId} {effect : Effect}
    (pc : (s.state.worker w).pc = .task stage branch) (owned : (s.state.worker w).fiberOf branch = some g)
    (advanced : Scheduler.advance (s.state.heap g) branch stage .proceed = some effect)
    (same : next = s.note prog w (s.state.apply (tid w) w branch g effect)) :
    next.queueLoad prog cost next.state.fibers + next.load prog cost w <
      next.queueLoad prog cost s.state.fibers + s.load prog cost w := by
  have fits := sound.fits pc owned
  cases stage with
  | enter =>
    rw [note_task pc rfl (by simp)] at same
    simp only [Scheduler.advance] at advanced
    split at advanced <;> cases advanced
    subst same
    simp [State.apply, Running.load, pc, owned, taskLoad, target, after_fiberOf, begins]
  | switch =>
    have after : next.state.fibers = s.state.fibers ∧ next.load prog cost w = 5 + left cost (s.target prog g) := by
      subst same
      rw [note_state]
      cases context : (s.state.heap g).context <;> simp only [Scheduler.advance, context] at advanced <;> cases advanced
      all_goals simp [State.apply, Running.load, note, pc, owned, taskLoad, after_fiberOf]
    have before : s.load prog cost w = 6 + left cost (s.target prog g) := by simp [Running.load, pc, owned, taskLoad]
    rw [after.1]
    omega
  | exec => cases advanced
  | leave done =>
    cases advanced
    subst same
    -- a yield has the way back into the queue before it
    cases done with
    | true =>
      rw [note_task pc rfl (by simp)]
      have ended : (s.state.heap g).state.over = true := fits
      have unready : (s.state.heap g).state ≠ .ready := by
        intro ready
        rw [ready] at ended
        cases ended
      simp [State.apply, Running.load, pc, owned, taskLoad, after_fiberOf, unready]
    | false =>
      simp [State.apply, Running.load, note, pc, owned, taskLoad, after_fiberOf, fits.1]
  | back =>
    rw [note_task pc rfl (by simp)] at same
    cases advanced
    subst same
    by_cases ready : (s.state.heap g).state = .ready
    all_goals simp [State.apply, Running.load, pc, owned, taskLoad, after_fiberOf, ready]
  | settle =>
    rw [note_task pc rfl (by simp)] at same
    cases state : (s.state.heap g).state <;> simp only [Scheduler.advance, state] at advanced
    case term | except =>
      cases branch <;> cases advanced <;> subst same
      all_goals simp [State.apply, Running.load, pc, owned, taskLoad, after_fiberOf, state]
    all_goals
      cases advanced
      subst same
      simp [State.apply, Running.load, pc, owned, taskLoad, after_fiberOf, state]
  | requeue =>
    rw [note_task pc rfl (by simp)] at same
    cases advanced
    subst same
    simp [State.apply, Running.load, pc, owned, taskLoad, scheduleNoLock, pending]
  | hold => cases fits
  | recycle =>
    rw [note_task pc rfl (by simp)] at same
    obtain ⟨fiber, _, rfl⟩ := Option.map_eq_some_iff.mp advanced
    subst same
    simp [State.apply, Running.load, pc, owned, taskLoad]

/-- A step of the body itself. -/
theorem exec_busy (sound : s.Sound) (priced : Priced prog cost) {branch : Branch}
    (pc : (s.state.worker w).pc = .task .exec branch) (stepped : s.work prog tid w = some next) :
    Busy prog cost tid s next w := by
  obtain ⟨own, frame⟩ := work_frame sound stepped
  have change := frame.workload sound prog cost
  have queue := frame.queueLoad sound prog cost
  obtain ⟨label, labelled, moved, same⟩ := work_step stepped
  obtain ⟨g, owned⟩ := sound.owns w .exec branch pc
  obtain ⟨c, ⟨steps, throws⟩, follows, cb⟩ := sound.control w g .exec ⟨branch, pc, owned⟩ rfl
  have before : s.load prog cost w = 5 + stepsCost cost steps := by
    simp [Running.load, pc, owned, taskLoad, follows, left]
  simp only [note, pc, follows] at same
  simp only [Running.label, pc, follows] at labelled
  cases steps with
  | cons instruction rest =>
    cases instruction with
    | schedule body own =>
      cases labelled
      obtain ⟨_, _, state⟩ := step_schedule moved
      have fibers : next.state.fibers = s.state.fibers ++ [⟨.cb s.bodies.length, if own then tid w else -1⟩] := by
        rw [state, State.accept, sound.bodies]
        rfl
      have worker : next.state.worker w = s.state.worker w := by rw [state, accept_worker]
      have given : next.pending prog (.cb s.bodies.length) = some (s.bodies.length, prog body) := by
        rw [same]
        simp [pending, begins]
      have after : next.load prog cost w = 5 + stepsCost cost rest := by
        rw [Running.load, worker, same]
        simp [pc, owned, taskLoad, left]
      -- the new entry weighs what the instruction did, less one
      have more : next.queueLoad prog cost next.state.fibers =
          s.queueLoad prog cost s.state.fibers + (9 + cost body) := by
        rw [fibers, queueLoad_append, queueLoad_cons, queueLoad_nil, given, queue, priced body]
        rfl
      rw [before, stepsCost, after, more] at change
      refine ⟨by omega, ⟨s.state.worker w, by rw [state, accept_worker, Function.update_eq_self],
          by simp [Worker.gone, pc], rfl⟩,
        fun ft entry => ?_, by rw [state]; rfl, by rw [state]; rfl⟩
      rw [fibers] at entry
      rcases List.mem_append.mp entry with old | added
      · exact .inl old
      · obtain rfl := List.mem_singleton.mp added
        cases own
        · exact .inr (.inl rfl)
        · exact .inr (.inr rfl)
    | yieldToReady =>
      cases labelled
      obtain ⟨_, _, g', effect, running, owned', advanced, state⟩ := step_task moved
      cases pc.symm.trans running
      cases owned.symm.trans owned'
      refine busy_apply advanced state ?_
      cases advanced
      refine frame.lower sound prog cost (by rw [state]; rfl) ?_
      rw [before, same, state]
      simp [State.apply, Running.load, after_fiberOf, owned, taskLoad, left, stepsCost]
      omega
  | nil =>
    cases labelled
    obtain ⟨_, _, g', effect, running, owned', advanced, state⟩ := step_task moved
    cases pc.symm.trans running
    cases owned.symm.trans owned'
    refine busy_apply advanced state ?_
    have ends : effect.pc = .task (.leave true) branch ∧ effect.requeues = false ∧ effect.releases = false := by
      cases throws <;> cases advanced <;> exact ⟨rfl, rfl, rfl⟩
    obtain ⟨pc', unqueued, kept⟩ := ends
    refine frame.lower sound prog cost (by rw [state]; simp [State.apply, unqueued]) ?_
    rw [before, same, state]
    simp [State.apply, Running.load, after_fiberOf kept, pc', owned, taskLoad, stepsCost]

theorem task_busy (sound : s.Sound) (priced : Priced prog cost) {stage : Stage} {branch : Branch}
    (pc : (s.state.worker w).pc = .task stage branch) (stepped : s.work prog tid w = some next) :
    Busy prog cost tid s next w := by
  by_cases body : stage = .exec
  · subst body
    exact exec_busy sound priced pc stepped
  · obtain ⟨own, frame⟩ := work_frame sound stepped
    have change := frame.workload sound prog cost
    have queue := frame.queueLoad sound prog cost
    obtain ⟨label, labelled, moved, same⟩ := work_step stepped
    cases (label_task pc body).symm.trans labelled
    obtain ⟨_, _, g, effect, running, owned, advanced, state⟩ := step_task moved
    cases pc.symm.trans running
    have lower := task_lower sound cost pc owned advanced (state ▸ same)
    exact busy_apply advanced state (by omega)

/-- A worker takes a step on a task, and less is left, or it has found none. -/
theorem work_kinds (sound : s.Sound) (priced : Priced prog cost) (stepped : s.work prog tid w = some next) :
    Busy prog cost tid s next w ∨ Rests tid s next w := by
  cases pc : (s.state.worker w).pc with
  | scan => exact scan_kinds sound pc stepped
  | branch ft => exact branch_kinds sound pc stepped
  | task stage branch => exact .inl (task_busy sound priced pc stepped)
  | idle => exact .inr (idle_kinds pc stepped)
  | exited =>
    obtain ⟨label, labelled, _⟩ := work_step stepped
    simp [Running.label, pc] at labelled

theorem Idles.resting {s : State n} {own : Worker} (idles : Idles tid s w own) :
    (s.worker w).pc.resting = true ∧ own.pc.resting = true := by
  cases idles <;> simp_all [Pc.resting]

/-- A worker has something to do exactly as long as it is on a task. -/
theorem load_eq_zero_iff (sound : s.Sound) (prog : I → Program I) (cost : I → Nat) :
    s.load prog cost w = 0 ↔ (s.state.worker w).pc.resting = true := by
  rw [Running.load]
  cases pc : (s.state.worker w).pc with
  | scan | idle | exited => simp [Pc.resting]
  | branch ft => cases ft <;> simp [Pc.resting]
  | task stage branch =>
    obtain ⟨f, owned⟩ := sound.owns w stage branch pc
    have positive : 0 < s.taskLoad prog cost w f stage := by
      unfold taskLoad
      repeat' split
      all_goals omega
    simp only [owned, Pc.resting]
    exact iff_of_false (Nat.ne_of_gt positive) nofun

theorem Rests.load (sound : s.Sound) (rests : Rests tid s next w) (stepped : s.work prog tid w = some next)
    (cost : I → Nat) (other : Fin n) : next.load prog cost other = s.load prog cost other := by
  have kept := work_sound sound stepped
  obtain ⟨_, frame⟩ := work_frame sound stepped
  rcases eq_or_ne other w with rfl | distinct
  · obtain ⟨own, count, idles, rfl⟩ := rests
    rw [(load_eq_zero_iff sound prog cost).mpr idles.resting.1, load_eq_zero_iff kept]
    simpa [State.setWorker] using idles.resting.2
  · exact frame.load sound prog cost distinct

theorem Rests.workload (sound : s.Sound) (rests : Rests tid s next w) (stepped : s.work prog tid w = some next)
    (cost : I → Nat) : next.workload prog cost = s.workload prog cost := by
  have loads := tally_congr (rests.load sound stepped cost)
  obtain ⟨own, frame⟩ := work_frame sound stepped
  have queue := frame.queueLoad sound prog cost
  obtain ⟨own, count, idles, rfl⟩ := rests
  rw [Running.workload, Running.workload, loads]
  exact congrArg (· + _) queue

end Running
end HpsSf.Scheduler
