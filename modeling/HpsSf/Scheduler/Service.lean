import HpsSf.Scheduler.Cycling
import HpsSf.Scheduler.Fifo

/-! Every callback that some worker may still take is run to its end.

Other threads go on scheduling, bodies schedule more of them, and the scheduler may
be stopped meanwhile. While a callback waits, a worker that may take it comes back to
the queue, and takes it or an entry before it. While it is with a worker, less is left
of it with every step, and a yield puts it back with less to do.
-/

set_option autoImplicit false

namespace HpsSf.Scheduler
open Foundation

variable {n : Nat} {I : Type}

/-- A step of a worker, or of a thread that is none. -/
inductive Move (n : Nat) (I : Type) where
  | give (body : I) (thread : Int)
  | setAutoStop
  | setStopping
  | work (w : Fin n)

def Move.actor : Move n I → Option (Fin n)
  | .work w => some w
  | .give .. | .setAutoStop | .setStopping => none

namespace Running

def move (prog : I → Program I) (tid : Fin n → Int) (s : Running n I) : Move n I → Option (Running n I)
  | .give body thread => some (s.give body thread)
  | .setAutoStop => some { s with state := { s.state with autoStop := true } }
  | .setStopping => some { s with state := { s.state with stopping := true } }
  | .work w => s.work prog tid w

def service (prog : I → Program I) (tid : Fin n → Int) : System (Running n I) (Move n I) where
  start s := s = initial n I
  step := move prog tid

/-- The steps that a worker takes up to the end of its task. -/
abbrev ahead (prog : I → Program I) (s : Running n I) (w : Fin n) : Nat := s.load prog (fun _ => 0) w

/-- What a queue entry is worth: the steps up to the end of the task, by the worker that takes it. -/
def worth (prog : I → Program I) (s : Running n I) (ft : Entry) : Nat :=
  9 + left (fun _ => 0) (s.pending prog ft.task)

/-- The steps of a worker up to its next scan. -/
def away (prog : I → Program I) (s : Running n I) (w : Fin n) : Nat :=
  s.ahead prog w + Cycle.toScan (s.state.worker w)

variable {prog : I → Program I} {tid : Fin n → Int} {s next : Running n I} {w : Fin n} {c : Callback}

/-! ## The step of a worker on its task -/

theorem branch_ahead (sound : s.Sound) {ft : Entry} (pc : (s.state.worker w).pc = .branch (some ft))
    (stepped : s.work prog tid w = some next) :
    next.state.fibers = s.state.fibers ∧ next.ahead prog w < s.ahead prog w ∧
      (∃ branch, (next.state.worker w).pc = .task .enter branch) ∧
        carrying.hand next.state.heap (next.state.worker w) = carrying.entry s.state.heap ft.task := by
  obtain ⟨own, frame⟩ := work_frame sound stepped
  have change := frame.workload sound prog fun _ => 0
  have queue := frame.queueLoad sound prog fun _ => 0
  have kinds : Busy prog (fun _ => 0) tid s next w ∨ Rests tid s next w := branch_kinds sound pc stepped
  obtain ⟨label, labelled, moved, -⟩ := work_step stepped
  simp only [Running.label, pc, Option.some.injEq] at labelled
  subst labelled
  have kept : next.state.fibers = s.state.fibers ∧ (∃ branch, (next.state.worker w).pc = .task .enter branch) ∧
      carrying.hand next.state.heap (next.state.worker w) = carrying.entry s.state.heap ft.task := by
    obtain ⟨g, thread, branching, state⟩ | ⟨c, thread, g, branching, owned, -, state⟩ |
      ⟨c, thread, branching, -, state⟩ | ⟨branching, -⟩ := step_branch moved
    all_goals cases pc.symm.trans branching
    all_goals
      refine ⟨by rw [state]; rfl, by simp [state, State.setWorker], ?_⟩
      simp [State.setWorker, State.setFiber, Fiber.create, Reading.hand, Reading.entry, Worker.fiberOf, carrying,
        Fiber.carried, Fiber.State.over, *]
  refine ⟨kept.1, ?_, kept.2⟩
  rcases kinds with busy | ⟨own, count, idles, -⟩
  · have less := busy.less
    rw [kept.1] at change
    unfold ahead
    omega
  · have resting := idles.resting.1
    rw [pc] at resting
    cases resting

theorem exec_ahead (sound : s.Sound) {branch : Branch} (pc : (s.state.worker w).pc = .task .exec branch)
    (stepped : s.work prog tid w = some next) : next.ahead prog w < s.ahead prog w := by
  obtain ⟨label, labelled, moved, same⟩ := work_step stepped
  obtain ⟨g, owned⟩ := sound.owns w .exec branch pc
  obtain ⟨c, ⟨steps, throws⟩, follows, cb⟩ := sound.control w g .exec ⟨branch, pc, owned⟩ rfl
  have before : s.ahead prog w = 5 + stepsCost (fun _ => 0) steps := by
    simp [Running.load, pc, owned, taskLoad, follows, left]
  rw [before]
  simp only [note, pc, follows] at same
  simp only [Running.label, pc, follows] at labelled
  cases steps with
  | cons instruction rest =>
    cases instruction with
    | schedule body own =>
      cases labelled
      obtain ⟨_, _, state⟩ := step_schedule moved
      have worker : next.state.worker w = s.state.worker w := by rw [state, accept_worker]
      rw [ahead, Running.load, worker, same]
      simp [pc, owned, taskLoad, left, stepsCost]
    | yieldToReady =>
      cases labelled
      obtain ⟨_, _, g', effect, running, owned', advanced, state⟩ := step_task moved
      cases pc.symm.trans running
      cases owned.symm.trans owned'
      cases advanced
      rw [same, state]
      simp [State.apply, Running.load, after_fiberOf, owned, taskLoad, left, stepsCost]
      omega
  | nil =>
    cases labelled
    obtain ⟨_, _, g', effect, running, owned', advanced, state⟩ := step_task moved
    cases pc.symm.trans running
    cases owned.symm.trans owned'
    have ends : effect.pc = .task (.leave true) branch ∧ effect.releases = false := by
      cases throws <;> cases advanced <;> exact ⟨rfl, rfl⟩
    rw [same, state]
    simp [State.apply, Running.load, after_fiberOf ends.2, ends.1, owned, taskLoad, stepsCost]

/-- Outside of a body the task stays with the worker, or goes into the queue, with less left. -/
theorem task_ahead (sound : s.Sound) {stage : Stage} {branch : Branch} {g : FiberId} {effect : Effect}
    (pc : (s.state.worker w).pc = .task stage branch) (owned : (s.state.worker w).fiberOf branch = some g)
    (advanced : Scheduler.advance (s.state.heap g) branch stage .proceed = some effect)
    (stepped : s.work prog tid w = some next)
    (state : next.state = s.state.apply (tid w) w branch g effect) :
    next.ahead prog w < s.ahead prog w ∧
      (effect.requeues = true → next.worth prog ⟨.fiber g, -1⟩ < s.ahead prog w) := by
  obtain ⟨_, _, _, same⟩ := work_step stepped
  obtain ⟨own, frame⟩ := work_frame sound stepped
  unfold ahead
  have traded := task_lower sound (fun _ => 0) pc owned advanced (state ▸ same)
  have queue := frame.queueLoad sound prog fun _ => 0
  cases requeues : effect.requeues with
  | false =>
    have fibers : next.state.fibers = s.state.fibers := by simp [state, State.apply, requeues]
    rw [fibers] at traded
    exact ⟨by omega, fun impossible => by cases impossible⟩
  | true =>
    have fibers : next.state.fibers = s.state.fibers ++ [⟨.fiber g, -1⟩] := by
      simp [state, State.apply, requeues, scheduleNoLock]
    rw [fibers, queueLoad_append, queueLoad_cons, queueLoad_nil] at traded
    rw [worth]
    exact ⟨by omega, fun _ => by omega⟩

/-- A worker on a task takes a step on its fiber, or the body schedules. -/
theorem task_label {stage : Stage} {branch : Branch} {label : Label n}
    (pc : (s.state.worker w).pc = .task stage branch) (labelled : s.label tid w = some label) :
    (∃ thread, label = .schedule (some w) .callback thread) ∨ ∃ act, label = .task w act := by
  by_cases body : stage = .exec
  · subst body
    simp only [Running.label, pc] at labelled
    split at labelled <;> cases labelled <;> simp
  · cases (label_task pc body).symm.trans labelled
    exact .inr ⟨.proceed, rfl⟩

/-- Where the callback of a worker is behind its step on the fiber that runs it. -/
theorem task_keeps (sound : s.Sound) (held : carrying.hand s.state.heap (s.state.worker w) = some c)
    {stage : Stage} {branch : Branch} {g : FiberId} {act : Act} {effect : Effect}
    (yields : act ≠ .yieldToHold) (pc : (s.state.worker w).pc = .task stage branch)
    (owned : (s.state.worker w).fiberOf branch = some g)
    (advanced : Scheduler.advance (s.state.heap g) branch stage act = some effect)
    (state : next.state = s.state.apply (tid w) w branch g effect) :
    c ∈ next.state.finished ∨
      (effect.requeues = false ∧ carrying.hand next.state.heap (next.state.worker w) = some c) ∨
      (effect.requeues = true ∧ next.state.fibers = s.state.fibers ++ [⟨.fiber g, -1⟩] ∧
        carrying.entry next.state.heap (.fiber g) = some c ∧ (next.state.worker w).pc = .scan) := by
  have after : carrying.hand (s.state.apply (tid w) w branch g effect).heap ((s.state.worker w).after branch effect) =
      if effect.requeues then none else carrying.after effect := carrying.hand_after owned advanced
  have own : next.state.worker w = (s.state.worker w).after branch effect := by simp [state, State.apply]
  rw [← state, ← own] at after
  obtain ⟨-, kept⟩ | ⟨logged, -⟩ := carrying_lawful.exchange sound.ledger yields pc owned advanced
  · right
    rw [held] at kept
    rw [kept] at after
    cases requeues : effect.requeues with
    | false => exact .inl ⟨rfl, by simpa [requeues] using after⟩
    | true =>
      refine .inr ⟨rfl, by simp [state, State.apply, requeues, scheduleNoLock], ?_, ?_⟩
      · rw [Reading.after, if_pos requeues] at kept
        simpa [Reading.entry, state, State.apply] using kept
      · obtain ⟨later, -, -, unqueued⟩ | ⟨scans, -⟩ := advance_pc advanced
        · cases unqueued.symm.trans requeues
        · rw [own]
          exact scans
  · left
    rw [held] at logged
    have finished : effect.finished = some c := logged
    rw [state]
    simp [State.apply, finished]

/-- The step of the worker that has a callback ends it, keeps it with less left, or puts
it back into the queue with less left. -/
theorem held_step (sound : s.Sound) (held : carrying.hand s.state.heap (s.state.worker w) = some c)
    (stepped : s.work prog tid w = some next) :
    c ∈ next.state.finished ∨
      (carrying.hand next.state.heap (next.state.worker w) = some c ∧ next.ahead prog w < s.ahead prog w) ∨
      ∃ g, next.state.fibers = s.state.fibers ++ [⟨.fiber g, -1⟩] ∧
        carrying.entry next.state.heap (.fiber g) = some c ∧ (next.state.worker w).pc = .scan ∧
        next.worth prog ⟨.fiber g, -1⟩ < s.ahead prog w := by
  cases pc : (s.state.worker w).pc with
  | scan | idle | exited => simp [Reading.hand, pc] at held
  | branch ft =>
    cases ft with
    | none => simp [Reading.hand, pc] at held
    | some ft =>
      obtain ⟨-, less, -, kept⟩ := branch_ahead sound pc stepped
      have entry : carrying.entry s.state.heap ft.task = some c := by simpa [Reading.hand, pc] using held
      exact .inr (.inl ⟨kept.trans entry, less⟩)
  | task stage branch =>
    obtain ⟨label, labelled, moved, -⟩ := work_step stepped
    have yields := (label_yields labelled).suspends
    by_cases body : stage = .exec
    · -- In the body nothing is put back into the queue yet.
      subst body
      have less := exec_ahead sound pc stepped
      obtain ⟨thread, rfl⟩ | ⟨act, rfl⟩ := task_label pc labelled
      · obtain ⟨-, -, state⟩ := step_schedule moved
        rw [← accept_worker s.state thread .callback, ← accept_heap s.state thread .callback, ← state] at held
        exact .inr (.inl ⟨held, less⟩)
      · obtain ⟨_, _, g, effect, running, owned, advanced, state⟩ := step_task moved
        cases pc.symm.trans running
        have inside : effect.requeues = false := by
          cases act <;> cases advanced <;> rfl
        obtain finished | ⟨-, kept⟩ | ⟨requeues, -⟩ :=
          task_keeps sound held (fun hold => yields w (by rw [hold])) pc owned advanced state
        · exact .inl finished
        · exact .inr (.inl ⟨kept, less⟩)
        · cases inside.symm.trans requeues
    · cases (label_task pc body).symm.trans labelled
      obtain ⟨_, _, g, effect, running, owned, advanced, state⟩ := step_task moved
      cases pc.symm.trans running
      obtain ⟨less, worth⟩ := task_ahead sound pc owned advanced stepped state
      obtain finished | ⟨-, kept⟩ | ⟨requeues, fibers, entry, scans⟩ :=
        task_keeps sound held (by simp) pc owned advanced state
      · exact .inl finished
      · exact .inr (.inl ⟨kept, less⟩)
      · exact .inr (.inr ⟨g, fibers, entry, scans, worth requeues⟩)

/-- A worker that stays comes nearer to its next scan. -/
theorem nears (sound : s.Sound) (stays : (s.state.worker w).gone = false)
    (elsewhere : (s.state.worker w).pc ≠ .scan) (stepped : s.work prog tid w = some next) :
    (next.state.worker w).gone = false ∧ next.away prog w < s.away prog w := by
  obtain ⟨label, labelled, moved, -⟩ := work_step stepped
  cases pc : (s.state.worker w).pc with
  | scan => exact absurd pc elsewhere
  | exited => simp [Worker.gone, pc] at stays
  | idle =>
    simp only [Running.label, pc, Option.some.injEq] at labelled
    subst labelled
    obtain ⟨-, state⟩ := step_idle moved
    simp [away, ahead, Running.load, state, State.setWorker, Worker.gone, Cycle.toScan, pc]
  | branch ft =>
    cases ft with
    | none =>
      simp only [Running.label, pc, Option.some.injEq] at labelled
      subst labelled
      have unended : (s.state.worker w).idleOver = false := by simpa [Worker.gone, pc] using stays
      obtain ⟨_, _, here, -⟩ | ⟨_, _, _, here, -⟩ | ⟨_, _, here, -⟩ | ⟨-, ⟨-, ended⟩ | ⟨state, -⟩⟩ := step_branch moved
      case inr.inr.inr.inr =>
        simp [away, ahead, Running.load, state, State.setWorker, Worker.gone, Cycle.toScan, pc]
      case inr.inr.inr.inl => cases unended.symm.trans ended
      all_goals cases pc.symm.trans here
    | some ft =>
      obtain ⟨-, less, ⟨branch, enters⟩, -⟩ := branch_ahead sound pc stepped
      refine ⟨by simp [Worker.gone, enters], ?_⟩
      simpa [away, Cycle.toScan, enters, pc] using less
  | task stage branch =>
    have less : next.ahead prog w < s.ahead prog w := by
      by_cases body : stage = .exec
      · subst body
        exact exec_ahead sound pc stepped
      · cases (label_task pc body).symm.trans labelled
        obtain ⟨_, _, g, effect, running, owned, advanced, state⟩ := step_task moved
        cases pc.symm.trans running
        exact (task_ahead sound pc owned advanced stepped state).1
    have goes : (∃ stage branch, (next.state.worker w).pc = .task stage branch) ∨ (next.state.worker w).pc = .scan := by
      obtain ⟨thread, rfl⟩ | ⟨act, rfl⟩ := task_label pc labelled
      · obtain ⟨-, -, state⟩ := step_schedule moved
        rw [state, accept_worker]
        exact .inl ⟨stage, branch, pc⟩
      · obtain ⟨_, _, g, effect, -, -, advanced, state⟩ := step_task moved
        have own : (next.state.worker w).pc = effect.pc := by simp [state, State.apply]
        rw [own]
        obtain ⟨later, same, -⟩ | ⟨same, -⟩ := advance_pc advanced
        · exact .inl ⟨later, _, same⟩
        · exact .inr same
    refine ⟨by rcases goes with ⟨_, _, goes⟩ | goes <;> simp [Worker.gone, goes], ?_⟩
    rcases goes with ⟨_, _, goes⟩ | goes <;> simpa [away, Cycle.toScan, goes, pc] using less

end Running

/-! ## What waits in the queue -/

/-- An entry is taken by a scan, or stays behind no more entries than before; if they are
as many as before, a scan has stepped over it. -/
theorem step_entry {tid : Fin n → Int} {s next : State n} {label : Label n}
    (stepped : step tid s label = some next) {it : Entry} {front rest : List Entry}
    (waits : s.fibers = front ++ it :: rest) :
    (∃ w, label = .scan w ∧ it.skipped (tid w) (fun f => (s.heap f).state) = false ∧
        next.heap = s.heap ∧ (next.worker w).pc = .branch (some it)) ∨
      ∃ fewer behind, next.fibers = fewer ++ it :: behind ∧ (fewer.length < front.length ∨
        fewer.length = front.length ∧
          ∀ w, label = .scan w → it.skipped (tid w) (fun f => (s.heap f).state) = true) := by
  by_cases scans : ∃ w, label = .scan w
  · obtain ⟨w, rfl⟩ := scans
    obtain ⟨-, ⟨ft, left, picked, rfl⟩ | ⟨nothing, rfl⟩⟩ := step_scan stepped
    · have taken := (pick_eq_some picked).1
      rw [waits] at picked
      obtain ⟨rfl, -⟩ | ⟨fewer, shorter, left⟩ | ⟨skipped, behind, left⟩ := pick_around picked
      · exact .inl ⟨w, rfl, taken, rfl, by simp [State.setWorker]⟩
      · exact .inr ⟨fewer, rest, left, .inl shorter⟩
      · refine .inr ⟨front, behind, left, .inr ⟨rfl, fun other same => ?_⟩⟩
        cases same
        exact skipped
    · refine .inr ⟨front, rest, waits, .inr ⟨rfl, fun other same => ?_⟩⟩
      cases same
      exact skipped_of_pick_eq_none nothing it (by simp [waits])
  · have other : ∀ w, label ≠ .scan w := fun w same => scans ⟨w, same⟩
    obtain ⟨added, fibers, -⟩ := step_grows stepped other
    exact .inr ⟨front, rest ++ added, by rw [fibers, waits, List.append_assoc, List.cons_append],
      .inr ⟨rfl, fun w same => absurd same (other w)⟩⟩

namespace Running
variable {prog : I → Program I} {tid : Fin n → Int} {s next : Running n I} {w : Fin n} {c : Callback}

/-- A step of a thread that is no worker. -/
structure Calm (s next : Running n I) : Prop where
  worker : next.state.worker = s.state.worker
  heap : next.state.heap = s.state.heap
  finished : next.state.finished = s.state.finished
  saved : next.saved = s.saved
  control : next.control = s.control
  bodies : ∃ more, next.bodies = s.bodies ++ more
  fibers : ∃ added, next.state.fibers = s.state.fibers ++ added

theorem move_cases {m : Move n I} (sound : s.Sound) (stepped : s.move prog tid m = some next) : next.Sound ∧
    (m.actor = none ∧ Calm s next ∨ ∃ w, m = .work w ∧ s.work prog tid w = some next) := by
  cases m with
  | give body thread =>
    cases stepped
    exact ⟨give_sound sound body thread, .inl ⟨rfl, rfl, rfl, rfl, rfl, rfl, ⟨_, rfl⟩, ⟨_, rfl⟩⟩⟩
  | setAutoStop | setStopping =>
    cases stepped
    exact ⟨flags_sound sound _ _, .inl ⟨rfl, rfl, rfl, rfl, rfl, rfl, ⟨[], by simp⟩, ⟨[], by simp⟩⟩⟩
  | work w => exact ⟨work_sound sound stepped, .inr ⟨w, rfl, stepped⟩⟩

theorem Calm.ahead (calm : Calm s next) (sound : s.Sound) (prog : I → Program I) (w : Fin n) :
    next.ahead prog w = s.ahead prog w := by
  obtain ⟨more, bodies⟩ := calm.bodies
  unfold Running.ahead Running.load
  rw [calm.worker]
  cases pc : (s.state.worker w).pc with
  | scan | idle | exited => rfl
  | branch ft =>
    match ft, pc with
    | none, _ => rfl
    | some ⟨.fiber f, thread⟩, pc => simp only [Running.pending, calm.saved]
    | some ⟨.cb c, thread⟩, pc =>
      have old := sound.given (.inr ⟨w, by simp [Reading.hand, pc, Reading.entry]⟩) (c := c)
      simp [Running.pending, begins, bodies, List.getElem?_append_left old]
  | task stage branch =>
    obtain ⟨f, owned⟩ := sound.owns w stage branch pc
    have target (unended : (s.state.heap f).state.over = false) : next.target prog f = s.target prog f :=
      sound.target_of_same prog pc owned unended calm.bodies (by rw [calm.heap]) (by rw [calm.saved])
    have fits := sound.fits pc owned
    simp only [owned]
    cases stage with
    | enter =>
      obtain ⟨state, _⟩ := fits
      simp only [taskLoad, target (by rcases state with same | same <;> rw [same] <;> rfl)]
    | switch =>
      obtain ⟨state, _⟩ := fits
      simp only [taskLoad, target (by rw [state]; rfl)]
    | leave done => cases done <;> simp only [taskLoad, calm.control]
    | exec => simp only [taskLoad, calm.control]
    | back | settle | requeue => simp only [taskLoad, calm.heap, calm.saved]
    | hold | recycle => rfl

/-- What an entry carries is the same behind the step of a worker, whether or not it takes the entry. -/
theorem entry_kept {own : Worker} (frame : Frame s next w own) {ft : Entry} (member : ft ∈ s.state.fibers) :
    carrying.entry next.state.heap ft.task = carrying.entry s.state.heap ft.task :=
  Reading.entry_of_alike carrying_lawful (n := n) fun f task =>
    frame.turn.frame f (.inl (List.countP_pos_iff.mpr ⟨ft, member, by simp [task]⟩))

theorem others_stand {own : Worker} (frame : Frame s next w own) {v : Fin n} (distinct : w ≠ v) :
    next.state.worker v = s.state.worker v := by
  rw [frame.turn.worker, Function.update_of_ne distinct.symm]

/-- A callback that is not finished, how much is left of it, and the worker that brings it on:
the one that has it, or one that may take it and has not left `run`. -/
inductive Due (prog : I → Program I) (tid : Fin n → Int) (c : Callback) (s : Running n I) :
    Nat ×ₗ Nat ×ₗ Nat → Fin n → Prop where
  | held {w : Fin n} : carrying.hand s.state.heap (s.state.worker w) = some c →
      Due prog tid c s (toLex (s.ahead prog w, toLex (0, 0))) w
  | waits {w : Fin n} {ft : Entry} {front rest : List Entry} : s.state.fibers = front ++ ft :: rest →
      carrying.entry s.state.heap ft.task = some c → ft.For (tid w) → (s.state.worker w).gone = false →
      Due prog tid c s (toLex (s.worth prog ft, toLex (front.length, s.away prog w))) w

theorem Due.able {rank : Nat ×ₗ Nat ×ₗ Nat} (due : Due prog tid c s rank w) (sound : s.Sound) :
    ∃ next, s.work prog tid w = some next := by
  refine work_able sound prog tid fun exited => ?_
  cases due with
  | held held => simp [Reading.hand, exited] at held
  | waits _ _ _ stays => simp [Worker.gone, exited] at stays

theorem Due.calm {rank : Nat ×ₗ Nat ×ₗ Nat} (due : Due prog tid c s rank w) (sound : s.Sound)
    (calm : Calm s next) :
    Due prog tid c next rank w := by
  cases due with
  | held held =>
    rw [← calm.ahead sound prog w]
    exact .held (by rw [calm.heap, calm.worker]; exact held)
  | @waits w ft front rest waits entry its stays =>
    obtain ⟨added, fibers⟩ := calm.fibers
    have pending := sound.pending prog calm.bodies (show ft ∈ s.state.fibers by simp [waits]) fun f _ => by
      rw [calm.saved]
    have away : next.away prog w = s.away prog w := by rw [Running.away, calm.ahead sound prog w, calm.worker]; rfl
    rw [← away, Running.worth, ← pending]
    exact .waits (by rw [fibers, waits, List.append_assoc, List.cons_append]) (by rw [calm.heap]; exact entry) its
      (by rw [calm.worker]; exact stays)

/-- Only a worker before its scan scans. -/
theorem label_scan {w v : Fin n} (labelled : s.label tid v = some (.scan w)) :
    w = v ∧ (s.state.worker v).pc = .scan := by
  unfold Running.label at labelled
  split at labelled
  case h_1 scans =>
    cases labelled
    exact ⟨rfl, scans⟩
  case h_3 =>
    split at labelled
    case h_3 => split at labelled <;> cases labelled
    all_goals cases labelled
  all_goals cases labelled

/-- As long as there is an entry for it, a worker does not leave `run`. -/
theorem stays_step (sound : s.Sound) {ft : Entry} (entry : ft ∈ s.state.fibers) (its : ft.For (tid w))
    (stays : (s.state.worker w).gone = false) {v : Fin n} (stepped : s.work prog tid v = some next) :
    (next.state.worker w).gone = false := by
  obtain ⟨own, frame⟩ := work_frame sound stepped
  rcases eq_or_ne v w with rfl | distinct
  · by_cases scans : (s.state.worker v).pc = .scan
    · obtain ⟨label, labelled, moved, -⟩ := work_step stepped
      simp only [Running.label, scans, Option.some.injEq] at labelled
      subst labelled
      obtain ⟨-, ⟨other, left, -, state⟩ | ⟨nothing, -⟩⟩ := step_scan moved
      · simp [state, State.setWorker, Worker.gone]
      · have skipped := skipped_of_pick_eq_none nothing ft entry
        rw [sound.unskipped entry its] at skipped
        cases skipped
    · exact (nears sound stays scans stepped).1
  · rw [others_stand frame distinct]
    exact stays

theorem Due.work {rank : Nat ×ₗ Nat ×ₗ Nat} (due : Due prog tid c s rank w) (sound : s.Sound) {v : Fin n}
    (stepped : s.work prog tid v = some next) :
    c ∈ next.state.finished ∨ (∃ lower < rank, ∃ other, Due prog tid c next lower other) ∨
      Due prog tid c next rank w ∧ v ≠ w := by
  obtain ⟨own, frame⟩ := work_frame sound stepped
  cases due with
  | held held =>
    -- Only the worker that has it moves it on.
    rcases eq_or_ne v w with rfl | distinct
    · obtain finished | ⟨kept, less⟩ | ⟨g, fibers, entry, scans, worth⟩ := held_step sound held stepped
      · exact .inl finished
      · exact .inr (.inl ⟨_, Prod.Lex.left _ _ less, _, .held kept⟩)
      · exact .inr (.inl ⟨_, Prod.Lex.left _ _ worth, v, .waits fibers entry (.inl rfl) (by simp [Worker.gone, scans])⟩)
    · refine .inr (.inr ⟨?_, distinct⟩)
      rw [show s.ahead prog w = next.ahead prog w from (frame.load sound prog _ distinct.symm).symm]
      refine .held ?_
      rw [others_stand frame distinct, Reading.hand_of_alike carrying_lawful (n := n)
        fun f present => frame.turn.frame f (.inr ⟨w, distinct.symm, present⟩)]
      exact held
  | @waits w ft front rest waits entry its stays =>
    have member : ft ∈ s.state.fibers := by simp [waits]
    have later : next.worth prog ft = s.worth prog ft := by rw [worth, frame.pending sound prog member, worth]
    obtain ⟨label, labelled, moved, -⟩ := work_step stepped
    obtain ⟨taker, rfl, -, heap, takes⟩ | ⟨fewer, behind, waits', fewer_or⟩ := step_entry moved waits
    · -- A worker has taken it.
      obtain ⟨rfl, -⟩ := label_scan labelled
      have less : next.ahead prog taker < s.worth prog ft := by
        rw [← later, ahead, Running.load, takes, worth]
        exact Nat.add_lt_add_right (Nat.lt_succ_self 8) _
      refine .inr (.inl ⟨_, Prod.Lex.left _ _ less, taker, .held ?_⟩)
      simp only [Reading.hand, takes, heap]
      exact entry
    have entry' : carrying.entry next.state.heap ft.task = some c := (entry_kept frame member).trans entry
    have due : Due prog tid c next (toLex (s.worth prog ft, toLex (fewer.length, next.away prog w))) w :=
      later ▸ .waits waits' entry' its (stays_step sound member its stays stepped)
    -- The entry is still there: a shorter way to it, or the worker that it waits for comes nearer to its scan.
    obtain shorter | ⟨same, skips⟩ := fewer_or
    · exact .inr (.inl ⟨_, Prod.Lex.right _ (Prod.Lex.left _ _ shorter), w, due⟩)
    rw [same] at due
    rcases eq_or_ne v w with rfl | distinct
    · have elsewhere : (s.state.worker v).pc ≠ .scan := by
        intro scans
        simp only [Running.label, scans, Option.some.injEq] at labelled
        have skipped := skips v labelled.symm
        rw [sound.unskipped member its] at skipped
        cases skipped
      have nearer := (nears sound stays elsewhere stepped).2
      exact .inr (.inl ⟨_, Prod.Lex.right _ (Prod.Lex.right _ nearer), v, due⟩)
    · have away : next.away prog w = s.away prog w := by
        rw [Running.away, Running.away, ahead, frame.load sound prog _ distinct.symm, others_stand frame distinct]
      exact .inr (.inr ⟨away ▸ due, distinct⟩)

/-! ## Runs -/

theorem sound_of_reaches {allowed : Running n I → Move n I → Prop}
    (reached : (service prog tid).Reaches allowed s) :
    s.Sound := by
  refine reached.invariant (fun s begins => ?_) fun s m next sound _ stepped => ?_
  · rw [show s = initial n I from begins]
    exact sound_initial
  · have moved : s.move prog tid m = some next := stepped
    exact (move_cases sound moved).1

theorem service_drives (prog : I → Program I) (tid : Fin n → Int) (allowed : Running n I → Move n I → Prop)
    (c : Callback) : System.Run.Drives (service prog tid) allowed Move.actor (fun s => c ∈ s.state.finished)
      fun rank w s => s.Sound ∧ Due prog tid c s rank w where
  able rank w s := fun ⟨sound, due⟩ => by
    obtain ⟨next, stepped⟩ := due.able sound
    exact ⟨.work w, rfl, next, stepped⟩
  closer rank w s m next := fun ⟨sound, due⟩ _ stepped => by
    obtain ⟨kept, ⟨nobody, calm⟩ | ⟨v, rfl, worked⟩⟩ := move_cases sound stepped
    · exact .inr (.inr ⟨⟨kept, due.calm sound calm⟩, by rw [nobody]; nofun⟩)
    · obtain finished | ⟨lower, less, other, due⟩ | ⟨due, distinct⟩ := due.work sound worked
      · exact .inl finished
      · exact .inr (.inl ⟨lower, less, other, kept, due⟩)
      · exact .inr (.inr ⟨⟨kept, due⟩, fun same => distinct (Option.some.inj same)⟩)

/-- The callback waits, and every worker that may take it has left `run` or is about to. -/
def Stuck (tid : Fin n → Int) (c : Callback) (s : Running n I) : Prop :=
  ∃ ft ∈ s.state.fibers, carrying.entry s.state.heap ft.task = some c ∧
    ∀ w, ft.For (tid w) → (s.state.worker w).gone = true

/-- A worker whose idle fiber has ended leaves `run`, and does not come back. -/
theorem gone_step (gone : (s.state.worker w).gone = true) (stepped : s.work prog tid w = some next) :
    (next.state.worker w).gone = true := by
  obtain ⟨label, labelled, moved, -⟩ := work_step stepped
  cases pc : (s.state.worker w).pc with
  | exited => simp [Running.label, pc] at labelled
  | branch taken =>
    cases taken with
    | some => simp [Worker.gone, pc] at gone
    | none =>
      have ended : (s.state.worker w).idleOver = true := by simpa [Worker.gone, pc] using gone
      simp only [Running.label, pc, Option.some.injEq] at labelled
      subst labelled
      obtain ⟨_, _, here, -⟩ | ⟨_, _, _, here, -⟩ | ⟨_, _, here, -⟩ | ⟨-, ⟨state, -⟩ | ⟨-, unended⟩⟩ := step_branch moved
      case inr.inr.inr.inl => simp [state, State.setWorker, Worker.gone]
      case inr.inr.inr.inr => cases ended.symm.trans unended
      all_goals cases pc.symm.trans here
  | _ => simp [Worker.gone, pc] at gone

theorem Stuck.move (stuck : Stuck tid c s) (sound : s.Sound) {m : Move n I}
    (stepped : s.move prog tid m = some next) :
    Stuck tid c next := by
  obtain ⟨ft, member, entry, out⟩ := stuck
  obtain ⟨-, ⟨-, calm⟩ | ⟨v, -, worked⟩⟩ := move_cases sound stepped
  · obtain ⟨added, fibers⟩ := calm.fibers
    exact ⟨ft, by rw [fibers]; exact List.mem_append_left _ member, by rw [calm.heap]; exact entry,
      fun w its => by rw [calm.worker]; exact out w its⟩
  obtain ⟨own, frame⟩ := work_frame sound worked
  obtain ⟨label, labelled, moved, -⟩ := work_step worked
  have remains : ft ∈ next.state.fibers := by
    obtain ⟨front, rest, waits⟩ := List.append_of_mem member
    obtain ⟨taker, rfl, unskipped, -⟩ | ⟨fewer, behind, waits, -⟩ := step_entry moved waits
    · -- A worker that scans has not left, so the entry is not for it.
      obtain ⟨rfl, scans⟩ := label_scan labelled
      have other : ¬ ft.For (tid taker) := fun its => by
        have gone := out taker its
        simp [Worker.gone, scans] at gone
      rw [FiberAndThread.For, not_or] at other
      simp [FiberAndThread.skipped, other.1, other.2] at unskipped
    · simp [waits]
  refine ⟨ft, remains, (entry_kept frame member).trans entry, fun w its => ?_⟩
  rcases eq_or_ne v w with rfl | distinct
  · exact gone_step (out v its) worked
  · rw [others_stand frame distinct]
    exact out w its

theorem Stuck.unfinished (stuck : Stuck tid c s) (sound : s.Sound) : c ∉ s.state.finished := by
  obtain ⟨ft, member, entry, -⟩ := stuck
  have present : 0 < carrying.entries s.state.heap c s.state.fibers :=
    List.countP_pos_iff.mpr ⟨ft, member, decide_eq_true entry⟩
  have total := sound.carrying c
  have most := Reading.given_le_one s.state.pins c
  intro finished
  have once : 0 < (carrying.log s.state.startedOn s.state.finished).count c := List.count_pos_iff.mpr finished
  omega

theorem Stuck.along {allowed : Running n I → Move n I → Prop} {run : (service prog tid).Run allowed}
    {i j : Nat} (later : i ≤ j) (stuck : Stuck tid c (run.state i)) :
    Stuck tid c (run.state j) := by
  induction j, later using Nat.le_induction with
  | base => exact stuck
  | succ j later ih =>
    cases moved : run.label j with
    | none =>
      rw [run.rests j moved]
      exact ih
    | some m => exact ih.move (sound_of_reaches (run.reaches j)) (run.moves j m moved).2

/-- A callback that has been given is finished, or waits in the queue, or is with a worker. -/
theorem due_of_served (sound : s.Sound) (given : c < s.bodies.length)
    (served : ∀ ft ∈ s.state.fibers, carrying.entry s.state.heap ft.task = some c →
      ∃ w, ft.For (tid w) ∧ (s.state.worker w).gone = false) :
    c ∈ s.state.finished ∨ ∃ rank w, Due prog tid c s rank w := by
  -- Given, waiting, held and finished are counted, and balance.
  have total := sound.carrying c
  rw [Reading.given, if_pos (sound.bodies ▸ given)] at total
  by_cases waits : 0 < carrying.entries s.state.heap c s.state.fibers
  · obtain ⟨ft, member, entry⟩ := List.countP_pos_iff.mp waits
    obtain ⟨w, its, stays⟩ := served ft member (of_decide_eq_true entry)
    obtain ⟨front, rest, waits⟩ := List.append_of_mem member
    exact .inr ⟨_, w, .waits waits (of_decide_eq_true entry) its stays⟩
  · by_cases held : ∃ w, carrying.hand s.state.heap (s.state.worker w) = some c
    · obtain ⟨w, held⟩ := held
      exact .inr ⟨_, w, .held held⟩
    · left
      have none : carrying.holders c s.state = 0 := (tally_eq_zero_iff _).mpr fun w => if_neg fun here => held ⟨w, here⟩
      refine List.count_pos_iff.mp (Nat.pos_of_ne_zero fun never => ?_)
      simp only [carrying] at total never waits none
      omega

/-- A callback schedules another one and yields, and the scheduler is stopped behind both. -/
def stoppedBehind : List (Move 1 Bool) :=
  [.work 0, .give true 1] ++ List.replicate 27 (.work 0) ++ [.setAutoStop, .setStopping] ++ List.replicate 7 (.work 0)

end Running
end HpsSf.Scheduler
