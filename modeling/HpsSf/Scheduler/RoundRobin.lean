import HpsSf.Foundation.Fairness
import HpsSf.Scheduler.Programs
import Mathlib.Data.Prod.Lex

/-! One worker serves its tasks in turn.

The machine of this module is what `run` is for: it takes the front task, lets it do
what it does up to its next yield or its end, and puts it at the back if it has
yielded. A worker alone keeps callbacks and suspended fibers in one queue, uses
one fiber for many callbacks and switches to an idle fiber in between.
-/

set_option autoImplicit false

namespace HpsSf.Scheduler
open Foundation

variable {I : Type}

/-! ## The machine -/

/-- Up to its next yield or its end: the bodies that a task schedules, and what is left of it. -/
def segment : List (Instr I) → List I × Option (List (Instr I))
  | [] => ([], none)
  | .yieldToReady :: rest => ([], some rest)
  | .schedule body _ :: rest => (body :: (segment rest).1, (segment rest).2)

structure RoundRobin (I : Type) where
  queue : List (Cont I)
  /-- How many tasks there have been. -/
  given : Nat
  /-- History: the tasks at the front, one for each turn. -/
  ran : List (Cont I)
  finished : List Callback

namespace RoundRobin

def fresh (prog : I → Program I) : Nat → List I → List (Cont I)
  | _, [] => []
  | c, body :: rest => (c, prog body) :: fresh prog (c + 1) rest

def initial (prog : I → Program I) (bodies : List I) : RoundRobin I :=
  ⟨fresh prog 0 bodies, bodies.length, [], []⟩

/-- What a task leaves behind itself at the back of the queue. -/
def outcome (prog : I → Program I) (given : Nat) (task : Cont I) : List (Cont I) :=
  fresh prog given (segment task.2.steps).1 ++
    ((segment task.2.steps).2.map fun rest => (task.1, ⟨rest, task.2.throws⟩)).toList

def turn (prog : I → Program I) (a : RoundRobin I) : Option (RoundRobin I) :=
  match a.queue with
  | [] => none
  | task :: rest =>
      some {
        queue := rest ++ outcome prog a.given task
        given := a.given + (segment task.2.steps).1.length
        ran := a.ran ++ [task]
        finished := a.finished ++ if (segment task.2.steps).2.isNone then [task.1] else [] }

def turns (prog : I → Program I) : Nat → RoundRobin I → Option (RoundRobin I)
  | 0, a => some a
  | k + 1, a => (turns prog k a).bind (turn prog)

theorem turns_le {prog : I → Program I} {a b : RoundRobin I} {j k : Nat} (less : j ≤ k)
    (taken : turns prog k a = some b) : ∃ c, turns prog j a = some c ∧ c.ran <+: b.ran := by
  induction k, less using Nat.le_induction generalizing b with
  | base => exact ⟨b, taken, List.prefix_refl _⟩
  | succ k _ ih =>
    obtain ⟨before, earlier, last⟩ := Option.bind_eq_some_iff.mp taken
    obtain ⟨c, same, shorter⟩ := ih earlier
    refine ⟨c, same, shorter.trans ?_⟩
    unfold turn at last
    split at last <;> cases last
    exact List.prefix_append _ _

/-- A machine that takes more turns has a task at the front. -/
theorem queue_ne_nil {prog : I → Program I} {a b c : RoundRobin I} {j k : Nat} (less : j < k)
    (taken : turns prog k a = some b) (now : turns prog j a = some c) : c.queue ≠ [] := by
  intro empty
  obtain ⟨_, further, _⟩ := turns_le (Nat.succ_le_of_lt less) taken
  simp [turns, now, turn, empty] at further

end RoundRobin

/-! ## The worker -/

inductive Solo where
  | work
  /-- The two writes of `stop()`, from another thread. -/
  | setAutoStop
  | setStopping
  deriving DecidableEq, Repr

namespace Solo

/-- Only the worker is sure to go on. -/
def actor : Solo → Option Unit
  | .work => some ()
  | .setAutoStop | .setStopping => none

/-- The callbacks are given before `run` is called, without a thread or with the one of the worker. -/
def begin (tid : Int) (given : List (I × Bool)) : Running 1 I :=
  given.foldl (fun s task => s.give task.1 (if task.2 then tid else -1)) (Running.initial 1 I)

end Solo

def solo (prog : I → Program I) (tid : Int) (given : List (I × Bool)) : System (Running 1 I) Solo where
  start s := s = Solo.begin tid given
  step s
    | .work => s.work prog (fun _ => tid) 0
    | .setAutoStop => some { s with state := { s.state with autoStop := true } }
    | .setStopping => some { s with state := { s.state with stopping := true } }

/-- What is promised of each state of a worker alone. -/
structure Faithful (prog : I → Program I) (tid : Int) (bodies : List I) (s : Running 1 I) : Prop where
  /-- What was run is what the machine runs in as many turns. -/
  segments : ∃ a, RoundRobin.turns prog s.ran.length (RoundRobin.initial prog bodies) = some a ∧ a.ran = s.ran
  /-- The body that a fiber is in is that of its own callback. -/
  unmixed : ∀ f stage, StageOn s.state 0 f stage → stage.inBody = true → Continues (s.state.heap f) (s.control 0)
  /-- The assertion of `reset` holds at both of its calls. -/
  resets : ∀ c thread f, (s.state.worker 0).pc = .branch (some ⟨.cb c, thread⟩) →
    (s.state.worker 0).cbFiber = some f → (s.state.heap f).state.resettable = true
  recycles : ∀ f, StageOn s.state 0 f .recycle → (s.state.heap f).state.resettable = true
  able : (s.state.worker 0).pc ≠ .exited → ∃ next, s.work prog (fun _ => tid) 0 = some next
  ends : (s.state.worker 0).pc = .exited → (∀ c < s.bodies.length, c ∈ s.state.finished) ∧
    ∃ a, RoundRobin.turns prog s.ran.length (RoundRobin.initial prog bodies) = some a ∧ a.queue = []

namespace Running

variable {prog : I → Program I} {tid : Int} {s next : Running 1 I}

/-- What the queue stands for. -/
def entries (prog : I → Program I) (s : Running 1 I) (fibers : List Entry) : List (Cont I) :=
  fibers.filterMap fun ft => s.pending prog ft.task

/-- The task that was taken from the queue and whose turn has not come. -/
def front (prog : I → Program I) (s : Running 1 I) : Option (Cont I) :=
  match (s.state.worker 0).pc with
  | .branch (some ft) => s.pending prog ft.task
  | .task .enter branch | .task .switch branch => ((s.state.worker 0).fiberOf branch).bind (s.target prog)
  | _ => none

/-- The running task, in the middle of its turn. -/
def present (s : Running 1 I) : Option (Cont I) :=
  match (s.state.worker 0).pc with
  | .task .exec _ => s.control 0
  | _ => none

/-- The task that has yielded and is not yet back in the queue. -/
def back (s : Running 1 I) : Option (Cont I) :=
  match (s.state.worker 0).pc with
  | .task (.leave false) _ => s.control 0
  | .task .back branch | .task .settle branch | .task .requeue branch =>
      ((s.state.worker 0).fiberOf branch).bind fun f =>
        if (s.state.heap f).state = .ready then s.saved f else none
  | _ => none

/-- The state of the machine, with the turn of the running task already taken. -/
def view (prog : I → Program I) (s : Running 1 I) : RoundRobin I where
  queue := (s.front prog).toList ++ s.entries prog s.state.fibers ++
    (s.present.elim [] (RoundRobin.outcome prog s.bodies.length) ++ s.back.toList)
  given := s.bodies.length + (s.present.elim 0 fun task => (segment task.2.steps).1.length)
  ran := s.ran
  finished := s.state.finished ++
    s.present.elim [] fun task => if (segment task.2.steps).2.isNone then [task.1] else []

@[simp] theorem entries_state (s : Running 1 I) (t : State 1) (fibers : List Entry) :
    entries prog { s with state := t } fibers = s.entries prog fibers := by
  simp only [entries, pending_same]

@[simp] theorem entries_nil (prog : I → Program I) (s : Running 1 I) : s.entries prog [] = [] := rfl

@[simp] theorem entries_cons (prog : I → Program I) (s : Running 1 I) (ft : Entry) (rest : List Entry) :
    s.entries prog (ft :: rest) = (s.pending prog ft.task).toList ++ s.entries prog rest := by
  cases found : s.pending prog ft.task <;> simp [entries, found]

@[simp] theorem entries_append (prog : I → Program I) (s : Running 1 I) (front rest : List Entry) :
    s.entries prog (front ++ rest) = s.entries prog front ++ s.entries prog rest :=
  List.filterMap_append

theorem entries_frame (prog : I → Program I) {own : Worker} (frame : Frame s next 0 own) (sound : s.Sound) :
    next.entries prog s.state.fibers = s.entries prog s.state.fibers :=
  List.filterMap_congr fun _ => frame.pending sound prog

/-- How many steps the worker is from its next switch to a task, at most. -/
def distance (s : Running 1 I) : Nat :=
  match (s.state.worker 0).pc with
  | .task .switch _ => 0
  | .task .enter _ => 1
  | .branch (some _) => 2
  | .scan => 3
  | .task .requeue _ | .task .hold _ | .task .recycle _ => 4
  | .task .settle _ => 5
  | .task .back _ => 6
  | .task (.leave _) _ => 7
  | .task .exec _ => 8 + (s.control 0).elim 0 fun task => task.2.steps.length
  | .branch none | .idle | .exited => 0

/-- No worker but this one, and no entry that is not for it. -/
structure Alone (tid : Int) (s : Running 1 I) : Prop where
  sound : s.Sound
  mine : ∀ ft ∈ s.state.fibers, ft.thread = -1 ∨ ft.thread = tid
  empty : (s.state.worker 0).pc = .branch none ∨ (s.state.worker 0).pc = .idle ∨
    (s.state.worker 0).pc = .exited → s.state.fibers = []

/-- A step short of a switch: the machine does not notice, and the switch comes closer. -/
structure Silent (prog : I → Program I) (tid : Int) (s next : Running 1 I) : Prop where
  mine : ∀ ft ∈ next.state.fibers, ft.thread = -1 ∨ ft.thread = tid
  empty : (next.state.worker 0).pc = .branch none ∨ (next.state.worker 0).pc = .idle ∨
    (next.state.worker 0).pc = .exited → next.state.fibers = []
  view : next.view prog = s.view prog
  closer : (s.view prog).queue ≠ [] → next.distance < s.distance

/-- The scan takes the first entry: none is for another thread, and no queued fiber is executing. -/
theorem Alone.pick (alone : Alone tid s) : pick tid (fun f => (s.state.heap f).state) s.state.fibers =
    match s.state.fibers with
    | [] => none
    | ft :: rest => some (ft, rest) := by
  cases fibers : s.state.fibers with
  | nil => rfl
  | cons ft rest =>
    have entry : ft ∈ s.state.fibers := by simp [fibers]
    have unskipped := alone.sound.unskipped entry (alone.mine ft entry)
    simp [Scheduler.pick, unskipped]

theorem silent_scan (alone : Alone tid s) (pc : (s.state.worker 0).pc = .scan)
    (stepped : s.work prog (fun _ => tid) 0 = some next) : Silent prog tid s next := by
  obtain ⟨label, labelled, moved, same⟩ := work_step stepped
  simp only [Running.label, pc, Option.some.injEq] at labelled
  subst labelled
  obtain ⟨_, found⟩ := step_scan moved
  rw [alone.pick] at found
  rw [same]
  simp only [note, pc]
  generalize next.state = t at found
  cases fibers : s.state.fibers with
  | nil =>
    rw [fibers] at found
    obtain ⟨_, _, impossible, _⟩ | ⟨_, rfl⟩ := found
    · cases impossible
    · refine ⟨by simp [State.setWorker, fibers], by simp [State.setWorker, fibers], ?_, fun more => absurd ?_ more⟩
      · simp [Running.view, front, present, back, pc, State.setWorker]
      · simp [Running.view, front, present, back, pc, fibers]
  | cons ft rest =>
    rw [fibers] at found
    obtain ⟨_, _, picked, rfl⟩ | ⟨impossible, _⟩ := found
    · cases picked
      refine ⟨fun other entry => alone.mine other ?_, by simp [State.setWorker], ?_, fun _ => ?_⟩
      · rw [fibers]
        exact List.mem_cons_of_mem _ entry
      · simp [Running.view, front, present, back, pc, State.setWorker, fibers]
      · simp [distance, pc, State.setWorker]
    · cases impossible

theorem silent_idle (alone : Alone tid s) (pc : (s.state.worker 0).pc = .idle)
    (stepped : s.work prog (fun _ => tid) 0 = some next) : Silent prog tid s next := by
  obtain ⟨label, labelled, moved, same⟩ := work_step stepped
  simp only [Running.label, pc, Option.some.injEq] at labelled
  subst labelled
  obtain ⟨_, found⟩ := step_idle moved
  rw [same]
  simp only [note, pc]
  generalize next.state = t at found
  subst found
  have fibers := alone.empty (.inr (.inl pc))
  refine ⟨by simp [State.setWorker, fibers], by simp [State.setWorker], ?_, fun more => absurd ?_ more⟩
  · simp [Running.view, front, present, back, pc, State.setWorker]
  · simp [Running.view, front, present, back, pc, fibers]

theorem silent_branch (alone : Alone tid s) {ft : Option Entry} (pc : (s.state.worker 0).pc = .branch ft)
    (stepped : s.work prog (fun _ => tid) 0 = some next) : Silent prog tid s next := by
  obtain ⟨label, labelled, moved, same⟩ := work_step stepped
  simp only [Running.label, pc, Option.some.injEq] at labelled
  subst labelled
  rw [same]
  simp only [note, pc]
  generalize next.state = t at moved
  obtain ⟨g, thread, branching, rfl⟩ | ⟨c, thread, g, branching, owned, _, rfl⟩ | ⟨c, thread, branching, _, rfl⟩ |
    ⟨branching, ended⟩ := step_branch moved
  case inr.inr.inr =>
    have fibers := alone.empty (.inl branching)
    obtain ⟨rfl, _⟩ | ⟨rfl, _⟩ := ended
    all_goals
      refine ⟨by simp [State.setWorker, fibers], by simp [State.setWorker, fibers], ?_, fun more => absurd ?_ more⟩
      · simp [Running.view, front, present, back, branching, State.setWorker]
      · simp [Running.view, front, present, back, branching, fibers]
  · refine ⟨alone.mine, by simp [State.setWorker], ?_, fun _ => by simp [distance, branching, State.setWorker]⟩
    have present' : 0 < (s.state.worker 0).refs g := by simp [Worker.refs, branching, Pc.refs]
    have parked := (alone.sound.ledger.sound 0).taken g thread branching (alone.sound.pooled_of_refs present')
    simp [Running.view, front, present, back, branching, State.setWorker, pending, Worker.fiberOf, target, parked.2.1]
  · refine ⟨alone.mine, by simp [State.setWorker], ?_, fun _ => by simp [distance, branching, State.setWorker]⟩
    simp [Running.view, front, present, back, branching, State.setWorker, State.setFiber, pending, Worker.fiberOf,
      target, owned]
  · refine ⟨alone.mine, by simp [State.setWorker], ?_, fun _ => by simp [distance, branching, State.setWorker]⟩
    simp [Running.view, front, present, back, branching, State.setWorker, State.setFiber, pending, Worker.fiberOf,
      target, Fiber.create]

theorem silent_task (alone : Alone tid s) {stage : Stage} {branch : Branch}
    (pc : (s.state.worker 0).pc = .task stage branch) (outside : stage.inBody = false) (other : stage ≠ .switch)
    (stepped : s.work prog (fun _ => tid) 0 = some next) : Silent prog tid s next := by
  obtain ⟨label, labelled, moved, same⟩ := work_step stepped
  have body : stage ≠ .exec := by
    rintro rfl
    cases outside
  cases (label_task pc body).symm.trans labelled
  rw [same, note_task pc outside other]
  generalize next.state = t at moved
  obtain ⟨_, _, g, effect, running, owned, advanced, rfl⟩ := step_task moved
  cases pc.symm.trans running
  have fits := alone.sound.fits pc owned
  cases stage with
  | enter =>
    simp only [Scheduler.advance] at advanced
    split at advanced <;> cases advanced
    refine ⟨alone.mine, by simp [State.apply], ?_, fun _ => by simp [distance, State.apply, pc]⟩
    simp [Running.view, front, present, back, pc, State.apply, after_fiberOf, owned, target]
  | leave done =>
    obtain rfl : done = true := by
      cases done
      · cases outside
      · rfl
    cases advanced
    have ended : (s.state.heap g).state ≠ .ready := by
      rintro ready
      simp [Stage.Fits, Fiber.State.over, ready] at fits
    refine ⟨alone.mine, by simp [State.apply], ?_, fun _ => by simp [distance, State.apply, pc]⟩
    simp [Running.view, front, present, back, pc, State.apply, after_fiberOf, owned, ended]
  | back =>
    cases advanced
    refine ⟨alone.mine, by simp [State.apply], ?_, fun _ => by simp [distance, State.apply, pc]⟩
    simp [Running.view, front, present, back, pc, State.apply, after_fiberOf, owned]
  | settle =>
    obtain parked | ended := fits
    · simp only [Scheduler.advance, parked.1, Option.some.injEq] at advanced
      subst advanced
      refine ⟨alone.mine, by simp [State.apply], ?_, fun _ => by simp [distance, State.apply, pc]⟩
      simp [Running.view, front, present, back, pc, State.apply, after_fiberOf, owned, parked.1]
    · have unready : (s.state.heap g).state ≠ .ready := by
        rintro ready
        rw [ready] at ended
        cases ended
      have quiet : effect.requeues = false ∧ effect.finished = none ∧ effect.fiber = s.state.heap g ∧
          (effect.pc = .scan ∨ effect.pc = .task .recycle branch) := by
        cases state : (s.state.heap g).state <;> rw [state] at ended <;> cases ended
        all_goals
          simp only [Scheduler.advance, state] at advanced
          cases branch <;> cases advanced <;> simp
      obtain ⟨unqueued, unfinished, same, pc' | pc'⟩ := quiet
      all_goals
        refine ⟨by simpa [State.apply, unqueued] using alone.mine, by simp [State.apply, pc'], ?_,
          fun _ => by simp [distance, State.apply, pc, pc']⟩
        simp [Running.view, front, present, back, pc, pc', State.apply, owned, unready, unqueued, unfinished]
  | requeue =>
    cases advanced
    refine ⟨fun ft entry => ?_, by simp [State.apply], ?_, fun _ => by simp [distance, State.apply, pc]⟩
    · have added : ft ∈ s.state.fibers ∨ ft = ⟨.fiber g, -1⟩ := by
        simpa [State.apply, scheduleNoLock] using entry
      rcases added with old | rfl
      · exact alone.mine ft old
      · exact .inl rfl
    · have ready : (s.state.heap g).state = .ready := fits.1
      simp [Running.view, front, present, back, pc, State.apply, scheduleNoLock, owned, pending, ready]
  | hold => exact fits.elim
  | recycle =>
    obtain ⟨after, recycled, rfl⟩ := Option.map_eq_some_iff.mp advanced
    refine ⟨alone.mine, by simp [State.apply], ?_, fun _ => by simp [distance, State.apply, pc]⟩
    simp [Running.view, front, present, back, pc, State.apply]
  | switch => exact absurd rfl other
  | exec => exact absurd rfl body

theorem silent_saves (alone : Alone tid s) {branch : Branch} (pc : (s.state.worker 0).pc = .task (.leave false) branch)
    (stepped : s.work prog (fun _ => tid) 0 = some next) : Silent prog tid s next := by
  obtain ⟨own, frame⟩ := work_frame alone.sound stepped
  have kept := entries_frame prog frame alone.sound
  obtain ⟨label, labelled, moved, same⟩ := work_step stepped
  cases (label_task pc nofun).symm.trans labelled
  rw [same] at kept ⊢
  generalize next.state = t at moved kept
  obtain ⟨_, _, g, effect, running, owned, advanced, rfl⟩ := step_task moved
  cases pc.symm.trans running
  cases advanced
  have on : StageOn s.state 0 g (.leave false) := ⟨branch, pc, owned⟩
  have ready : (s.state.heap g).state = .ready := (alone.sound.fits pc owned).1
  simp only [note, pc, owned] at kept ⊢
  refine ⟨alone.mine, by simp [State.apply], ?_, fun _ => by simp [distance, State.apply, pc]⟩
  simp [Running.view, front, present, back, pc, State.apply, after_fiberOf, owned, ready] at kept ⊢
  exact kept

/-- A body that goes on, is left at a yield or ends does what the machine has done for it. -/
theorem silent_exec (alone : Alone tid s) {branch : Branch} (pc : (s.state.worker 0).pc = .task .exec branch)
    (stepped : s.work prog (fun _ => tid) 0 = some next) : Silent prog tid s next := by
  obtain ⟨own, frame⟩ := work_frame alone.sound stepped
  have kept := entries_frame prog frame alone.sound
  obtain ⟨label, labelled, moved, same⟩ := work_step stepped
  obtain ⟨g, owned⟩ := alone.sound.owns 0 .exec branch pc
  obtain ⟨c, ⟨steps, throws⟩, follows, cb⟩ := alone.sound.control 0 g .exec ⟨branch, pc, owned⟩ rfl
  rw [same] at kept ⊢
  generalize next.state = t at moved kept
  simp only [note, pc, follows] at kept ⊢
  simp only [Running.label, pc, follows] at labelled
  cases steps with
  | cons instruction rest =>
    cases instruction with
    | schedule body own =>
      cases labelled
      obtain ⟨_, _, rfl⟩ := step_schedule moved
      refine ⟨fun ft entry => ?_, by simp [accept_worker, pc], ?_,
        fun _ => by simp [distance, accept_worker, pc, follows]⟩
      · have added : ft ∈ s.state.fibers ∨ ft = ⟨.cb s.state.pins.length, if own then tid else -1⟩ := by
          simpa [State.accept, scheduleNoLock] using entry
        rcases added with old | rfl
        · exact alone.mine ft old
        · cases own
          · exact .inl rfl
          · exact .inr rfl
      · simp [Running.view, front, present, back, pc, follows, segment, RoundRobin.outcome, RoundRobin.fresh,
          State.accept, scheduleNoLock, pending, begins, ← alone.sound.bodies]
        exact ⟨kept, by omega, rfl⟩
    | yieldToReady =>
      cases labelled
      obtain ⟨_, _, g', effect, running, owned', advanced, rfl⟩ := step_task moved
      cases pc.symm.trans running
      cases owned.symm.trans owned'
      cases advanced
      refine ⟨alone.mine, by simp [State.apply], ?_, fun _ => by simp [distance, State.apply, pc]; omega⟩
      simp [Running.view, front, present, back, pc, State.apply, follows, RoundRobin.outcome, segment, RoundRobin.fresh]
      exact kept
  | nil =>
    cases labelled
    obtain ⟨_, _, g', effect, running, owned', advanced, rfl⟩ := step_task moved
    cases pc.symm.trans running
    cases owned.symm.trans owned'
    have ends : effect.pc = .task (.leave true) branch ∧ effect.requeues = false ∧ effect.finished = some c := by
      cases throws <;> cases advanced <;> exact ⟨rfl, rfl, cb⟩
    obtain ⟨pc', unqueued, finished⟩ := ends
    refine ⟨by simpa [State.apply, unqueued] using alone.mine, by simp [State.apply, pc'], ?_,
      fun _ => by simp [distance, State.apply, pc, pc']; omega⟩
    simp [Running.view, front, present, back, pc, pc', State.apply, unqueued, finished, follows, RoundRobin.outcome,
      segment, RoundRobin.fresh]
    exact kept

/-- The worker switches to a task when the machine takes its turn. -/
theorem switch_turn (alone : Alone tid s) {branch : Branch} (pc : (s.state.worker 0).pc = .task .switch branch)
    (stepped : s.work prog (fun _ => tid) 0 = some next) :
    Alone tid next ∧ (s.view prog).turn prog = some (next.view prog) ∧ next.ran.length = s.ran.length + 1 := by
  have sound := work_sound alone.sound stepped
  obtain ⟨own, frame⟩ := work_frame alone.sound stepped
  have kept := entries_frame prog frame alone.sound
  obtain ⟨label, labelled, moved, same⟩ := work_step stepped
  cases (label_task pc nofun).symm.trans labelled
  rw [same] at sound kept ⊢
  generalize next.state = t at moved sound kept
  obtain ⟨_, _, g, effect, running, owned, advanced, rfl⟩ := step_task moved
  cases pc.symm.trans running
  obtain ⟨c, p, follows, cb⟩ := alone.sound.target prog pc owned
  have switches : effect.pc = .task .exec branch ∧ effect.fiber = s.state.heap g ∧ effect.requeues = false ∧
      effect.finished = none := by
    cases context : (s.state.heap g).context <;> simp only [Scheduler.advance, context] at advanced <;> cases advanced
    all_goals exact ⟨rfl, rfl, rfl, rfl⟩
  obtain ⟨pc', fiber, unqueued, unfinished⟩ := switches
  simp only [note, pc, owned, Option.bind_some, follows] at sound kept ⊢
  refine ⟨⟨sound, by simpa [State.apply, unqueued] using alone.mine, by simp [State.apply, pc']⟩, ?_, by simp⟩
  simp [Running.view, front, present, back, pc, pc', State.apply, unqueued, unfinished, owned, follows, RoundRobin.turn]
  exact kept.symm

/-- One step of the worker is a turn of the machine, or none of its business. -/
theorem work_view (prog : I → Program I) (alone : Alone tid s) (stepped : s.work prog (fun _ => tid) 0 = some next) :
    Alone tid next ∧ ((s.view prog).turn prog = some (next.view prog) ∧ next.ran.length = s.ran.length + 1 ∨
      Silent prog tid s next) := by
  have silent (silent : Silent prog tid s next) : Alone tid next ∧
      ((s.view prog).turn prog = some (next.view prog) ∧ next.ran.length = s.ran.length + 1 ∨ Silent prog tid s next) :=
    ⟨⟨work_sound alone.sound stepped, silent.mine, silent.empty⟩, .inr silent⟩
  cases pc : (s.state.worker 0).pc with
  | scan => exact silent (silent_scan alone pc stepped)
  | branch ft => exact silent (silent_branch alone pc stepped)
  | idle => exact silent (silent_idle alone pc stepped)
  | exited =>
    obtain ⟨label, labelled, _⟩ := work_step stepped
    simp [Running.label, pc] at labelled
  | task stage branch =>
    cases stage with
    | switch =>
      obtain ⟨after, turned⟩ := switch_turn alone pc stepped
      exact ⟨after, .inl turned⟩
    | exec => exact silent (silent_exec alone pc stepped)
    | leave done =>
      cases done with
      | false => exact silent (silent_saves alone pc stepped)
      | true => exact silent (silent_task alone pc rfl (by simp) stepped)
    | _ => exact silent (silent_task alone pc rfl (by simp) stepped)

/-! ## Runs -/

theorem give_view (pc : (s.state.worker 0).pc = .scan) (sound : s.Sound) (body : I) (thread : Int) :
    (s.give body thread).view prog = { s.view prog with
      queue := (s.view prog).queue ++ [(s.bodies.length, prog body)], given := s.bodies.length + 1 } := by
  simp [Running.view, front, present, back, pc, give, State.accept, scheduleNoLock, pending, begins, ← sound.bodies]
  exact List.filterMap_congr fun ft entry => sound.pending prog ⟨[body], rfl⟩ entry fun _ _ => rfl

theorem begin_view (prog : I → Program I) (tid : Int) (given : List (I × Bool)) (s : Running 1 I)
    (pc : (s.state.worker 0).pc = .scan) (sound : s.Sound)
    (mine : ∀ ft ∈ s.state.fibers, ft.thread = -1 ∨ ft.thread = tid) :
    Alone tid (given.foldl (fun s task => s.give task.1 (if task.2 then tid else -1)) s) ∧
      (given.foldl (fun s task => s.give task.1 (if task.2 then tid else -1)) s).view prog = { s.view prog with
        queue := (s.view prog).queue ++ RoundRobin.fresh prog s.bodies.length (given.map Prod.fst)
        given := s.bodies.length + given.length } := by
  induction given generalizing s with
  | nil =>
    refine ⟨⟨sound, mine, by simp [pc]⟩, ?_⟩
    simp [Running.view, present, pc, RoundRobin.fresh]
  | cons task rest ih =>
    have more : ∀ ft ∈ (s.give task.1 (if task.2 then tid else -1)).state.fibers, ft.thread = -1 ∨ ft.thread = tid := by
      intro ft entry
      have added : ft ∈ s.state.fibers ∨ ft = ⟨.cb s.state.pins.length, if task.2 then tid else -1⟩ := by
        simpa [give, State.accept, scheduleNoLock] using entry
      rcases added with old | rfl
      · exact mine ft old
      · cases task.2
        · exact .inl rfl
        · exact .inr rfl
    obtain ⟨alone, view⟩ := ih (s.give task.1 (if task.2 then tid else -1)) pc (give_sound sound _ _) more
    refine ⟨alone, view.trans ?_⟩
    rw [give_view pc sound]
    simp [give, RoundRobin.fresh]
    omega

/-- The worker has done what the machine does in as many turns. -/
structure Follows (prog : I → Program I) (tid : Int) (bodies : List I) (s : Running 1 I) : Prop where
  alone : Alone tid s
  turns : RoundRobin.turns prog s.ran.length (RoundRobin.initial prog bodies) = some (s.view prog)

theorem follows_begin (prog : I → Program I) (tid : Int) (given : List (I × Bool)) :
    Follows prog tid (given.map Prod.fst) (Solo.begin tid given) := by
  obtain ⟨alone, view⟩ := begin_view prog tid given (Running.initial 1 I) rfl sound_initial nofun
  refine ⟨alone, ?_⟩
  have ran : (Solo.begin tid given).ran = [] := congrArg RoundRobin.ran view
  rw [ran]
  refine congrArg some (Eq.trans ?_ view.symm)
  simp [RoundRobin.initial, Running.view, front, present, back, Running.initial, State.initial]

theorem flags_follows {bodies : List I} (follows : Follows prog tid bodies s) (autoStop stopping : Bool) :
    Follows prog tid bodies { s with state := { s.state with autoStop := autoStop, stopping := stopping } } where
  alone := ⟨flags_sound follows.alone.sound autoStop stopping, follows.alone.mine, follows.alone.empty⟩
  turns := follows.turns

theorem step_follows {bodies : List I} {given : List (I × Bool)} (follows : Follows prog tid bodies s) {label : Solo}
    (stepped : (solo prog tid given).step s label = some next) : Follows prog tid bodies next := by
  cases label with
  | work =>
    obtain ⟨alone, ⟨turned, longer⟩ | silent⟩ := work_view prog follows.alone stepped
    · refine ⟨alone, ?_⟩
      rw [longer, RoundRobin.turns, follows.turns, Option.bind_some]
      exact turned
    · refine ⟨alone, ?_⟩
      have ran : next.ran = s.ran := congrArg RoundRobin.ran silent.view
      rw [ran, silent.view]
      exact follows.turns
  | setAutoStop =>
    cases stepped
    exact flags_follows follows true s.state.stopping
  | setStopping =>
    cases stepped
    exact flags_follows follows s.state.autoStop true

variable {given : List (I × Bool)}

theorem follows_of_reaches (reached : (solo prog tid given).Reaches (fun _ _ => True) s) :
    Follows prog tid (given.map Prod.fst) s := by
  refine reached.invariant (fun s begins => ?_) fun s label next follows _ stepped => step_follows follows stepped
  rw [show s = Solo.begin tid given from begins]
  exact follows_begin prog tid given

/-- At the end of `run` no callback is in the queue or with the worker. -/
theorem Alone.finished (alone : Alone tid s) (exited : (s.state.worker 0).pc = .exited) {c : Callback}
    (given : c < s.bodies.length) : c ∈ s.state.finished := by
  have total := alone.sound.carrying c
  rw [Reading.given, if_pos (alone.sound.bodies ▸ given), alone.empty (.inr (.inr exited))] at total
  have none : carrying.holders c s.state = 0 := (tally_eq_zero_iff _).mpr fun w => by
    obtain rfl : w = 0 := Subsingleton.elim _ _
    simp [Reading.hand, exited]
  rw [none] at total
  exact List.count_pos_iff.mp (Nat.lt_of_lt_of_eq Nat.one_pos (by simpa [Reading.entries, carrying] using total.symm))

theorem Alone.view_exited (alone : Alone tid s) (exited : (s.state.worker 0).pc = .exited) :
    (s.view prog).queue = [] := by
  simp [Running.view, front, present, back, exited, alone.empty (.inr (.inr exited))]

theorem faithful_of_reaches (reached : (solo prog tid given).Reaches (fun _ _ => True) s) :
    Faithful prog tid (given.map Prod.fst) s := by
  have follows := follows_of_reaches reached
  have sound := follows.alone.sound
  refine ⟨⟨_, follows.turns, rfl⟩, fun f stage on => sound.control 0 f stage on, fun c thread f branching owned => ?_,
    fun f on => ?_, fun live => work_able sound prog _ live, fun exited =>
      ⟨fun c given => follows.alone.finished exited given, _, follows.turns, follows.alone.view_exited exited⟩⟩
  · have spare := (sound.ledger.sound 0).spare f owned (by simp [branching])
    rw [spare.1]
    rfl
  · obtain ⟨branch, running, owned⟩ := on
    have ended : (s.state.heap f).state.over = true := sound.fits running owned
    cases state : (s.state.heap f).state <;> rw [state] at ended <;> cases ended <;> rfl

/-- Short of some number of turns the worker comes closer to its next one. -/
theorem work_helps (prog : I → Program I) (tid : Int) (given : List (I × Bool)) {k : Nat} {a : RoundRobin I}
    (more : RoundRobin.turns prog k (RoundRobin.initial prog (given.map Prod.fst)) = some a) :
    System.Run.Helps (solo prog tid given) (fun _ _ => True) Solo.actor (fun s => k ≤ s.ran.length)
      (Follows prog tid (given.map Prod.fst)) (fun s => toLex (k - s.ran.length, s.distance)) fun _ => () where
  able s follows short := by
    have queue := RoundRobin.queue_ne_nil (Nat.lt_of_not_le short) more follows.turns
    have live : (s.state.worker 0).pc ≠ .exited := fun exited => queue (follows.alone.view_exited exited)
    exact ⟨.work, rfl, work_able follows.alone.sound prog _ live⟩
  closer s label next follows short _ stepped := by
    have queue := RoundRobin.queue_ne_nil (Nat.lt_of_not_le short) more follows.turns
    right
    cases label with
    | setAutoStop | setStopping =>
      cases stepped
      exact .inr ⟨rfl, rfl, nofun⟩
    | work =>
      left
      obtain ⟨_, ⟨_, longer⟩ | silent⟩ := work_view prog follows.alone stepped
      · exact Prod.Lex.left _ _ (by omega)
      · have ran : next.ran = s.ran := congrArg RoundRobin.ran silent.view
        rw [ran]
        exact Prod.Lex.right _ (silent.closer queue)

/-- In every run of a worker alone, what it has done is faithful to the machine, and
if it keeps going it does whatever the machine does. -/
theorem runs_round_robin (prog : I → Program I) (tid : Int) (given : List (I × Bool)) :
    (∀ s, (solo prog tid given).Reaches (fun _ _ => True) s → Faithful prog tid (given.map Prod.fst) s) ∧
      ∀ run : (solo prog tid given).Run fun _ _ => True, run.Fair Solo.actor → ∀ k a,
        RoundRobin.turns prog k (RoundRobin.initial prog (given.map Prod.fst)) = some a →
          ∃ i, a.ran <+: (run.state i).ran := by
  refine ⟨fun s => faithful_of_reaches, fun run fair k a taken => ?_⟩
  obtain ⟨i, _, enough⟩ := fair.leads (work_helps prog tid given taken)
    (fun i => follows_of_reaches (run.reaches i)) 0
  have follows := follows_of_reaches (run.reaches i)
  obtain ⟨b, same, shorter⟩ := RoundRobin.turns_le enough follows.turns
  cases taken.symm.trans same
  exact ⟨i, shorter⟩

/-- The first of two callbacks yields and then schedules a third one; the others throw. -/
def threeTasks : Bool → Program Bool
  | true => ⟨[.yieldToReady, .schedule false true], false⟩
  | false => ⟨[], true⟩

theorem runs_round_robin_threeTasks :
    ∃ s, (solo threeTasks 7 [(true, false), (false, true)]).Reaches (fun _ _ => True) s ∧
      (s.state.worker 0).pc = .exited ∧ s.ran.map Prod.fst = [0, 1, 0, 2] ∧ Faithful threeTasks 7 [true, false] s := by
  obtain ⟨s, reached, test⟩ := System.reaches_test (solo threeTasks 7 [(true, false), (false, true)])
    (fun _ _ => True) (fun _ _ => true) (fun _ _ _ => trivial) _ rfl
    ([.setAutoStop, .setStopping] ++ List.replicate 41 .work)
    (fun s => (s.state.worker 0).pc = .exited ∧ s.ran.map Prod.fst = [0, 1, 0, 2]) (by decide)
  obtain ⟨exited, ran⟩ := of_decide_eq_true test
  exact ⟨s, reached, exited, ran, (runs_round_robin threeTasks 7 [(true, false), (false, true)]).1 s reached⟩

end Running
end HpsSf.Scheduler
