import HpsSf.Scheduler.Delivery

/-! The workers with the bodies of the callbacks that they run.

The machine leaves open what a body does. Here every callback has a program, and
the context of a fiber is what its body has left to do: a fresh one leads to the
body of the callback that the fiber carries, a saved one to where it was saved.
-/

set_option autoImplicit false

namespace HpsSf.Scheduler
open Foundation

inductive Instr (I : Type) where
  /-- `schedule(cb)`, or with the id of the running thread. -/
  | schedule (body : I) (own : Bool)
  | yieldToReady
  deriving DecidableEq, Repr

/-- The body of a callback returns or throws behind its last instruction. -/
structure Program (I : Type) where
  steps : List (Instr I)
  throws : Bool
  deriving DecidableEq, Repr

/-- What is left to do, and of which callback. -/
abbrev Cont (I : Type) := Callback × Program I

structure Running (n : Nat) (I : Type) where
  state : State n
  /-- The body of each callback, by serial number. -/
  bodies : List I
  saved : FiberId → Option (Cont I)
  control : Fin n → Option (Cont I)
  /-- History: the contexts that were switched to. -/
  ran : List (Cont I)

variable {n : Nat} {I : Type}

namespace Running

def initial (n : Nat) (I : Type) : Running n I where
  state := State.initial n
  bodies := []
  saved _ := none
  control _ := none
  ran := []

/-- A call of `schedule` from a thread that is no worker. -/
def give (s : Running n I) (body : I) (thread : Int) : Running n I :=
  { s with state := s.state.accept thread .callback, bodies := s.bodies ++ [body] }

/-- What the worker does next. The idle fiber of a scheduler ends at the verdict. -/
def label (tid : Fin n → Int) (s : Running n I) (w : Fin n) : Option (Label n) :=
  match (s.state.worker w).pc with
  | .scan => some (.scan w)
  | .branch _ => some (.branch w)
  | .task .exec _ =>
      match s.control w with
      | some (_, ⟨.schedule _ own :: _, _⟩) =>
          some (.schedule (some w) .callback (if own then tid w else -1))
      | some (_, ⟨.yieldToReady :: _, _⟩) => some (.task w .yieldToReady)
      | some (_, ⟨[], throws⟩) => some (.task w (if throws then .throws else .returns))
      | none => none
  | .task _ _ => some (.task w .proceed)
  | .idle => some (.idle w s.state.verdict)
  | .exited => none

def begins (prog : I → Program I) (s : Running n I) (c : Callback) : Option (Cont I) :=
  s.bodies[c]?.map fun body => (c, prog body)

/-- Where the context of the fiber leads. -/
def target (prog : I → Program I) (s : Running n I) (f : FiberId) : Option (Cont I) :=
  match (s.state.heap f).context with
  | .fresh => (s.state.heap f).cb.bind (s.begins prog)
  | .suspended => s.saved f
  | .ended => none

/-- What a queue entry stands for. -/
def pending (prog : I → Program I) (s : Running n I) : Task FiberId Callback → Option (Cont I)
  | .cb c => s.begins prog c
  | .fiber f => s.saved f

/-- The contexts after the step of a worker that leads to this state of the machine. -/
def note (prog : I → Program I) (s : Running n I) (w : Fin n) (next : State n) : Running n I :=
  match (s.state.worker w).pc with
  | .task .switch branch =>
      let cont := ((s.state.worker w).fiberOf branch).bind (s.target prog)
      { s with state := next, control := Function.update s.control w cont, ran := s.ran ++ cont.toList }
  | .task .exec _ =>
      match s.control w with
      | some (c, ⟨.schedule body _ :: rest, throws⟩) =>
          { s with
            state := next
            bodies := s.bodies ++ [body]
            control := Function.update s.control w (some (c, ⟨rest, throws⟩)) }
      | some (c, ⟨.yieldToReady :: rest, throws⟩) =>
          { s with state := next, control := Function.update s.control w (some (c, ⟨rest, throws⟩)) }
      | some (_, ⟨[], _⟩) | none => { s with state := next, control := Function.update s.control w none }
  | .task (.leave false) branch =>
      match (s.state.worker w).fiberOf branch with
      | some f =>
          { s with
            state := next
            saved := Function.update s.saved f (s.control w)
            control := Function.update s.control w none }
      | none => { s with state := next }
  | _ => { s with state := next }

/-- The next step of the worker; `none` is a failed assertion, or the end of `run`. -/
def work (prog : I → Program I) (tid : Fin n → Int) (s : Running n I) (w : Fin n) : Option (Running n I) :=
  (s.label tid w).bind fun label => (step tid s.state label).map (s.note prog w)

end Running

open Running

/-- The thread with this id may take the entry. -/
def FiberAndThread.For (self : Int) (ft : Entry) : Prop := ft.thread = -1 ∨ ft.thread = self

/-- Between the switch to the fiber and the switch away from it, in the middle of its callback. -/
def Stage.inBody : Stage → Bool
  | .exec | .leave false => true
  | .enter | .switch | .leave true | .back | .settle | .requeue | .hold | .recycle => false

/-- What is left to do is left of the callback that the fiber carries. -/
def Continues (fiber : Fiber) (cont : Option (Cont I)) : Prop :=
  ∃ c p, cont = some (c, p) ∧ fiber.cb = some c

/-- A worker on a task has its fiber in the variable of the branch. -/
def Owns (s : State n) : Prop :=
  ∀ w stage branch, (s.worker w).pc = .task stage branch → ∃ f, (s.worker w).fiberOf branch = some f

section
variable {tid : Fin n → Int} {s next : State n}

theorem Owns.turn (owns : Owns s) {w : Fin n} {own : Worker} (worker : next.worker = Function.update s.worker w own)
    (here : ∀ stage branch, own.pc = .task stage branch → ∃ f, own.fiberOf branch = some f) : Owns next := by
  intro other stage branch running
  rw [worker] at running ⊢
  rcases eq_or_ne other w with rfl | distinct
  · rw [Function.update_self] at running ⊢
    exact here stage branch running
  · rw [Function.update_of_ne distinct] at running ⊢
    exact owns other stage branch running

theorem step_owns {label : Label n} (owns : Owns s) (stepped : step tid s label = some next) : Owns next := by
  cases label with
  | schedule caller fc thread =>
    obtain ⟨_, _, rfl⟩ := step_schedule stepped
    rw [Owns, accept_worker]
    exact owns
  | scheduleAll caller fcs =>
    obtain ⟨_, _, rfl⟩ := step_scheduleAll stepped
    rw [Owns, acceptAll_worker]
    exact owns
  | newFiber caller =>
    cases step_newFiber stepped
    exact owns
  | setAutoStop | setStopping =>
    cases stepped
    exact owns
  | scan w =>
    obtain ⟨_, ⟨_, _, _, rfl⟩ | ⟨_, rfl⟩⟩ := step_scan stepped <;> exact owns.turn rfl nofun
  | branch w =>
    obtain ⟨g, _, _, rfl⟩ | ⟨_, _, g, _, owned, _, rfl⟩ | ⟨_, _, _, _, rfl⟩ |
      ⟨_, ⟨rfl, _⟩ | ⟨rfl, _⟩⟩ := step_branch stepped
    · refine owns.turn rfl fun stage branch running => ?_
      cases running
      exact ⟨g, rfl⟩
    · refine owns.turn rfl fun stage branch running => ?_
      cases running
      exact ⟨g, owned⟩
    · refine owns.turn rfl fun stage branch running => ?_
      cases running
      exact ⟨_, rfl⟩
    all_goals exact owns.turn rfl nofun
  | task w act =>
    obtain ⟨stage, branch, g, effect, _, owned, advanced, rfl⟩ := step_task stepped
    refine owns.turn rfl fun later other continues => ?_
    have pc : effect.pc = .task later other := continues
    rcases advance_pc advanced with ⟨_, same, kept, _⟩ | ⟨same, _⟩
    · rw [same] at pc
      cases pc
      exact ⟨g, by rw [after_fiberOf kept, owned]⟩
    · cases same.symm.trans pc
  | idle w ended =>
    obtain ⟨_, rfl⟩ := step_idle stepped
    exact owns.turn rfl nofun

end

namespace Running

/-- No context is mixed up: what a worker and a suspended fiber continue with is
left of their own callback. -/
structure Sound (s : Running n I) : Prop where
  ledger : Ledger s.state
  known : Known s.state
  carrying : carrying.Balanced s.state
  waiting : waiting.Balanced s.state
  pooled : ∀ f < s.state.nextFiber, (s.state.heap f).pooled = true
  owns : Owns s.state
  bodies : s.bodies.length = s.state.pins.length
  saved : ∀ f, (s.state.heap f).context = .suspended → (s.state.heap f).cb.isSome = true →
    Continues (s.state.heap f) (s.saved f)
  control : ∀ w f stage, StageOn s.state w f stage → stage.inBody = true →
    Continues (s.state.heap f) (s.control w)

variable {prog : I → Program I} {tid : Fin n → Int} {s next : Running n I} {w : Fin n}

@[simp] theorem note_state (prog : I → Program I) (s : Running n I) (w : Fin n) (next : State n) :
    (s.note prog w next).state = next := by
  unfold note
  repeat' split
  all_goals rfl

@[simp] theorem begins_same (s : Running n I) (t : State n) (saved : FiberId → Option (Cont I))
    (control : Fin n → Option (Cont I)) (ran : List (Cont I)) :
    begins prog ⟨t, s.bodies, saved, control, ran⟩ = s.begins prog := rfl

@[simp] theorem pending_same (s : Running n I) (t : State n) (control : Fin n → Option (Cont I)) (ran : List (Cont I)) :
    pending prog ⟨t, s.bodies, s.saved, control, ran⟩ = s.pending prog := by
  funext task
  cases task <;> rfl

theorem work_step (stepped : s.work prog tid w = some next) :
    ∃ label, s.label tid w = some label ∧ step tid s.state label = some next.state ∧
      next = s.note prog w next.state := by
  obtain ⟨label, labelled, moved⟩ := Option.bind_eq_some_iff.mp stepped
  obtain ⟨state, reached, rfl⟩ := Option.map_eq_some_iff.mp moved
  rw [note_state]
  exact ⟨label, labelled, reached, rfl⟩

theorem label_task {stage : Stage} {branch : Branch} (pc : (s.state.worker w).pc = .task stage branch)
    (outside : stage ≠ .exec) : s.label tid w = some (.task w .proceed) := by
  cases stage <;> first | exact absurd rfl outside | simp [Running.label, pc]

/-- Only the switches to a body and away from it, and the body itself, write contexts. -/
theorem note_task {stage : Stage} {branch : Branch} (pc : (s.state.worker w).pc = .task stage branch)
    (outside : stage.inBody = false) (switches : stage ≠ .switch) (t : State n) :
    s.note prog w t = { s with state := t } := by
  unfold note
  rw [pc]
  match stage with
  | .switch => exact absurd rfl switches
  | .exec | .leave false => cases outside
  | .enter | .leave true | .back | .settle | .requeue | .hold | .recycle => rfl

/-- Bodies schedule callbacks and yield READY, so the callbacks of the machine are safe. -/
theorem label_yields {label : Label n} (labelled : s.label tid w = some label) : YieldsOnly s.state label := by
  have kinds : (∃ thread, label = .schedule (some w) .callback thread) ∨
      (∃ act, label = .task w act ∧ act ≠ .yieldToHold) ∨ label = .scan w ∨ label = .branch w ∨
        ∃ ended, label = .idle w ended := by
    unfold Running.label at labelled
    split at labelled
    case h_3 =>
      split at labelled
      case h_3 => split at labelled <;> cases labelled <;> simp
      all_goals cases labelled <;> simp
    all_goals cases labelled <;> simp
  obtain ⟨_, rfl⟩ | ⟨act, rfl, yields⟩ | rfl | rfl | ⟨_, rfl⟩ := kinds
  case inr.inl =>
    refine ⟨fun other hold => ?_, fun f named => absurd named (Nat.lt_irrefl 0)⟩
    cases hold
    exact yields rfl
  all_goals exact ⟨nofun, fun f named => absurd named (Nat.lt_irrefl 0)⟩

theorem label_ne_newFiber {label : Label n} (labelled : s.label tid w = some label) (caller : Option (Fin n)) :
    label ≠ .newFiber caller := by
  rintro rfl
  unfold Running.label at labelled
  repeat' split at labelled
  all_goals cases labelled

/-- A body names no fiber, so every fiber is one that a worker has built. -/
theorem step_created {label : Label n} {t : State n} (user : ∀ caller, label ≠ .newFiber caller)
    (stepped : step tid s.state label = some t) {f : FiberId} (known : f < t.nextFiber) :
    f < s.state.nextFiber ∨ (t.heap f).pooled = true := by
  cases label with
  | newFiber caller => exact absurd rfl (user caller)
  | schedule caller fc thread =>
    obtain ⟨_, _, rfl⟩ := step_schedule stepped
    exact .inl (by rwa [accept_nextFiber] at known)
  | scheduleAll caller fcs =>
    obtain ⟨_, _, rfl⟩ := step_scheduleAll stepped
    exact .inl (by rwa [acceptAll_nextFiber] at known)
  | setAutoStop =>
    cases stepped
    exact .inl known
  | setStopping =>
    cases stepped
    exact .inl known
  | scan w =>
    obtain ⟨_, ⟨_, _, _, rfl⟩ | ⟨_, rfl⟩⟩ := step_scan stepped <;> exact .inl known
  | branch w =>
    obtain ⟨_, _, _, rfl⟩ | ⟨_, _, _, _, _, _, rfl⟩ | ⟨_, _, _, _, rfl⟩ |
      ⟨_, ⟨rfl, _⟩ | ⟨rfl, _⟩⟩ := step_branch stepped
    case inr.inr.inl =>
      rcases Nat.lt_succ_iff_lt_or_eq.mp known with old | rfl
      · exact .inl old
      · right
        simp [State.setFiber, State.setWorker, Fiber.create]
    all_goals exact .inl known
  | task w act =>
    obtain ⟨_, _, _, _, _, _, _, rfl⟩ := step_task stepped
    exact .inl known
  | idle w ended =>
    obtain ⟨_, rfl⟩ := step_idle stepped
    exact .inl known

/-- What the machine keeps, with the contexts of the next state. -/
theorem Sound.keeps (sound : s.Sound) {label : Label n} (yields : YieldsOnly s.state label)
    (user : ∀ caller, label ≠ .newFiber caller) (stepped : step tid s.state label = some next.state)
    (bodies : next.bodies.length = next.state.pins.length)
    (saved : ∀ f, (next.state.heap f).context = .suspended → (next.state.heap f).cb.isSome = true →
      Continues (next.state.heap f) (next.saved f))
    (control : ∀ w f stage, StageOn next.state w f stage → stage.inBody = true →
      Continues (next.state.heap f) (next.control w)) : next.Sound where
  ledger := step_ledger sound.ledger sound.known yields stepped
  known := step_known sound.known stepped
  carrying := Reading.step_balanced carrying_lawful sound.ledger sound.known sound.carrying
    yields stepped
  waiting := Reading.step_balanced waiting_lawful sound.ledger sound.known sound.waiting
    yields stepped
  pooled f known := by
    rcases step_created user stepped known with old | new
    · rw [(step_pooled stepped f).resolve_right (Nat.ne_of_lt old)]
      exact sound.pooled f old
    · exact new
  owns := step_owns sound.owns stepped
  bodies := bodies
  saved := saved
  control := control

theorem Sound.pooled_of_refs (sound : s.Sound) {f : FiberId} (present : 0 < (s.state.worker w).refs f) :
    (s.state.heap f).pooled = true := by
  refine sound.pooled f ?_
  by_contra unknown
  have none := sound.known f (Nat.le_of_not_lt unknown)
  exact absurd (places_pos_of_refs present) (by rw [none]; exact Nat.lt_irrefl 0)

theorem Sound.pooled_of_queued (sound : s.Sound) {f : FiberId} (entry : 0 < queued f s.state.fibers) :
    (s.state.heap f).pooled = true := by
  refine sound.pooled f ?_
  by_contra unknown
  have none := sound.known f (Nat.le_of_not_lt unknown)
  rw [places] at none
  omega

/-- A worker steps over no entry that it may take: no queued fiber is executing. -/
theorem Sound.unskipped (sound : s.Sound) {ft : Entry} (entry : ft ∈ s.state.fibers) {self : Int} (mine : ft.For self) :
    ft.skipped self (fun f => (s.state.heap f).state) = false := by
  obtain ⟨task, thread⟩ := ft
  have other : (thread != -1 && thread != self) = false := by
    rcases mine with same | same <;> simp_all
  cases task with
  | cb c => simp [FiberAndThread.skipped, other]
  | fiber f =>
    have entry : 0 < queued f s.state.fibers := List.countP_pos_iff.mpr ⟨⟨.fiber f, thread⟩, entry, by simp⟩
    have parked := sound.ledger.parked f (sound.pooled_of_queued entry) entry
    simp [FiberAndThread.skipped, other, parked.1]

/-- In a turn of one worker the others continue with what they did. -/
theorem Sound.turn (sound : s.Sound) {own : Worker} (turn : Turn s.state next.state w own)
    (control : ∀ other, other ≠ w → next.control other = s.control other)
    (here : ∀ f stage, own.On f stage → stage.inBody = true → Continues (next.state.heap f) (next.control w))
    (other : Fin n) (f : FiberId) (stage : Stage) (on : StageOn next.state other f stage)
    (inBody : stage.inBody = true) : Continues (next.state.heap f) (next.control other) := by
  rw [StageOn, turn.worker] at on
  rcases eq_or_ne other w with rfl | distinct
  · rw [Function.update_self] at on
    exact here f stage on inBody
  · rw [Function.update_of_ne distinct] at on
    have same := (turn.frame f (.inr ⟨other, distinct, on.refs_pos⟩)).of_pooled (sound.pooled_of_refs on.refs_pos)
    rw [same, control other distinct]
    exact sound.control other f stage on inBody

/-- A step that switches to no body and away from none. -/
theorem Sound.outside (sound : s.Sound) {label : Label n} {t : State n} {own : Worker}
    (labelled : s.label tid w = some label) (stepped : step tid s.state label = some t)
    (turn : Turn s.state t w own) (pins : t.pins = s.state.pins)
    (away : ∀ f stage, own.On f stage → stage.inBody = false)
    (contexts : ∀ f, (t.heap f).context = .suspended → (t.heap f).cb.isSome = true →
      (s.state.heap f).context = .suspended ∧ (s.state.heap f).cb = (t.heap f).cb) :
    Sound { s with state := t } := by
  refine sound.keeps (label_yields labelled) (label_ne_newFiber labelled) stepped (by simpa [pins] using sound.bodies)
    (fun f suspended carries => ?_)
    (sound.turn (show Turn s.state (show Running n I from { s with state := t }).state w own from turn)
      (fun _ _ => rfl) fun f stage on inBody => ?_)
  · obtain ⟨context, cb⟩ := contexts f suspended carries
    obtain ⟨c, p, kept, same⟩ := sound.saved f context (by rw [cb]; exact carries)
    exact ⟨c, p, kept, cb ▸ same⟩
  · rw [away f stage on] at inBody
    cases inBody

/-- Only the worker itself moves on, and is in no body. -/
theorem Sound.aside (sound : s.Sound) {label : Label n} {t : State n} {own : Worker}
    (labelled : s.label tid w = some label) (stepped : step tid s.state label = some t)
    (worker : t.worker = Function.update s.state.worker w own) (heap : t.heap = s.state.heap)
    (pins : t.pins = s.state.pins) (away : ∀ stage branch, own.pc = .task stage branch → stage.inBody = false) :
    Sound { s with state := t } := by
  refine sound.outside labelled stepped ⟨worker, fun f _ => .inl (by rw [heap])⟩ pins (fun f stage on => ?_)
    fun f suspended _ => ?_
  · obtain ⟨branch, running, _⟩ := on
    exact away stage branch running
  · rw [heap] at suspended ⊢
    exact ⟨suspended, rfl⟩

/-- A callback that is found anywhere has been given. -/
theorem Sound.given (sound : s.Sound) {c : Callback}
    (found : 0 < Scheduler.carrying.entries s.state.heap c s.state.fibers ∨
    ∃ w, Scheduler.carrying.hand s.state.heap (s.state.worker w) = some c) : c < s.bodies.length := by
  have total := sound.carrying c
  rw [sound.bodies]
  by_contra unknown
  rw [Reading.given, if_neg unknown] at total
  rcases found with entry | ⟨w, held⟩
  · omega
  · have one := reading_le_tally (fun w => Reading.holds c (Scheduler.carrying.hand s.state.heap (s.state.worker w))) w
    rw [held, Reading.holds, if_pos rfl] at one
    rw [Reading.holders] at total
    omega

theorem begins_eq {c : Callback} (old : c < s.bodies.length) :
    s.begins prog c = some (c, prog s.bodies[c]) := by
  simp [begins, old]

theorem Sound.fits (sound : s.Sound) {stage : Stage} {branch : Branch} {g : FiberId}
    (running : (s.state.worker w).pc = .task stage branch) (owned : (s.state.worker w).fiberOf branch = some g) :
    stage.Fits branch (s.state.heap g) := by
  have on : StageOn s.state w g stage := ⟨branch, running, owned⟩
  exact (sound.ledger.sound w).fits stage branch g running owned (sound.pooled_of_refs on.refs_pos)

/-- The context that a worker is about to switch to leads into its own callback. -/
theorem Sound.target (sound : s.Sound) (prog : I → Program I) {branch : Branch} {g : FiberId}
    (running : (s.state.worker w).pc = .task .switch branch) (owned : (s.state.worker w).fiberOf branch = some g) :
    Continues (s.state.heap g) (s.target prog g) := by
  obtain ⟨state, context, carries⟩ := sound.fits running owned
  obtain ⟨c, cb⟩ := Option.isSome_iff_exists.mp carries
  cases branch with
  | fiber f =>
    rw [Running.target, show (s.state.heap g).context = .suspended from context]
    exact sound.saved g context carries
  | callback =>
    have held : Scheduler.carrying.hand s.state.heap (s.state.worker w) = some c := by
      simp [Reading.hand, running, owned, Scheduler.carrying, Fiber.carried, state, Fiber.State.over, cb]
    rw [Running.target, show (s.state.heap g).context = .fresh from context]
    simp only [cb, Option.bind_some, begins_eq (sound.given (.inr ⟨w, held⟩))]
    exact ⟨c, _, rfl, cb⟩

/-- A step on a fiber outside of its body keeps the context, or makes a fresh one. -/
theorem advance_context {fiber : Fiber} {branch : Branch} {stage : Stage} {act : Act} {effect : Effect}
    (advanced : Scheduler.advance fiber branch stage act = some effect) (leaves : stage ≠ .leave false)
    (suspended : effect.fiber.context = .suspended) (carries : effect.fiber.cb.isSome = true) :
    fiber.context = .suspended ∧ fiber.cb = effect.fiber.cb := by
  cases stage <;> cases act <;> simp only [Scheduler.advance, reduceCtorEq] at advanced
  case recycle.proceed =>
    obtain ⟨_, recycled, rfl⟩ := Option.map_eq_some_iff.mp advanced
    obtain ⟨_, rfl⟩ := Fiber.reset_eq_some recycled
    cases suspended
  case leave.proceed done =>
    cases done with
    | false => exact absurd rfl leaves
    | true =>
      cases advanced
      cases suspended
  all_goals grind

/-- A body is entered from the switch, and left from itself. -/
theorem advance_inBody {fiber : Fiber} {branch : Branch} {stage later : Stage} {act : Act} {effect : Effect}
    (advanced : Scheduler.advance fiber branch stage act = some effect) (pc : effect.pc = .task later branch)
    (inBody : later.inBody = true) :
    stage = .switch ∧ effect.fiber = fiber ∨
      stage = .exec ∧ (act = .yieldToReady ∨ act = .yieldToHold) ∧ effect.fiber.cb = fiber.cb := by
  cases stage <;> cases act <;> simp only [Scheduler.advance, reduceCtorEq] at advanced
  case recycle.proceed =>
    obtain ⟨_, recycled, rfl⟩ := Option.map_eq_some_iff.mp advanced
    cases pc
  all_goals grind [Stage.inBody]

/-- The worker takes a step on its fiber that is no switch to a body or away from one. -/
theorem Sound.task_outside (sound : s.Sound) {branch : Branch} {stage : Stage} {g : FiberId} {act : Act}
    {effect : Effect} (labelled : s.label tid w = some (.task w act))
    (stepped : step tid s.state (.task w act) = some (s.state.apply (tid w) w branch g effect))
    (running : (s.state.worker w).pc = .task stage branch) (owned : (s.state.worker w).fiberOf branch = some g)
    (advanced : Scheduler.advance (s.state.heap g) branch stage act = some effect)
    (leaves : stage ≠ .leave false) (switches : stage ≠ .switch) (inside : stage ≠ .exec) :
    Sound { s with state := s.state.apply (tid w) w branch g effect } := by
  refine sound.outside labelled stepped (turn_task tid sound.ledger running owned advanced) rfl
    (fun f later on => ?_) fun f suspended carries => ?_
  · by_contra inBody
    obtain ⟨same, _⟩ | ⟨same, _⟩ := advance_inBody advanced (after_on owned advanced on).2 (by simpa using inBody)
    · exact switches same
    · exact inside same
  rcases eq_or_ne f g with rfl | other
  · simp only [State.apply, Function.update_self] at suspended carries ⊢
    exact advance_context advanced leaves suspended carries
  · simp only [State.apply, Function.update_of_ne other] at suspended ⊢
    exact ⟨suspended, trivial⟩

theorem Sound.task_inside (sound : s.Sound) {branch : Branch} {stage : Stage} {g : FiberId} {act : Act}
    {effect : Effect} (labelled : s.label tid w = some (.task w act))
    (stepped : step tid s.state (.task w act) = some (s.state.apply (tid w) w branch g effect))
    (running : (s.state.worker w).pc = .task stage branch) (owned : (s.state.worker w).fiberOf branch = some g)
    (advanced : Scheduler.advance (s.state.heap g) branch stage act = some effect)
    (leaves : stage ≠ .leave false) (cont : Option (Cont I)) (ran : List (Cont I))
    (follows : ∀ later, effect.pc = .task later branch → later.inBody = true → Continues effect.fiber cont) :
    Sound { s with
      state := s.state.apply (tid w) w branch g effect
      control := Function.update s.control w cont
      ran := ran } := by
  refine sound.keeps (label_yields labelled) (label_ne_newFiber labelled) stepped sound.bodies
    (fun f suspended carries => ?_)
    (sound.turn (turn_task tid sound.ledger running owned advanced)
      (fun other distinct => Function.update_of_ne distinct ..) fun f later on inBody => ?_)
  · rcases eq_or_ne f g with rfl | other
    · simp only [State.apply, Function.update_self] at suspended carries ⊢
      obtain ⟨context, cb⟩ := advance_context advanced leaves suspended carries
      obtain ⟨c, p, kept, same⟩ := sound.saved f context (by rw [cb]; exact carries)
      exact ⟨c, p, kept, cb ▸ same⟩
    · simp only [State.apply, Function.update_of_ne other] at suspended carries ⊢
      exact sound.saved f suspended carries
  · obtain ⟨rfl, pc⟩ := after_on owned advanced on
    simp only [State.apply, Function.update_self]
    exact follows later pc inBody

/-- The context of a body that yields is saved in its fiber. -/
theorem Sound.task_saves (sound : s.Sound) {branch : Branch} {g : FiberId} {act : Act}
    {effect : Effect} (labelled : s.label tid w = some (.task w act))
    (stepped : step tid s.state (.task w act) = some (s.state.apply (tid w) w branch g effect))
    (running : (s.state.worker w).pc = .task (.leave false) branch)
    (owned : (s.state.worker w).fiberOf branch = some g)
    (advanced : Scheduler.advance (s.state.heap g) branch (.leave false) act = some effect) :
    Sound { s with
      state := s.state.apply (tid w) w branch g effect
      saved := Function.update s.saved g (s.control w)
      control := Function.update s.control w none } := by
  have follows := sound.control w g (.leave false) ⟨branch, running, owned⟩ rfl
  have kept : effect.fiber.cb = (s.state.heap g).cb := by
    cases act <;> simp only [Scheduler.advance, reduceCtorEq] at advanced
    cases advanced
    rfl
  refine sound.keeps (label_yields labelled) (label_ne_newFiber labelled) stepped sound.bodies
    (fun f suspended carries => ?_)
    (sound.turn (turn_task tid sound.ledger running owned advanced)
      (fun other distinct => Function.update_of_ne distinct ..) fun f later on inBody => ?_)
  · rcases eq_or_ne f g with rfl | other
    · simp only [State.apply, Function.update_self]
      obtain ⟨c, p, same, cb⟩ := follows
      exact ⟨c, p, same, kept.trans cb⟩
    · simp only [State.apply, Function.update_of_ne other] at suspended carries ⊢
      exact sound.saved f suspended carries
  · obtain ⟨same, _⟩ | ⟨same, _⟩ := advance_inBody advanced (after_on owned advanced on).2 inBody <;> cases same

/-- The worker looks for an entry, and is in no body. -/
theorem scan_sound (sound : s.Sound) (pc : (s.state.worker w).pc = .scan) (stepped : s.work prog tid w = some next) :
    next.Sound := by
  obtain ⟨label, labelled, moved, same⟩ := work_step stepped
  rw [same]
  generalize next.state = t at moved
  have next_label := labelled
  simp only [note, pc]
  simp only [Running.label, pc, Option.some.injEq] at next_label
  subst next_label
  obtain ⟨_, ⟨ft, left, _, rfl⟩ | ⟨_, rfl⟩⟩ := step_scan moved
  all_goals exact sound.aside labelled moved rfl rfl rfl fun stage branch running => by cases running

/-- The worker turns to a task that it has picked. -/
theorem branch_sound (sound : s.Sound) {ft : Option Entry} (pc : (s.state.worker w).pc = .branch ft)
    (stepped : s.work prog tid w = some next) : next.Sound := by
  obtain ⟨label, labelled, moved, same⟩ := work_step stepped
  rw [same]
  generalize next.state = t at moved
  have next_label := labelled
  simp only [note, pc]
  simp only [Running.label, pc, Option.some.injEq] at next_label
  subst next_label
  have entering {own : Worker} {branch : Branch} (starts : own.pc = .task .enter branch) (f : FiberId) (stage : Stage)
      (on : own.On f stage) : stage.inBody = false := by
    obtain ⟨_, running, _⟩ := on
    cases starts.symm.trans running
    rfl
  obtain ⟨g, thread, _, rfl⟩ | ⟨c, thread, g, _, owned, _, rfl⟩ | ⟨c, thread, _, _, rfl⟩ |
    ⟨_, ⟨rfl, _⟩ | ⟨rfl, _⟩⟩ := step_branch moved
  · exact sound.aside labelled moved rfl rfl rfl fun stage branch running => by cases running; rfl
  · refine sound.outside labelled moved (turn_recycle sound.ledger owned _ _) rfl (entering rfl)
      fun f suspended _ => ?_
    have other : f ≠ g := by
      rintro rfl
      simp [State.setWorker, State.setFiber] at suspended
    simp only [State.setWorker, State.setFiber, Function.update_of_ne other] at suspended ⊢
    exact ⟨suspended, trivial⟩
  · refine sound.outside labelled moved (turn_create sound.known w _ _) rfl (entering rfl) fun f suspended _ => ?_
    have other : f ≠ s.state.nextFiber := by
      rintro rfl
      simp [State.setWorker, State.setFiber, Fiber.create] at suspended
    simp only [State.setWorker, State.setFiber, Function.update_of_ne other] at suspended ⊢
    exact ⟨suspended, trivial⟩
  all_goals exact sound.aside labelled moved rfl rfl rfl fun stage branch running => by cases running

/-- The body that the worker is in takes its next instruction, or ends. -/
theorem exec_sound (sound : s.Sound) {branch : Branch} (pc : (s.state.worker w).pc = .task .exec branch)
    (stepped : s.work prog tid w = some next) : next.Sound := by
  obtain ⟨label, labelled, moved, same⟩ := work_step stepped
  rw [same]
  generalize next.state = t at moved
  have next_label := labelled
  obtain ⟨g, owned⟩ := sound.owns w .exec branch pc
  obtain ⟨c, ⟨steps, throws⟩, follows, cb⟩ := sound.control w g .exec ⟨branch, pc, owned⟩ rfl
  simp only [note, pc, follows]
  simp only [Running.label, pc, follows] at next_label
  cases steps with
  | cons instruction rest =>
    cases instruction with
    | schedule body own =>
      cases next_label
      obtain ⟨_, _, rfl⟩ := step_schedule moved
      have still : Turn s.state (s.state.accept (if own then tid w else -1) .callback) w (s.state.worker w) :=
        ⟨by simp [accept_worker], fun _ _ => .inl (by rw [accept_heap])⟩
      refine sound.keeps (label_yields labelled) (label_ne_newFiber labelled) moved
        (by simp [State.accept, sound.bodies]) (fun f => ?_)
        (sound.turn still (fun other distinct => Function.update_of_ne distinct ..) fun f stage on _ => ?_)
      · simp only [accept_heap]
        exact sound.saved f
      · obtain ⟨_, running, holds⟩ := on
        cases pc.symm.trans running
        cases owned.symm.trans holds
        simp only [accept_heap, Function.update_self]
        exact ⟨c, _, rfl, cb⟩
    | yieldToReady =>
      cases next_label
      obtain ⟨_, _, g', effect, running, owned', advanced, rfl⟩ := step_task moved
      cases pc.symm.trans running
      cases owned.symm.trans owned'
      refine sound.task_inside labelled moved pc owned advanced (by simp) _ _ fun later pc inBody => ?_
      obtain ⟨elsewhere, _⟩ | ⟨_, _, kept⟩ := advance_inBody advanced pc inBody
      · cases elsewhere
      · exact ⟨c, _, rfl, kept.trans cb⟩
  | nil =>
    cases next_label
    obtain ⟨_, _, g', effect, running, owned', advanced, rfl⟩ := step_task moved
    cases pc.symm.trans running
    cases owned.symm.trans owned'
    refine sound.task_inside labelled moved pc owned advanced (by simp) _ _ fun later pc inBody => ?_
    obtain ⟨elsewhere, _⟩ | ⟨_, acts, _⟩ := advance_inBody advanced pc inBody
    · cases elsewhere
    · cases throws <;> rcases acts with acts | acts <;> cases acts

theorem idle_sound (sound : s.Sound) (pc : (s.state.worker w).pc = .idle) (stepped : s.work prog tid w = some next) :
    next.Sound := by
  obtain ⟨label, labelled, moved, same⟩ := work_step stepped
  rw [same]
  generalize next.state = t at moved
  have next_label := labelled
  simp only [note, pc]
  simp only [Running.label, pc, Option.some.injEq] at next_label
  subst next_label
  obtain ⟨_, rfl⟩ := step_idle moved
  exact sound.aside labelled moved rfl rfl rfl fun stage branch running => by cases running

/-- The worker takes a step of its own on a fiber. -/
theorem task_sound (sound : s.Sound) {stage : Stage} {branch : Branch} (pc : (s.state.worker w).pc = .task stage branch)
    (body : stage ≠ .exec) (stepped : s.work prog tid w = some next) : next.Sound := by
  obtain ⟨label, labelled, moved, same⟩ := work_step stepped
  rw [same]
  generalize next.state = t at moved
  cases (label_task pc body).symm.trans labelled
  obtain ⟨_, _, g, effect, running, owned, advanced, rfl⟩ := step_task moved
  cases pc.symm.trans running
  cases stage with
  | exec => exact absurd rfl body
  | switch =>
    simp only [note, pc, owned, Option.bind_some]
    refine sound.task_inside labelled moved running owned advanced (by simp) _ _ fun later pc inBody => ?_
    obtain ⟨_, same⟩ | ⟨elsewhere, _⟩ := advance_inBody advanced pc inBody
    · rw [same]
      exact sound.target prog running owned
    · cases elsewhere
  | leave done =>
    cases done with
    | true =>
      rw [note_task pc rfl (by simp)]
      exact sound.task_outside labelled moved running owned advanced (by simp) (by simp) (by simp)
    | false =>
      simp only [note, pc, owned]
      exact sound.task_saves labelled moved running owned advanced
  | _ =>
    rw [note_task pc rfl (by simp)]
    exact sound.task_outside labelled moved running owned advanced (by simp) (by simp) (by simp)

theorem work_sound (sound : s.Sound) (stepped : s.work prog tid w = some next) : next.Sound := by
  cases pc : (s.state.worker w).pc with
  | scan => exact scan_sound sound pc stepped
  | branch ft => exact branch_sound sound pc stepped
  | idle => exact idle_sound sound pc stepped
  | exited =>
    obtain ⟨label, labelled, _⟩ := work_step stepped
    simp only [Running.label, pc] at labelled
    cases labelled
  | task stage branch =>
    by_cases body : stage = .exec
    · subst body
      exact exec_sound sound pc stepped
    · exact task_sound sound pc body stepped

theorem sound_initial : (initial n I).Sound where
  ledger := ledger_initial
  known f _ := places_initial f
  carrying := Reading.balanced_initial carrying_lawful
  waiting := Reading.balanced_initial waiting_lawful
  pooled f known := absurd known (Nat.not_lt_zero f)
  owns _ _ _ := nofun
  bodies := rfl
  saved _ := nofun
  control _ _ _ on := by
    obtain ⟨_, running, _⟩ := on
    cases running

theorem give_sound (sound : s.Sound) (body : I) (thread : Int) : (s.give body thread).Sound := by
  have given : step (fun _ => 0) s.state (.schedule none .callback thread) = some (s.give body thread).state := rfl
  have yields : YieldsOnly s.state (.schedule none .callback thread) :=
    ⟨nofun, fun f named => absurd named (Nat.lt_irrefl 0)⟩
  exact sound.keeps yields nofun given (by simp [give, State.accept, sound.bodies]) sound.saved sound.control

/-- The flags of the scheduler are read by the idle fibers only. -/
theorem flags_sound (sound : s.Sound) (autoStop stopping : Bool) :
    Sound { s with state := { s.state with autoStop := autoStop, stopping := stopping } } where
  ledger := ⟨sound.ledger.user, sound.ledger.single, sound.ledger.sound, sound.ledger.parked⟩
  known := sound.known
  carrying := sound.carrying
  waiting := sound.waiting
  pooled := sound.pooled
  owns := sound.owns
  bodies := sound.bodies
  saved := sound.saved
  control := sound.control

/-- On a fiber that fits its stage no assertion fails. -/
theorem advance_able {fiber : Fiber} {branch : Branch} {stage : Stage} {act : Act} (fits : stage.Fits branch fiber)
    (acts : stage = .exec ↔ act ≠ .proceed) : ∃ effect, Scheduler.advance fiber branch stage act = some effect := by
  cases stage with
  | exec =>
    have suspends := acts.mp rfl
    cases act with
    | proceed => exact absurd rfl suspends
    | _ => exact ⟨_, rfl⟩
  | enter =>
    obtain rfl : act = .proceed := by simpa using acts
    obtain ⟨state, _⟩ := fits
    exact ⟨_, if_neg (by rcases state with same | same <;> rw [same] <;> decide)⟩
  | switch =>
    obtain rfl : act = .proceed := by simpa using acts
    obtain ⟨_, context, _⟩ := fits
    cases branch <;> simp [Scheduler.advance, context, Branch.entry]
  | settle =>
    obtain rfl : act = .proceed := by simpa using acts
    cases state : fiber.state <;> cases branch <;> simp [Scheduler.advance, state]
  | recycle =>
    obtain rfl : act = .proceed := by simpa using acts
    have able : fiber.state.resettable = true := by
      cases state : fiber.state <;> simp_all [Stage.Fits, Fiber.State.over, Fiber.State.resettable]
    simp [Scheduler.advance, Fiber.reset, able]
  | leave | back | requeue | hold =>
    obtain rfl : act = .proceed := by simpa using acts
    exact ⟨_, rfl⟩

/-- No assertion fails: a worker has a next step until `run` returns. -/
theorem work_able (sound : s.Sound) (prog : I → Program I) (tid : Fin n → Int)
    (live : (s.state.worker w).pc ≠ .exited) :
    ∃ next, s.work prog tid w = some next := by
  suffices able : ∃ label, s.label tid w = some label ∧ (step tid s.state label).isSome = true by
    obtain ⟨label, labelled, able⟩ := able
    obtain ⟨t, moved⟩ := Option.isSome_iff_exists.mp able
    exact ⟨_, by rw [work, labelled, Option.bind_some, moved, Option.map_some]⟩
  cases pc : (s.state.worker w).pc with
  | exited => exact absurd pc live
  | scan => exact ⟨.scan w, by simp [Running.label, pc], by simp [step, pc]⟩
  | idle => exact ⟨.idle w s.state.verdict, by simp [Running.label, pc], by simp [step, pc]⟩
  | branch ft =>
    have chosen : (s.state.choose w ft).isSome = true := by
      cases ft with
      | none => cases ended : (s.state.worker w).idleOver <;> simp [State.choose, ended]
      | some entry =>
        obtain ⟨task, thread⟩ := entry
        cases task with
        | fiber f => simp [State.choose]
        | cb c =>
          cases owned : (s.state.worker w).cbFiber with
          | none => simp [State.choose, owned]
          | some f =>
            have spare := (sound.ledger.sound w).spare f owned (by simp [pc])
            simp [State.choose, owned, Fiber.reset, spare.1, Fiber.State.resettable]
    exact ⟨.branch w, by simp [Running.label, pc], by simp only [step, pc, chosen]⟩
  | task stage branch =>
    obtain ⟨g, owned⟩ := sound.owns w stage branch pc
    have fits := sound.fits pc owned
    have moves (act : Act) (acts : stage = .exec ↔ act ≠ .proceed) :
        (step tid s.state (.task w act)).isSome = true := by
      obtain ⟨effect, advanced⟩ := advance_able fits acts
      simp [step, pc, owned, advanced]
    by_cases body : stage = .exec
    · subst body
      obtain ⟨c, ⟨steps, throws⟩, follows, _⟩ := sound.control w g .exec ⟨branch, pc, owned⟩ rfl
      cases steps with
      | cons instruction rest =>
        cases instruction with
        | schedule body own =>
          exact ⟨.schedule (some w) .callback (if own then tid w else -1), by simp only [Running.label, pc, follows],
            by simp [step, State.mayCall, State.knows, pc]⟩
        | yieldToReady =>
          exact ⟨.task w .yieldToReady, by simp only [Running.label, pc, follows], moves .yieldToReady (by simp)⟩
      | nil =>
        exact ⟨.task w (if throws then .throws else .returns), by simp only [Running.label, pc, follows],
          moves _ (by cases throws <;> simp)⟩
    · exact ⟨.task w .proceed, label_task pc body, moves .proceed (by simp [body])⟩

/-! ## What the step of a worker leaves alone -/

/-- The step of a worker leaves the contexts of the others alone, and only adds bodies. -/
structure Frame (s next : Running n I) (w : Fin n) (own : Worker) : Prop where
  turn : Turn s.state next.state w own
  control : ∀ other, other ≠ w → next.control other = s.control other
  saved : ∀ f, Elsewhere s.state w f → next.saved f = s.saved f
  bodies : ∃ more, next.bodies = s.bodies ++ more

theorem Sound.work_turn (sound : s.Sound) {label : Label n} {t : State n} (labelled : s.label tid w = some label)
    (moved : step tid s.state label = some t) : ∃ own, Turn s.state t w own := by
  cases pc : (s.state.worker w).pc with
  | scan =>
    simp only [Running.label, pc, Option.some.injEq] at labelled
    subst labelled
    obtain ⟨_, ⟨ft, left, _, rfl⟩ | ⟨_, rfl⟩⟩ := step_scan moved
    all_goals exact ⟨_, rfl, fun _ _ => .inl rfl⟩
  | branch ft =>
    simp only [Running.label, pc, Option.some.injEq] at labelled
    subst labelled
    obtain ⟨g, thread, _, rfl⟩ | ⟨c, thread, g, _, owned, _, rfl⟩ | ⟨c, thread, _, _, rfl⟩ |
      ⟨_, ⟨rfl, _⟩ | ⟨rfl, _⟩⟩ := step_branch moved
    · exact ⟨_, rfl, fun _ _ => .inl rfl⟩
    · exact ⟨_, turn_recycle sound.ledger owned _ _⟩
    · exact ⟨_, turn_create sound.known w _ _⟩
    all_goals exact ⟨_, rfl, fun _ _ => .inl rfl⟩
  | idle =>
    simp only [Running.label, pc, Option.some.injEq] at labelled
    subst labelled
    obtain ⟨_, rfl⟩ := step_idle moved
    exact ⟨_, rfl, fun _ _ => .inl rfl⟩
  | exited =>
    simp only [Running.label, pc] at labelled
    cases labelled
  | task stage branch =>
    have on_task {act : Act} (moved : step tid s.state (.task w act) = some t) : ∃ own, Turn s.state t w own := by
      obtain ⟨_, _, g, effect, running, owned, advanced, rfl⟩ := step_task moved
      exact ⟨_, turn_task tid sound.ledger running owned advanced⟩
    by_cases body : stage = .exec
    · subst body
      simp only [Running.label, pc] at labelled
      split at labelled <;> cases labelled
      · obtain ⟨_, _, rfl⟩ := step_schedule moved
        exact ⟨s.state.worker w, by simp [accept_worker], fun _ _ => .inl (by rw [accept_heap])⟩
      · exact on_task moved
      · exact on_task moved
    · cases (label_task pc body).symm.trans labelled
      exact on_task moved

theorem work_frame (sound : s.Sound) (stepped : s.work prog tid w = some next) : ∃ own, Frame s next w own := by
  obtain ⟨label, labelled, moved, same⟩ := work_step stepped
  obtain ⟨own, turn⟩ := sound.work_turn labelled moved
  refine ⟨own, turn, fun other distinct => ?_, fun f elsewhere => ?_, ?_⟩
  · rw [same, note]
    repeat' split
    all_goals first | rfl | exact Function.update_of_ne distinct ..
  · rw [same, note]
    split
    case h_2 => split <;> rfl
    case h_3 branch pc =>
      split
      next g owned =>
        have on : StageOn s.state w g (.leave false) := ⟨branch, pc, owned⟩
        refine Function.update_of_ne ?_ ..
        rintro rfl
        exact sound.ledger.not_elsewhere (sound.pooled_of_refs on.refs_pos) on.refs_pos elsewhere
      next => rfl
    all_goals rfl
  · rw [same, note]
    split
    case h_2 =>
      split
      next body _ _ _ _ => exact ⟨[body], rfl⟩
      all_goals exact ⟨[], (List.append_nil _).symm⟩
    case h_3 => split <;> exact ⟨[], (List.append_nil _).symm⟩
    all_goals exact ⟨[], (List.append_nil _).symm⟩

/-- What an entry stands for does not change while it is in the queue. -/
theorem Sound.pending (sound : s.Sound) (prog : I → Program I) (bodies : ∃ more, next.bodies = s.bodies ++ more)
    {ft : Entry} (entry : ft ∈ s.state.fibers) (saved : ∀ f, ft.task = .fiber f → next.saved f = s.saved f) :
    next.pending prog ft.task = s.pending prog ft.task := by
  cases task : ft.task with
  | fiber f => exact saved f task
  | cb c =>
    have present : 0 < Scheduler.carrying.entries s.state.heap c s.state.fibers :=
      List.countP_pos_iff.mpr ⟨ft, entry, by simp [task, Reading.entry]⟩
    obtain ⟨more, bodies⟩ := bodies
    simp [Running.pending, begins, bodies, List.getElem?_append_left (sound.given (.inl present))]

theorem Frame.pending {own : Worker} (frame : Frame s next w own) (sound : s.Sound) (prog : I → Program I) {ft : Entry}
    (entry : ft ∈ s.state.fibers) : next.pending prog ft.task = s.pending prog ft.task :=
  sound.pending prog frame.bodies entry fun f task =>
    frame.saved f (.inl (List.countP_pos_iff.mpr ⟨ft, entry, by simp [task]⟩))

end Running
end HpsSf.Scheduler
