import HpsSf.Scheduler.Callbacks

/-! Every callback given to a scheduler is in one place, and its body is entered once.

Two readings of a state are followed through every run: which callback an entry
or a worker still has to finish, and which one it still has to start. For each,
the places that read a callback and its mentions in the history add up to one.
-/

set_option autoImplicit false

namespace HpsSf.Scheduler
open Foundation

variable {n : Nat} {tid : Fin n → Int} {s next : State n}

/-- A callback found at a fiber that is in the queue or taken from it, at a fiber
its worker is on, or in what a step adds to the history. -/
structure Reading where
  parked : Fiber → Option Callback
  running : Stage → Branch → Fiber → Option Callback
  logged : Effect → Option Callback
  log : List (Callback × Int) → List Callback → List Callback

/-- What is still to be finished; the history is that of the finished callbacks. -/
def carrying : Reading where
  parked := Fiber.carried
  running _ _ := Fiber.carried
  logged := Effect.finished
  log _ finished := finished

/-- What is still to be started; the history is that of the entered bodies. -/
def waiting : Reading where
  parked _ := none
  running
    | .enter, .callback, fiber | .switch, .callback, fiber => fiber.cb
    | _, _, _ => none
  logged := Effect.started
  log startedOn _ := startedOn.map Prod.fst

namespace Reading

/-- What a place reads after a step of its worker: the queue entry it made, or the worker. -/
def after (reading : Reading) (effect : Effect) : Option Callback :=
  if effect.requeues then reading.parked effect.fiber
  else
    match effect.pc with
    | .task later branch => reading.running later branch effect.fiber
    | _ => none

/-- A reading is carried along by every step, or goes into the history. -/
structure Lawful (reading : Reading) : Prop where
  quiet : ∀ fiber : Fiber, fiber.cb = none → reading.parked fiber = none ∧
    ∀ stage branch, reading.running stage branch fiber = none
  resumed : ∀ f fiber, reading.running .enter (.fiber f) fiber = reading.parked fiber
  given : ∀ c pooled, reading.running .enter .callback ⟨.init, .fresh, some c, pooled⟩ = some c
  unlogged : ∀ {fiber : Fiber} {branch stage act effect}, fiber.cb = none →
    advance fiber branch stage act = some effect → reading.logged effect = none
  worked : ∀ {fiber : Fiber} {branch stage act effect}, stage.Fits branch fiber → act ≠ .yieldToHold →
    advance fiber branch stage act = some effect →
      reading.logged effect = none ∧ reading.after effect = reading.running stage branch fiber ∨
        reading.logged effect = reading.running stage branch fiber ∧ reading.after effect = none
  empty : reading.log [] [] = []
  logs : ∀ (s : State n) self w branch f effect, reading.log (s.apply self w branch f effect).startedOn
    (s.apply self w branch f effect).finished =
      reading.log s.startedOn s.finished ++ (reading.logged effect).toList

def entry (reading : Reading) (heap : FiberId → Fiber) : Task FiberId Callback → Option Callback
  | .cb c => some c
  | .fiber f => reading.parked (heap f)

/-- What the worker has at hand, its spare fiber apart. -/
def hand (reading : Reading) (heap : FiberId → Fiber) (worker : Worker) : Option Callback :=
  match worker.pc with
  | .branch (some ft) => reading.entry heap ft.task
  | .task stage branch =>
      match worker.fiberOf branch with
      | some f => reading.running stage branch (heap f)
      | none => none
  | .scan | .branch none | .idle | .exited => none

/-- The queue entries that read this callback. -/
def entries (reading : Reading) (heap : FiberId → Fiber) (c : Callback) (fibers : List Entry) : Nat :=
  fibers.countP fun ft => reading.entry heap ft.task = some c

def holds (c : Callback) (read : Option Callback) : Nat := if read = some c then 1 else 0

/-- The workers that have this callback at hand. -/
def holders (reading : Reading) (c : Callback) (s : State n) : Nat :=
  tally fun w => holds c (reading.hand s.heap (s.worker w))

/-- Whether the callback of this number has been given to `schedule`. -/
def given (pins : List Int) (c : Nat) : Nat := if c < pins.length then 1 else 0

/-- A callback that has been given is in one place of the reading; one that has not, in none. -/
def Balanced (reading : Reading) (s : State n) : Prop :=
  ∀ c, reading.entries s.heap c s.fibers + reading.holders c s +
    (reading.log s.startedOn s.finished).count c = given s.pins c

end Reading

theorem carrying_lawful : carrying.Lawful (n := n) where
  quiet fiber none := by simp [carrying, Fiber.carried, none]
  resumed _ _ := rfl
  given _ _ := rfl
  unlogged none advanced := (advance_user advanced none).2.2
  worked {fiber branch stage act effect} fits yields advanced := by
    cases stage <;> cases act <;> simp only [advance, reduceCtorEq] at advanced
    case recycle.proceed =>
      obtain ⟨after, recycled, rfl⟩ := Option.map_eq_some_iff.mp advanced
      obtain ⟨_, rfl⟩ := Fiber.reset_eq_some recycled
      have ended : fiber.state.over = true := fits
      exact .inl ⟨rfl, by simp [carrying, Reading.after, Fiber.carried, ended]⟩
    all_goals
      simp only [carrying, Reading.after]
      grind [Stage.Fits, Fiber.Parked, Fiber.carried, Fiber.State.over]
  empty := rfl
  logs _ _ _ _ _ _ := rfl

theorem waiting_lawful : waiting.Lawful (n := n) where
  quiet fiber none := by
    refine ⟨rfl, fun stage branch => ?_⟩
    cases stage <;> cases branch <;> first | rfl | exact none
  resumed _ _ := rfl
  given _ _ := rfl
  unlogged none advanced := (advance_user advanced none).2.1
  worked {fiber branch stage act effect} fits yields advanced := by
    cases stage <;> cases act <;> simp only [advance, reduceCtorEq] at advanced
    case recycle.proceed =>
      obtain ⟨after, recycled, rfl⟩ := Option.map_eq_some_iff.mp advanced
      exact .inl ⟨rfl, rfl⟩
    all_goals
      simp only [waiting, Reading.after]
      cases branch <;> grind [Stage.Fits, Branch.entry]
  empty := rfl
  logs s self w branch f effect := by
    cases started : effect.started <;> simp [waiting, State.apply, started]

namespace Reading
variable {reading : Reading}

theorem entry_of_alike (law : reading.Lawful (n := n)) {heap after : FiberId → Fiber}
    {task : Task FiberId Callback} (alike : ∀ f, task = .fiber f → (heap f).Alike (after f)) :
    reading.entry after task = reading.entry heap task := by
  cases task with
  | cb c => rfl
  | fiber f =>
    rcases alike f rfl with same | ⟨⟨_, first⟩, _, second⟩
    · rw [entry, entry, same]
    · rw [entry, entry, (law.quiet _ first).1, (law.quiet _ second).1]

theorem hand_of_alike (law : reading.Lawful (n := n)) {heap after : FiberId → Fiber} {worker : Worker}
    (alike : ∀ f, 0 < worker.refs f → (heap f).Alike (after f)) :
    reading.hand after worker = reading.hand heap worker := by
  obtain ⟨pc, cbFiber, idleOver⟩ := worker
  cases pc with
  | branch ft =>
    cases ft with
    | none => rfl
    | some ft =>
      exact entry_of_alike law fun f same => alike f (by simp [Worker.refs, Pc.refs, same])
  | task stage branch =>
    simp only [hand]
    cases owned : Worker.fiberOf ⟨.task stage branch, cbFiber, idleOver⟩ branch with
    | none => rfl
    | some f =>
      have on : Worker.On ⟨.task stage branch, cbFiber, idleOver⟩ f stage := ⟨branch, rfl, owned⟩
      rcases alike f on.refs_pos with same | ⟨⟨_, first⟩, _, second⟩
      · simp only [same]
      · simp only [(law.quiet _ first).2, (law.quiet _ second).2]
  | _ => rfl

theorem entries_of_alike (law : reading.Lawful (n := n)) {heap after : FiberId → Fiber}
    (fibers : List Entry) (alike : ∀ f, 0 < queued f fibers → (heap f).Alike (after f)) (c : Callback) :
    reading.entries after c fibers = reading.entries heap c fibers := by
  refine List.countP_congr fun ft member => ?_
  rw [entry_of_alike law fun f same => alike f ?_]
  exact List.countP_pos_iff.mpr ⟨ft, member, by simp [same]⟩

@[simp] theorem entries_append (heap : FiberId → Fiber) (c : Callback) (front rest : List Entry) :
    reading.entries heap c (front ++ rest) = reading.entries heap c front + reading.entries heap c rest :=
  List.countP_append

@[simp] theorem entries_one (heap : FiberId → Fiber) (c : Callback) (ft : Entry) :
    reading.entries heap c [ft] = holds c (reading.entry heap ft.task) := by
  by_cases same : reading.entry heap ft.task = some c <;> simp [entries, holds, same]

theorem entries_pick (reading : Reading) {self : Int} {state : FiberId → Fiber.State} {fibers left : List Entry} {ft : Entry}
    (picked : pick self state fibers = some (ft, left)) (heap : FiberId → Fiber) (c : Callback) :
    reading.entries heap c fibers =
      holds c (reading.entry heap ft.task) + reading.entries heap c left := by
  rw [← entries_one, ← entries_append]
  exact (pick_perm picked).countP_eq _

@[simp] theorem holds_none (c : Callback) : holds c none = 0 := rfl

theorem count_toList (c : Callback) (read : Option Callback) : read.toList.count c = holds c read := by
  cases read with
  | none => rfl
  | some d => by_cases same : d = c <;> simp [holds, same]

/-- In a turn of one worker, what the queue, that worker and the history read
changes by what they exchange. -/
theorem Balanced.turn (law : reading.Lawful (n := n)) (balanced : reading.Balanced s) {w : Fin n}
    {own : Worker} (turn : Turn s next w own) (pins : next.pins = s.pins)
    (exchange : ∀ c, reading.entries next.heap c next.fibers + holds c (reading.hand next.heap own) +
        (reading.log next.startedOn next.finished).count c =
      reading.entries s.heap c s.fibers + holds c (reading.hand s.heap (s.worker w)) +
        (reading.log s.startedOn s.finished).count c) : reading.Balanced next := by
  intro c
  -- The other workers hold what they held: this turn frames all of their fibers.
  have change : reading.holders c next + holds c (reading.hand s.heap (s.worker w)) =
      reading.holders c s + holds c (reading.hand next.heap (next.worker w)) :=
    tally_change (fun other => holds c (reading.hand s.heap (s.worker other)))
      (fun other => holds c (reading.hand next.heap (next.worker other))) w fun other distinct => by
      rw [turn.worker, Function.update_of_ne distinct,
        hand_of_alike law fun f present => turn.frame f (.inr ⟨other, distinct, present⟩)]
  rw [show next.worker w = own from by rw [turn.worker, Function.update_self]] at change
  have before := balanced c
  have traded := exchange c
  rw [pins]
  omega

/-- A turn that leaves the queue and the history alone keeps what the worker has at hand. -/
theorem Balanced.turn_hand (law : reading.Lawful (n := n)) (balanced : reading.Balanced s) {w : Fin n}
    {own : Worker} (turn : Turn s next w own) (pins : next.pins = s.pins)
    (fibers : next.fibers = s.fibers)
    (log : reading.log next.startedOn next.finished = reading.log s.startedOn s.finished)
    (same : reading.hand next.heap own = reading.hand s.heap (s.worker w)) : reading.Balanced next := by
  refine balanced.turn law turn pins fun c => ?_
  rw [fibers, entries_of_alike law _ fun f entry => turn.frame f (.inl entry), log, same]

/-- A step that moves no worker and finishes nothing only adds entries. -/
theorem Balanced.calm (law : reading.Lawful (n := n)) (balanced : reading.Balanced s)
    (worker : next.worker = s.worker) (frame : ∀ f, 0 < places f s → (s.heap f).Alike (next.heap f))
    (log : reading.log next.startedOn next.finished = reading.log s.startedOn s.finished)
    (gain : ∀ c, reading.entries next.heap c next.fibers + given s.pins c =
      reading.entries s.heap c s.fibers + given next.pins c) :
    reading.Balanced next := by
  intro c
  have same : reading.holders c next = reading.holders c s := tally_congr fun w => by
    rw [worker, hand_of_alike law fun f present => frame f (places_pos_of_refs present)]
  have before := balanced c
  have added := gain c
  rw [same, log]
  omega

theorem balanced_initial (law : reading.Lawful (n := n)) : reading.Balanced (State.initial n) := by
  intro c
  have none : reading.holders c (State.initial n) = 0 := (tally_eq_zero_iff _).mpr fun _ => rfl
  rw [none, State.initial, law.empty]
  rfl

theorem given_le_one (pins : List Int) (c : Nat) : given pins c ≤ 1 := by
  rw [given]
  split <;> omega

@[simp] theorem given_append (pins : List Int) (thread : Int) (c : Nat) :
    given (pins ++ [thread]) c = given pins c + holds c (some pins.length) := by
  rcases Nat.lt_trichotomy c pins.length with below | same | above
  · simp [given, holds, below, Nat.ne_of_gt below, Nat.lt_succ_of_lt below]
  · simp [given, holds, same]
  · simp [given, holds, Nat.ne_of_lt above, Nat.not_lt.mpr (Nat.le_of_lt above), Nat.not_lt.mpr above]

theorem Balanced.accept (law : reading.Lawful (n := n)) (balanced : reading.Balanced s) (thread : Int)
    {fc : Call} (silent : ∀ f, fc = .fiber f → (s.heap f).cb = none) :
    reading.Balanced (s.accept thread fc) := by
  refine balanced.calm law (accept_worker _ _ _) (fun f _ => .inl (by rw [accept_heap])) ?_ fun c => ?_
  · cases fc <;> rfl
  · cases fc with
    | fiber f =>
      have unread := (law.quiet _ (silent f rfl)).1
      simp [State.accept, scheduleNoLock, entry, unread]
    | callback =>
      simp only [State.accept, scheduleNoLock, entries_append, entries_one, entry, given_append]
      omega
    | empty => rfl

theorem Balanced.acceptAll (law : reading.Lawful (n := n)) (balanced : reading.Balanced s)
    {fcs : List Call} (silent : ∀ f, .fiber f ∈ fcs → (s.heap f).cb = none) :
    reading.Balanced (fcs.foldl (fun s fc => s.accept (-1) fc) s) := by
  induction fcs generalizing s with
  | nil => exact balanced
  | cons fc rest ih =>
    refine ih (balanced.accept law (-1) fun f same => silent f (same ▸ List.mem_cons_self ..)) fun f named => ?_
    rw [accept_heap]
    exact silent f (List.mem_cons_of_mem _ named)

/-- A step on any fiber moves what is read there on, or into the history. -/
theorem Lawful.exchange (law : reading.Lawful (n := n)) (ledger : Ledger s) {w : Fin n}
    {branch : Branch} {stage : Stage} {act : Act} {g : FiberId} {effect : Effect}
    (yields : act ≠ .yieldToHold) (running : (s.worker w).pc = .task stage branch)
    (owned : (s.worker w).fiberOf branch = some g)
    (advanced : advance (s.heap g) branch stage act = some effect) :
    reading.logged effect = none ∧ reading.after effect = reading.hand s.heap (s.worker w) ∨
      reading.logged effect = reading.hand s.heap (s.worker w) ∧ reading.after effect = none := by
  have before : reading.hand s.heap (s.worker w) = reading.running stage branch (s.heap g) := by
    simp only [hand, running, owned]
  rw [before]
  cases pooled : (s.heap g).pooled with
  | true => exact law.worked ((ledger.sound w).fits stage branch g running owned pooled) yields advanced
  | false =>
    have user := ledger.user g pooled
    have later := (advance_user advanced user).1
    -- A fiber of the user carries no callback, so there is nothing to read on either side.
    refine .inr ⟨by rw [law.unlogged user advanced, (law.quiet _ user).2], ?_⟩
    simp only [Reading.after, (law.quiet _ later).1, (law.quiet _ later).2]
    split
    · rfl
    · split <;> rfl

/-- What is read after the step is at the worker, unless it has put the fiber into the queue. -/
theorem hand_after (reading : Reading) {w : Fin n} {branch : Branch} {stage : Stage} {act : Act}
    {g : FiberId} {effect : Effect} (owned : (s.worker w).fiberOf branch = some g)
    (advanced : advance (s.heap g) branch stage act = some effect) :
    reading.hand (s.apply (tid w) w branch g effect).heap ((s.worker w).after branch effect) =
      if effect.requeues then none else reading.after effect := by
  rcases advance_pc advanced with ⟨later, pc, kept, unqueued⟩ | ⟨pc, _⟩
  · have same : ((s.worker w).after branch effect).fiberOf branch = some g := by rw [after_fiberOf kept, owned]
    simp [hand, same, Reading.after, unqueued, pc, State.apply]
  · cases requeues : effect.requeues <;> simp [hand, Reading.after, pc, requeues]

theorem balanced_task (law : reading.Lawful (n := n)) (ledger : Ledger s) (balanced : reading.Balanced s)
    {w : Fin n} {branch : Branch} {stage : Stage} {act : Act} {g : FiberId} {effect : Effect}
    (yields : act ≠ .yieldToHold) (running : (s.worker w).pc = .task stage branch)
    (owned : (s.worker w).fiberOf branch = some g)
    (advanced : advance (s.heap g) branch stage act = some effect) :
    reading.Balanced (s.apply (tid w) w branch g effect) := by
  have turn := turn_task tid ledger running owned advanced
  refine balanced.turn law turn rfl fun c => ?_
  have queue : reading.entries (s.apply (tid w) w branch g effect).heap c
      (s.apply (tid w) w branch g effect).fibers = reading.entries s.heap c s.fibers +
        if effect.requeues then holds c (reading.after effect) else 0 := by
    have old := entries_of_alike law _ (fun f entry => turn.frame f (.inl entry)) c
    cases requeues : effect.requeues with
    | false => simpa [State.apply, requeues] using old
    | true =>
      have grown : (s.apply (tid w) w branch g effect).fibers = s.fibers ++ [⟨.fiber g, -1⟩] := by
        simp [State.apply, scheduleNoLock, requeues]
      have here : (s.apply (tid w) w branch g effect).heap g = effect.fiber := Function.update_self ..
      rw [grown, entries_append, old, entries_one, entry, here, Reading.after, requeues]
      rfl
  have kept : holds c (reading.logged effect) + holds c (reading.after effect) =
      holds c (reading.hand s.heap (s.worker w)) := by
    rcases law.exchange ledger yields running owned advanced with ⟨unlogged, same⟩ | ⟨same, gone⟩
    · rw [unlogged, same, holds_none, Nat.zero_add]
    · rw [same, gone, holds_none, Nat.add_zero]
  rw [law.logs s (tid w) w branch g effect, List.count_append, count_toList, queue,
    reading.hand_after owned advanced]
  cases effect.requeues <;> simp only [Bool.false_eq_true, if_true, if_false, holds_none] <;> omega

theorem step_balanced (law : reading.Lawful (n := n)) (ledger : Ledger s) (known : Known s)
    (balanced : reading.Balanced s) {label : Label n} (yields : YieldsOnly s label)
    (stepped : step tid s label = some next) : reading.Balanced next := by
  cases label with
  | schedule caller fc thread =>
    obtain ⟨_, _, rfl⟩ := step_schedule stepped
    refine balanced.accept law thread fun f same => ledger.user f (yields.wakes f ?_)
    simp [Label.wakes, same, Call.wakes]
  | scheduleAll caller fcs =>
    obtain ⟨_, _, rfl⟩ := step_scheduleAll stepped
    refine balanced.acceptAll law fun f named => ledger.user f (yields.wakes f ?_)
    have one : Call.wakes f (.fiber f) ≤ (fcs.map (Call.wakes f)).sum :=
      List.single_le_sum (fun _ _ => Nat.zero_le _) _ (List.mem_map_of_mem named)
    rw [Call.wakes, if_pos rfl] at one
    exact one
  | newFiber caller =>
    cases step_newFiber stepped
    refine balanced.calm law rfl (fun f => known.frame_fresh _) rfl fun c => ?_
    have same := entries_of_alike law s.fibers (fun f entry => known.frame_fresh
      (Fiber.create none false) (Nat.lt_of_lt_of_le entry (Nat.le_add_right _ _))) c
    exact congrArg (· + given s.pins c) same
  | setAutoStop =>
    cases stepped
    exact balanced
  | setStopping =>
    cases stepped
    exact balanced
  | scan w =>
    obtain ⟨scanning, ⟨ft, left, picked, rfl⟩ | ⟨_, rfl⟩⟩ := step_scan stepped
    · refine balanced.turn law ⟨rfl, fun _ _ => .inl rfl⟩ rfl fun c => ?_
      have moved := reading.entries_pick picked s.heap c
      simp only [hand, scanning, State.setWorker, holds_none] at moved ⊢
      omega
    · refine balanced.turn_hand law ⟨rfl, fun _ _ => .inl rfl⟩ rfl rfl rfl ?_
      simp [hand, scanning]
  | branch w =>
    obtain ⟨g, thread, branching, rfl⟩ | ⟨c, thread, g, branching, owned, able, rfl⟩ |
      ⟨c, thread, branching, unowned, rfl⟩ | ⟨branching, ⟨rfl, _⟩ | ⟨rfl, _⟩⟩ := step_branch stepped
    · refine balanced.turn_hand law ⟨rfl, fun _ _ => .inl rfl⟩ rfl rfl rfl ?_
      simp [hand, branching, entry, State.setWorker, Worker.fiberOf, law.resumed]
    · refine balanced.turn_hand law (turn_recycle ledger owned ⟨.init, .fresh, some c, (s.heap g).pooled⟩
        { s.worker w with pc := .task .enter .callback }) rfl rfl rfl ?_
      simp [hand, branching, entry, State.setWorker, State.setFiber, Worker.fiberOf, owned, law.given]
    · refine balanced.turn_hand law (turn_create known w (Fiber.create (some c) true)
        { s.worker w with pc := .task .enter .callback, cbFiber := some s.nextFiber }) rfl rfl rfl ?_
      simp [hand, branching, entry, State.setWorker, State.setFiber, Worker.fiberOf, Fiber.create, law.given]
    all_goals
      refine balanced.turn_hand law ⟨rfl, fun _ _ => .inl rfl⟩ rfl rfl rfl ?_
      simp [hand, branching]
  | task w act =>
    obtain ⟨stage, branch, g, effect, running, owned, advanced, rfl⟩ := step_task stepped
    exact balanced_task law ledger balanced (fun hold => yields.suspends w (by rw [hold])) running owned advanced
  | idle w ended =>
    obtain ⟨idling, rfl⟩ := step_idle stepped
    refine balanced.turn_hand law ⟨rfl, fun _ _ => .inl rfl⟩ rfl rfl rfl ?_
    simp [hand, idling]

theorem balanced_of_reaches (law : reading.Lawful (n := n)) (reached : (machine tid).Reaches YieldsOnly s) :
    reading.Balanced s := by
  refine reached.invariant_of (fun _ => ledger_of_reaches) (fun s begins => ?_)
    fun s label next ⟨ledger, known⟩ balanced yields stepped =>
      step_balanced law ledger known balanced yields stepped
  rw [show s = State.initial n from begins]
  exact balanced_initial law

end Reading

/-! ## Threads -/

/-- The thread may start the callback: it is pinned to none, or to this one. -/
def PinAllows (pins : List Int) (c : Callback) (self : Int) : Prop :=
  ∃ thread, pins[c]? = some thread ∧ (thread = -1 ∨ thread = self)

structure Pinned (tid : Fin n → Int) (s : State n) : Prop where
  queue : ∀ c thread, ⟨.cb c, thread⟩ ∈ s.fibers → s.pins[c]? = some thread
  hand : ∀ w c, waiting.hand s.heap (s.worker w) = some c → PinAllows s.pins c (tid w)
  started : ∀ c t, (c, t) ∈ s.startedOn → PinAllows s.pins c t

theorem Pinned.turn (pinned : Pinned tid s) {w : Fin n} {own : Worker} (turn : Turn s next w own)
    (pins : next.pins = s.pins)
    (queue : ∀ ft ∈ next.fibers, ft ∈ s.fibers ∨ ∃ f, ft.task = .fiber f)
    (hand : ∀ c, waiting.hand next.heap own = some c → PinAllows s.pins c (tid w))
    (started : ∀ c t, (c, t) ∈ next.startedOn →
      (c, t) ∈ s.startedOn ∨ t = tid w ∧ waiting.hand s.heap (s.worker w) = some c) :
    Pinned tid next where
  queue c thread entry := by
    rw [pins]
    rcases queue _ entry with old | ⟨f, other⟩
    · exact pinned.queue c thread old
    · cases other
  hand other c held := by
    rw [pins]
    rw [turn.worker] at held
    rcases eq_or_ne other w with rfl | distinct
    · rw [Function.update_self] at held
      exact hand c held
    · rw [Function.update_of_ne distinct, Reading.hand_of_alike waiting_lawful (n := n) fun f present =>
        turn.frame f (.inr ⟨other, distinct, present⟩)] at held
      exact pinned.hand other c held
  started c t entered := by
    rw [pins]
    rcases started c t entered with old | ⟨rfl, held⟩
    · exact pinned.started c t old
    · exact pinned.hand w c held

theorem PinAllows.append {pins : List Int} {c : Callback} {self : Int} (allows : PinAllows pins c self)
    (more : List Int) : PinAllows (pins ++ more) c self := by
  obtain ⟨thread, given, fits⟩ := allows
  refine ⟨thread, ?_, fits⟩
  rw [List.getElem?_append_left (List.getElem?_eq_some_iff.mp given).1]
  exact given

theorem Pinned.accept (pinned : Pinned tid s) (thread : Int) (fc : Call) :
    Pinned tid (s.accept thread fc) := by
  cases fc with
  | fiber f =>
    refine ⟨fun c pin entry => pinned.queue c pin ?_, pinned.hand, pinned.started⟩
    simpa [State.accept, scheduleNoLock] using entry
  | callback =>
    refine ⟨fun c pin entry => ?_, fun w c held => (pinned.hand w c held).append _,
      fun c t entered => (pinned.started c t entered).append _⟩
    have cases' : ⟨.cb c, pin⟩ ∈ s.fibers ∨ c = s.pins.length ∧ pin = thread := by
      simpa [State.accept, scheduleNoLock] using entry
    rcases cases' with old | ⟨rfl, rfl⟩
    · have before := pinned.queue c pin old
      exact (List.getElem?_append_left (List.getElem?_eq_some_iff.mp before).1).trans before
    · exact List.getElem?_concat_length
  | empty => exact pinned

theorem Pinned.acceptAll (pinned : Pinned tid s) (fcs : List Call) :
    Pinned tid (fcs.foldl (fun s fc => s.accept (-1) fc) s) := by
  induction fcs generalizing s with
  | nil => exact pinned
  | cons fc rest ih => exact ih (pinned.accept (-1) fc)

theorem pinned_task (ledger : Ledger s) (pinned : Pinned tid s)
    {w : Fin n} {branch : Branch} {stage : Stage} {act : Act} {g : FiberId} {effect : Effect}
    (yields : act ≠ .yieldToHold) (running : (s.worker w).pc = .task stage branch)
    (owned : (s.worker w).fiberOf branch = some g)
    (advanced : advance (s.heap g) branch stage act = some effect) :
    Pinned tid (s.apply (tid w) w branch g effect) := by
  have traded := waiting_lawful.exchange ledger yields running owned advanced
  refine pinned.turn (turn_task tid ledger running owned advanced) rfl (fun ft entry => ?_) (fun c held => ?_)
    fun c t entered => ?_
  · cases requeues : effect.requeues with
    | false => exact .inl (by simpa [State.apply, requeues] using entry)
    | true =>
      have added : ft ∈ s.fibers ∨ ft = ⟨.fiber g, -1⟩ := by
        simpa [State.apply, scheduleNoLock, requeues] using entry
      exact added.imp id fun same => ⟨g, by rw [same]⟩
  · rw [waiting.hand_after owned advanced] at held
    cases requeues : effect.requeues with
    | true => simp [requeues] at held
    | false =>
      have after : waiting.after effect = some c := by simpa [requeues] using held
      rcases traded with ⟨_, same⟩ | ⟨_, gone⟩
      · exact pinned.hand w c (same.symm.trans after)
      · cases gone.symm.trans after
  · refine (List.mem_append.mp entered).imp id fun new => ?_
    obtain ⟨d, started, same⟩ := Option.map_eq_some_iff.mp (Option.mem_toList.mp new)
    cases same
    refine ⟨rfl, ?_⟩
    have logged : waiting.logged effect = some c := started
    rcases traded with ⟨unlogged, _⟩ | ⟨same, _⟩
    · cases unlogged.symm.trans logged
    · exact same.symm.trans logged

/-- A turn that leaves the queue and the history alone keeps what the worker is to start. -/
theorem Pinned.turn_hand (pinned : Pinned tid s) {w : Fin n} {own : Worker} (turn : Turn s next w own)
    (pins : next.pins = s.pins) (fibers : next.fibers = s.fibers)
    (started : next.startedOn = s.startedOn)
    (same : waiting.hand next.heap own = waiting.hand s.heap (s.worker w)) : Pinned tid next :=
  pinned.turn turn pins (fun ft entry => .inl (by rwa [fibers] at entry))
    (fun c held => pinned.hand w c (same ▸ held)) fun c t entered => .inl (by rwa [started] at entered)

theorem step_pinned (ledger : Ledger s) (known : Known s) (pinned : Pinned tid s) {label : Label n}
    (yields : YieldsOnly s label) (stepped : step tid s label = some next) : Pinned tid next := by
  cases label with
  | schedule caller fc thread =>
    obtain ⟨_, _, rfl⟩ := step_schedule stepped
    exact pinned.accept thread fc
  | scheduleAll caller fcs =>
    obtain ⟨_, _, rfl⟩ := step_scheduleAll stepped
    exact pinned.acceptAll fcs
  | newFiber caller =>
    cases step_newFiber stepped
    refine ⟨pinned.queue, fun w c held => ?_, pinned.started⟩
    have same := Reading.hand_of_alike waiting_lawful (n := n) fun f present =>
      known.frame_fresh (Fiber.create none false) (places_pos_of_refs (w := w) present)
    exact pinned.hand w c (same.symm.trans held)
  | setAutoStop =>
    cases stepped
    exact ⟨pinned.queue, pinned.hand, pinned.started⟩
  | setStopping =>
    cases stepped
    exact ⟨pinned.queue, pinned.hand, pinned.started⟩
  | scan w =>
    obtain ⟨scanning, ⟨ft, left, picked, rfl⟩ | ⟨_, rfl⟩⟩ := step_scan stepped
    · obtain ⟨unskipped, front, rest, whole, shorter⟩ := pick_eq_some picked
      refine pinned.turn ⟨rfl, fun _ _ => .inl rfl⟩ rfl (fun other entry => .inl ?_) (fun c held => ?_)
        fun _ _ => .inl
      · rw [whole]
        have kept : other ∈ front ++ rest := shorter ▸ entry
        simp only [List.mem_append, List.mem_cons] at kept ⊢
        exact kept.imp id .inr
      · obtain ⟨task, thread⟩ := ft
        cases task with
        | fiber f => cases held
        | cb d =>
          obtain rfl : d = c := Option.some.inj held
          refine ⟨thread, pinned.queue d thread (whole ▸ by simp), ?_⟩
          simpa [FiberAndThread.skipped, or_iff_not_imp_left] using unskipped
    · refine pinned.turn_hand ⟨rfl, fun _ _ => .inl rfl⟩ rfl rfl rfl ?_
      simp [Reading.hand, scanning]
  | branch w =>
    obtain ⟨g, thread, branching, rfl⟩ | ⟨c, thread, g, branching, owned, able, rfl⟩ |
      ⟨c, thread, branching, unowned, rfl⟩ | ⟨branching, ⟨rfl, _⟩ | ⟨rfl, _⟩⟩ := step_branch stepped
    · refine pinned.turn_hand ⟨rfl, fun _ _ => .inl rfl⟩ rfl rfl rfl ?_
      simp [Reading.hand, branching, Reading.entry, Worker.fiberOf, waiting]
    · refine pinned.turn_hand (turn_recycle ledger owned ⟨.init, .fresh, some c, (s.heap g).pooled⟩
        { s.worker w with pc := .task .enter .callback }) rfl rfl rfl ?_
      simp [Reading.hand, branching, Reading.entry, State.setWorker, State.setFiber, Worker.fiberOf, owned,
        waiting]
    · refine pinned.turn_hand (turn_create known w (Fiber.create (some c) true)
        { s.worker w with pc := .task .enter .callback, cbFiber := some s.nextFiber }) rfl rfl rfl ?_
      simp [Reading.hand, branching, Reading.entry, State.setWorker, State.setFiber, Worker.fiberOf,
        Fiber.create, waiting]
    all_goals
      refine pinned.turn_hand ⟨rfl, fun _ _ => .inl rfl⟩ rfl rfl rfl ?_
      simp [Reading.hand, branching]
  | task w act =>
    obtain ⟨stage, branch, g, effect, running, owned, advanced, rfl⟩ := step_task stepped
    exact pinned_task ledger pinned (fun hold => yields.suspends w (by rw [hold])) running owned advanced
  | idle w ended =>
    obtain ⟨idling, rfl⟩ := step_idle stepped
    refine pinned.turn_hand ⟨rfl, fun _ _ => .inl rfl⟩ rfl rfl rfl ?_
    simp [Reading.hand, idling]

theorem pinned_of_reaches (reached : (machine tid).Reaches YieldsOnly s) : Pinned tid s := by
  refine reached.invariant_of (fun _ => ledger_of_reaches) (fun s begins => ?_)
    fun s label next ⟨ledger, known⟩ pinned yields stepped => step_pinned ledger known pinned yields stepped
  rw [show s = State.initial n from begins]
  exact ⟨nofun, nofun, nofun⟩

/-! ## Delivery -/

/-- Every callback is in exactly one place and is entered at most once, on its
thread; the active count is that of the workers, and reuse of `cb_fiber` never fails. -/
structure CallbacksSafe (s : State n) : Prop where
  place : ∀ c < s.pins.length, carrying.entries s.heap c s.fibers + carrying.holders c s +
    s.finished.count c = 1
  once : (s.startedOn.map Prod.fst).Nodup
  pinned : ∀ c t, (c, t) ∈ s.startedOn → PinAllows s.pins c t
  ran : ∀ c ∈ s.finished, c ∈ s.startedOn.map Prod.fst
  reusable : ∀ w c thread f, (s.worker w).pc = .branch (some ⟨.cb c, thread⟩) →
    (s.worker w).cbFiber = some f → (s.heap f).state.resettable = true
  count : s.activeThreadCount = activeWorkers s

/-- A worker that is to start a callback is to finish it. -/
theorem Worker.Sound.waits {heap : FiberId → Fiber} {worker : Worker} (sound : worker.Sound heap)
    {c : Callback} (held : waiting.hand heap worker = some c) : carrying.hand heap worker = some c := by
  cases pc : worker.pc with
  | branch ft =>
    match ft, pc with
    | none, pc => simp [Reading.hand, pc] at held
    | some ⟨.cb d, thread⟩, pc => simpa [Reading.hand, pc, Reading.entry] using held
    | some ⟨.fiber f, thread⟩, pc => simp [Reading.hand, pc, Reading.entry, waiting] at held
  | task stage branch =>
    cases branch with
    | fiber f => cases stage <;> simp [Reading.hand, pc, Worker.fiberOf, waiting] at held
    | callback =>
      cases owned : worker.cbFiber with
      | none => simp [Reading.hand, pc, Worker.fiberOf, owned] at held
      | some f =>
        have fits := sound.fits stage .callback f pc owned (sound.owner f owned)
        simp only [Reading.hand, pc, Worker.fiberOf, owned] at held ⊢
        have alive (running : (heap f).state.over = false) (cb : (heap f).cb = some c) :
            (heap f).carried = some c := by
          rw [Fiber.carried, running]
          exact cb
        cases stage <;> simp only [waiting, reduceCtorEq] at held
        case enter => exact alive (by rcases fits.1 with state | state <;> rw [state] <;> rfl) held
        case switch => exact alive (by rw [fits.1]; rfl) held
  | _ => simp [Reading.hand, pc] at held

/-- What is still to be started is still to be finished. -/
theorem waiting_le_carrying (ledger : Ledger s) (c : Callback) :
    waiting.entries s.heap c s.fibers + waiting.holders c s ≤
      carrying.entries s.heap c s.fibers + carrying.holders c s := by
  refine Nat.add_le_add (List.countP_mono_left fun ft _ given => ?_) (tally_le fun w => ?_)
  · obtain ⟨task, thread⟩ := ft
    cases task with
    | cb d => exact given
    | fiber f => simp [Reading.entry, waiting] at given
  · by_cases held : waiting.hand s.heap (s.worker w) = some c
    · rw [held, (ledger.sound w).waits held]
    · simp [Reading.holds, held]

/-- A test of `YieldsOnly` for replays in which only callbacks are scheduled. -/
def yieldsTest (_ : State n) : Label n → Bool
  | .schedule _ fc _ => fc == .callback
  | .scheduleAll _ fcs => fcs.all fun fc => fc == .callback
  | .task _ .yieldToHold => false
  | _ => true

theorem yieldsOnly_of_test {label : Label n} (passed : yieldsTest s label = true) : YieldsOnly s label := by
  refine ⟨fun w hold => ?_, fun f named => ?_⟩
  · rw [hold] at passed
    cases passed
  · cases label with
    | schedule caller fc thread =>
      obtain rfl : fc = .callback := eq_of_beq passed
      cases named
    | scheduleAll caller fcs =>
      rw [Label.wakes, wakes_of_callbacks f passed] at named
      cases named
    | _ => cases named

/-- Worker 0 runs a callback pinned to its thread, which yields; worker 1 runs the
two callbacks of a batch on one fiber; worker 0 resumes the first. -/
def yieldsThenResumes : List (Label 2) :=
  [.schedule none .callback 1, .scheduleAll none [.callback, .callback], .scan 0, .branch 0,
   .task 0 .proceed, .task 0 .proceed, .task 0 .yieldToReady, .task 0 .proceed, .task 0 .proceed,
   .task 0 .proceed, .task 0 .proceed, .scan 1, .branch 1, .task 1 .proceed, .task 1 .proceed,
   .task 1 .returns, .task 1 .proceed, .task 1 .proceed, .task 1 .proceed, .task 1 .proceed, .scan 1,
   .branch 1, .task 1 .proceed, .task 1 .proceed, .scan 0, .branch 0, .task 0 .proceed, .task 0 .proceed]

end HpsSf.Scheduler
