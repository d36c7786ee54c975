import HpsSf.Scheduler.Stopping
import HpsSf.Scheduler.Workload

/-! The owner of a scheduler takes it through rounds of `start()`, `schedule` and `stop()`.

In `run` are the threads that `start()` builds and, with `use_caller`, the owner
itself, whose root fiber runs it within `stop()`. The flags, the thread vector and
the root fiber are left to the next round as they are.
-/

set_option autoImplicit false

namespace HpsSf.Scheduler
open Foundation

/-- `hps_Scheduler(n + 1, use_caller)`: the first worker is the root fiber, if there is one. -/
def isRoot {n : Nat} (useCaller : Bool) (w : Fin (n + 1)) : Bool := useCaller && w == 0

/-- The thread is in `run` at some time of the round. -/
def executing {n : Nat} (useCaller start : Bool) (w : Fin (n + 1)) : Bool := start || isRoot useCaller w

/-- What the owner does in one round, up to `stop()`. It names no thread but one that executes. -/
structure Round (n : Nat) (useCaller : Bool) (I : Type) where
  start : Bool
  calls : List (I × Option (Fin (n + 1)))
  executes : ∃ w : Fin (n + 1), executing useCaller start w = true
  named : ∀ call ∈ calls, ∀ w ∈ call.2, executing useCaller start w = true

/-- How far the owner is. -/
inductive Owner (n : Nat) (I : Type) where
  /-- Between two rounds. -/
  | ready
  | scheduling (calls : List (I × Option (Fin (n + 1))))
  /-- In `stop()`, before the test of the root fiber. -/
  | guard
  /-- Behind `m_stopping = true`, before `if (stopping()) return`. -/
  | early
  | stop
  /-- Before `if (!stopping())`. -/
  | check
  | call
  /-- In the root fiber. -/
  | inside
  /-- Before `thrs.swap(m_threads)`. -/
  | swap
  | join (thrs : List (Fin (n + 1)))
  deriving DecidableEq, Repr

structure Cycle (n : Nat) (useCaller : Bool) (I : Type) where
  running : Running (n + 1) I
  owner : Owner n I
  m_threads : List (Fin (n + 1))
  /-- The state of `m_rootFiber`. -/
  root : Fiber.State
  /-- How often `start()` has built threads: each time they have other ids. -/
  built : Nat
  /-- The rounds to come. -/
  rounds : List (Round n useCaller I)

variable {n : Nat} {useCaller : Bool} {I : Type}

namespace Running

/-- These workers call `run`. -/
def restart (s : Running n I) (which : Fin n → Bool) : Running n I :=
  { s with state := { s.state with
      worker := fun w => if which w then ⟨.scan, none, false⟩ else s.state.worker w } }

def setFlags (s : Running n I) (autoStop stopping : Bool) : Running n I :=
  { s with state := { s.state with autoStop := autoStop, stopping := stopping } }

/-- Nobody is in `run` yet. -/
def unstarted (n : Nat) (I : Type) : Running n I :=
  { initial n I with state := { State.initial n with worker := fun _ => ⟨.exited, none, false⟩, stopping := true } }

end Running

namespace Cycle

def initial (rounds : List (Round n useCaller I)) : Cycle n useCaller I :=
  ⟨.unstarted (n + 1) I, .ready, [], .init, 0, rounds⟩

def m_threadCount (n : Nat) (useCaller : Bool) : Nat := if useCaller then n else n + 1

/-- The workers that `start()` builds threads for. -/
def pool (n : Nat) (useCaller : Bool) : List (Fin (n + 1)) := (List.finRange (n + 1)).filter fun w =>
    !isRoot useCaller w

/-- `none` is the failed assertion `m_threads.empty()`. -/
def start (s : Cycle n useCaller I) : Option (Cycle n useCaller I) :=
  if !s.running.state.stopping then some s
  else if s.m_threads.isEmpty then
    some { s with
      running := (s.running.restart fun w => !isRoot useCaller w).setFlags s.running.state.autoStop false
      m_threads := pool n useCaller
      built := s.built + 1 }
  else none

/-- The next step of the owner; `none` is a failed assertion, or that it waits for a worker. -/
def own (tid : Nat → Fin (n + 1) → Int) (s : Cycle n useCaller I) : Option (Cycle n useCaller I) :=
  match s.owner with
  | .ready =>
      match s.rounds with
      | [] => none
      | round :: rest =>
          (if round.start then s.start else some s).map fun s =>
            { s with owner := .scheduling round.calls, rounds := rest }
  | .scheduling ((body, thread) :: rest) =>
      some { s with running := s.running.give body (thread.elim (-1) (tid s.built)), owner := .scheduling rest }
  | .scheduling [] =>
      some { s with running := s.running.setFlags true s.running.state.stopping, owner := .guard }
  | .guard =>
      if useCaller && m_threadCount n useCaller == 0 && (s.root == .term || s.root == .init) then
        some { s with running := s.running.setFlags s.running.state.autoStop true, owner := .early }
      else some { s with owner := .stop }
  | .early => some { s with owner := if s.running.state.verdict then .ready else .stop }
  | .stop => some { s with running := s.running.setFlags s.running.state.autoStop true, owner := .check }
  | .check => some { s with owner := if useCaller && !s.running.state.verdict then .call else .swap }
  | .call =>
      -- A root fiber in TERM resumes behind the `back()` of `CallerMainFunc`, at `never reach`.
      if s.root = .init then
        some { s with running := s.running.restart fun w => w == 0, root := .exec, owner := .inside }
      else none
  | .inside => if (s.running.state.worker 0).pc = .exited then some { s with root := .term, owner := .swap } else none
  | .swap => some { s with m_threads := [], owner := .join s.m_threads }
  | .join [] => some { s with owner := .ready }
  | .join (w :: rest) => if (s.running.state.worker w).pc = .exited then some { s with owner := .join rest } else none

end Cycle

/-- A step of the owner, or of a worker. -/
inductive Party (n : Nat) where
  | owner
  | worker (w : Fin (n + 1))
  deriving DecidableEq, Repr

/-- `tid` gives the ids of the threads that are built at each time. -/
def cycle (prog : I → Program I) (tid : Nat → Fin (n + 1) → Int) (rounds : List (Round n useCaller I)) :
    System (Cycle n useCaller I) (Party n) where
  start s := s = Cycle.initial rounds
  step s
    | .owner => s.own tid
    | .worker w => (s.running.work prog (tid s.built) w).map fun running => { s with running := running }

/-- The root fiber is needed only once. -/
def RootFresh (s : Cycle n useCaller I) (party : Party n) : Prop :=
  party = .owner → s.owner = .check → s.running.state.verdict = true ∨ s.root = .init

/-! ## Workers that enter `run` again -/

namespace Running

/-- A worker that is on no task may start over. -/
structure Reseats (s next : State n) : Prop where
  worker : ∀ w, next.worker w = s.worker w ∨
    (s.worker w).pc.resting = true ∧ (next.worker w).pc.resting = true ∧ (next.worker w).cbFiber = none
  fibers : next.fibers = s.fibers
  heap : next.heap = s.heap
  nextFiber : next.nextFiber = s.nextFiber
  active : next.activeThreadCount = s.activeThreadCount
  pins : next.pins = s.pins
  startedOn : next.startedOn = s.startedOn
  finished : next.finished = s.finished

theorem refs_of_resting {worker : Worker} (resting : worker.pc.resting = true) (spare : worker.cbFiber = none)
    (f : FiberId) : worker.refs f = 0 := by
  rw [Worker.refs, spare, if_neg (by simp)]
  rcases Pc.cases_of_resting resting with pc | pc | pc | pc <;> rw [pc] <;> rfl

theorem hand_of_resting (reading : Reading) (heap : FiberId → Fiber) {worker : Worker}
    (resting : worker.pc.resting = true) :
    reading.hand heap worker = none := by
  unfold Reading.hand
  rcases Pc.cases_of_resting resting with pc | pc | pc | pc <;> rw [pc]

section
variable {s next : State n}

theorem Reseats.places_le (reseats : Reseats s next) (f : FiberId) : places f next ≤ places f s := by
  have fewer : held f next ≤ held f s := tally_le fun w => by
    rcases reseats.worker w with same | ⟨_, resting, spare⟩
    · rw [same]
    · rw [refs_of_resting resting spare]
      exact Nat.zero_le _
  rw [places, places, reseats.fibers]
  omega

theorem Reseats.balanced (reseats : Reseats s next) {reading : Reading} (balanced : reading.Balanced s) :
    reading.Balanced next := by
  intro c
  have held : reading.holders c next = reading.holders c s := tally_congr fun w => by
    rw [reseats.heap]
    rcases reseats.worker w with same | ⟨before, after, _⟩
    · rw [same]
    · rw [hand_of_resting reading _ before, hand_of_resting reading _ after]
  rw [held, reseats.fibers, reseats.heap, reseats.pins, reseats.startedOn, reseats.finished]
  exact balanced c

theorem Reseats.task (reseats : Reseats s next) {w : Fin n} {stage : Stage} {branch : Branch}
    (running : (next.worker w).pc = .task stage branch) : next.worker w = s.worker w := by
  rcases reseats.worker w with same | ⟨_, resting, _⟩
  · exact same
  · rw [running] at resting
    cases resting

theorem Reseats.ledger (reseats : Reseats s next) (ledger : Ledger s) : Ledger next where
  user := by
    rw [reseats.heap]
    exact ledger.user
  single f pooled := by
    rw [reseats.heap] at pooled
    exact Nat.le_trans (reseats.places_le f) (ledger.single f pooled)
  sound w := by
    rw [reseats.heap]
    rcases reseats.worker w with same | ⟨_, resting, spare⟩
    · rw [same]
      exact ledger.sound w
    · refine ⟨fun f owned => ?_, fun f thread branching => ?_, fun stage branch f running => ?_, fun f owned => ?_⟩
      · cases spare.symm.trans owned
      · rw [branching] at resting
        cases resting
      · rw [running] at resting
        cases resting
      · cases spare.symm.trans owned
  parked f pooled entry := by
    rw [reseats.heap] at pooled ⊢
    rw [reseats.fibers] at entry
    exact ledger.parked f pooled entry

theorem Reseats.counted (reseats : Reseats s next) (counted : Counted s) : Counted next := by
  refine counted.of_same (fun w => ?_) reseats.active
  rcases reseats.worker w with same | ⟨before, after, _⟩
  · rw [same]
  · rw [Pc.not_active_of_resting before, Pc.not_active_of_resting after]

end

theorem reseats_sound {s : Running n I} (sound : s.Sound) {next : State n} (reseats : Reseats s.state next) :
    Sound { s with state := next } where
  ledger := reseats.ledger sound.ledger
  known f unknown := by
    rw [reseats.nextFiber] at unknown
    exact Nat.le_zero.mp (sound.known f unknown ▸ reseats.places_le f)
  carrying := reseats.balanced sound.carrying
  waiting := reseats.balanced sound.waiting
  pooled f known := by
    rw [reseats.nextFiber] at known
    rw [reseats.heap]
    exact sound.pooled f known
  owns w stage branch running := by
    have same := reseats.task running
    rw [same] at running ⊢
    exact sound.owns w stage branch running
  bodies := by
    rw [reseats.pins]
    exact sound.bodies
  saved := by
    rw [reseats.heap]
    exact sound.saved
  control w f stage on inBody := by
    obtain ⟨branch, running, owned⟩ := on
    have same := reseats.task running
    rw [same] at running owned
    rw [reseats.heap]
    exact sound.control w f stage ⟨branch, running, owned⟩ inBody

theorem restart_reseats (s : Running n I) (which : Fin n → Bool)
    (out : ∀ w, which w = true → (s.state.worker w).pc = .exited) : Reseats s.state (s.restart which).state where
  worker w := by
    cases chosen : which w with
    | false => exact .inl (by simp [restart, chosen])
    | true => exact .inr ⟨by rw [out w chosen]; rfl, by simp [restart, chosen, Pc.resting]⟩
  fibers := rfl
  heap := rfl
  nextFiber := rfl
  active := rfl
  pins := rfl
  startedOn := rfl
  finished := rfl

theorem unstarted_sound (n : Nat) (I : Type) : (unstarted n I).Sound :=
  reseats_sound sound_initial ⟨fun _ => .inr ⟨rfl, rfl, rfl⟩, rfl, rfl, rfl, rfl, rfl, rfl, rfl⟩

/-- With nothing in the queue and nobody in `run`, every callback has been finished once. -/
theorem Sound.all_finished {s : Running n I} (sound : s.Sound) (empty : s.state.fibers = [])
    (out : ∀ w, (s.state.worker w).pc = .exited) {c : Callback} (given : c < s.bodies.length) :
    s.state.finished.count c = 1 := by
  have total := sound.carrying c
  have none : Scheduler.carrying.holders c s.state = 0 := (tally_eq_zero_iff _).mpr fun w => by
    rw [hand_of_resting _ _ (by rw [out w]; rfl)]
    rfl
  rw [Reading.given, if_pos (sound.bodies ▸ given), empty, none] at total
  simpa [Reading.entries, Scheduler.carrying] using total

end Running

/-! ## What holds at each place of the owner -/

namespace Owner

/-- The workers that the owner waits for or is going to. -/
def awaited : Owner n I → List (Fin (n + 1))
  | .inside => [0]
  | .join thrs => thrs
  | _ => []

/-- The root fiber may still be called in this round. -/
def mayCall : Owner n I → Bool
  | .scheduling _ | .guard | .early | .stop | .check | .call => true
  | .ready | .inside | .swap | .join _ => false

end Owner

/-- What the step of a worker may do to the queue and to itself. -/
structure Moves (tid : Fin n → Int) (s next : State n) (w : Fin n) (own : Worker) : Prop where
  worker : next.worker = Function.update s.worker w own
  idleOver : own.idleOver = true → (s.worker w).idleOver = true ∨ s.verdict = true
  gone : own.gone = true → own.idleOver = true ∧ ((s.worker w).gone = true ∨ ∀ ft ∈ s.fibers, ¬ ft.For (tid w))
  entries : ∀ ft ∈ next.fibers, ft ∈ s.fibers ∨ ft.For (tid w) ∧ own.gone = false
  autoStop : next.autoStop = s.autoStop
  stopping : next.stopping = s.stopping

theorem Running.work_moves {prog : I → Program I} {cost : I → Nat} {tid : Fin n → Int} {s next : Running n I}
    {w : Fin n}
    (sound : s.Sound) (priced : Priced prog cost) (stepped : s.work prog tid w = some next) :
    ∃ own, Moves tid s.state next.state w own := by
  rcases work_kinds sound priced stepped with busy | ⟨own, count, idles, rfl⟩
  · obtain ⟨own, worker, stays, idleOver⟩ := busy.worker
    refine ⟨own, worker, fun ended => .inl (idleOver ▸ ended), fun gone => ?_,
      fun ft entry => (busy.entries ft entry).imp id fun mine => ⟨mine, stays⟩, busy.autoStop, busy.stopping⟩
    rw [stays] at gone
    cases gone
  · refine ⟨own, rfl, ?_, ?_, fun ft => .inl, rfl, rfl⟩
    · intro ended
      cases idles with
      | idle => simpa [or_comm] using ended
      | _ => exact .inl ended
    · intro gone
      cases idles with
      | scan pc nothing =>
        refine ⟨gone, .inr fun ft entry mine => ?_⟩
        have skipped := skipped_of_pick_eq_none nothing ft entry
        rw [sound.unskipped entry mine] at skipped
        cases skipped
      | enter | idle => cases gone
      | exit pc ended => exact ⟨ended, .inl (by simp [Worker.gone, pc, ended])⟩

namespace Cycle

def flags (s : Cycle n useCaller I) : Bool × Bool := (s.running.state.autoStop, s.running.state.stopping)

/-- The thread has been built in this round, or is the root fiber. -/
def Executes (s : Cycle n useCaller I) (w : Fin (n + 1)) : Prop := w ∈ s.m_threads ∨ isRoot useCaller w = true

/-- What holds at each place of the owner. -/
def Stands (s : Cycle n useCaller I) : Owner n I → Prop
  | .ready => s.m_threads = [] ∧ s.running.state.stopping = true
  | .scheduling calls =>
      (∃ w, s.Executes w) ∧ (∀ call ∈ calls, ∀ w ∈ call.2, s.Executes w) ∧
        ∀ w ∈ s.m_threads, (s.running.state.worker w).pc ≠ .exited ∧ (s.running.state.worker w).idleOver = false ∧
          s.running.state.stopping = false
  | .guard | .stop => s.running.state.autoStop = true
  | .early => s.flags = (true, true) ∧ s.m_threads = []
  | .check | .swap => s.flags = (true, true)
  | .call => s.flags = (true, true) ∧ useCaller = true ∧ s.root = .init
  | .inside => s.flags = (true, true) ∧ useCaller = true
  | .join _ => s.flags = (true, true) ∧ s.m_threads = []

/-- Somebody is there for each entry, or is going to be. -/
def Served (tid : Nat → Fin (n + 1) → Int) (s : Cycle n useCaller I) : Prop :=
  ∀ ft ∈ s.running.state.fibers, ∃ w, ft.For (tid s.built w) ∧
    ((s.running.state.worker w).gone = false ∨ s.owner.mayCall = true ∧ isRoot useCaller w = true)

structure Orderly (tid : Nat → Fin (n + 1) → Int) (s : Cycle n useCaller I) : Prop where
  sound : s.running.Sound
  counted : Counted s.running.state
  pool : ∀ w ∈ s.m_threads, isRoot useCaller w = false
  out : ∀ w, w ∉ s.m_threads → w ∉ s.owner.awaited → (s.running.state.worker w).pc = .exited
  served : s.Served tid
  stands : s.Stands s.owner

variable {prog : I → Program I} {tid : Nat → Fin (n + 1) → Int} {s next : Cycle n useCaller I} {w : Fin (n + 1)}

theorem initial_orderly (rounds : List (Round n useCaller I)) : (initial rounds).Orderly tid where
  sound := Running.unstarted_sound (n + 1) I
  counted := by
    have none : activeWorkers (initial rounds).running.state = 0 := (activeWorkers_eq_zero_iff _).mpr fun _ => rfl
    rw [Counted, none]
    rfl
  pool := nofun
  out _ _ _ := rfl
  served := nofun
  stands := ⟨rfl, rfl⟩

/-! ## Steps of the workers -/

/-- A step of a worker is one of a worker that is still in `run`. -/
theorem live_of_work {running next : Running n I} {tid : Fin n → Int} {w : Fin n}
    (stepped : running.work prog tid w = some next) :
    (running.state.worker w).pc ≠ .exited := by
  intro exited
  obtain ⟨label, labelled, _⟩ := Running.work_step stepped
  simp [Running.label, exited] at labelled

theorem work_served {running : Running (n + 1) I} {own : Worker} (served : s.Served tid)
    (moves : Moves (tid s.built) s.running.state running.state w own) : Served tid { s with running := running } := by
  intro ft entry
  simp only [moves.worker]
  rcases moves.entries ft entry with old | ⟨mine, stays⟩
  · obtain ⟨server, its, stays | root⟩ := served ft old
    -- a worker that goes has scanned the queue and found nothing for itself
    · refine ⟨server, its, .inl ?_⟩
      rcases eq_or_ne server w with rfl | distinct
      · rw [Function.update_self]
        by_contra gone
        rcases (moves.gone (by simpa using gone)).2 with before | nobody
        · rw [stays] at before
          cases before
        · exact nobody ft old its
      · rw [Function.update_of_ne distinct]
        exact stays
    · exact ⟨server, its, .inr root⟩
  · exact ⟨w, mine, .inl (by rw [Function.update_self]; exact stays)⟩

theorem work_stands {running : Running (n + 1) I} {own : Worker} {owner : Owner n I} (stands : s.Stands owner)
    (moves : Moves (tid s.built) s.running.state running.state w own) : Stands { s with running := running } owner := by
  have flags : flags { s with running := running } = s.flags := by
    rw [Cycle.flags, Cycle.flags, moves.autoStop, moves.stopping]
  cases owner with
  | ready =>
    obtain ⟨none, stopping⟩ := stands
    exact ⟨none, moves.stopping.trans stopping⟩
  | guard | stop => exact moves.autoStop.trans stands
  | early | check | call | inside | swap | join _ =>
    rw [Stands, flags]
    exact stands
  | scheduling calls =>
    obtain ⟨somebody, named, fresh⟩ := stands
    refine ⟨somebody, named, fun other built => ?_⟩
    obtain ⟨live, unended, going⟩ := fresh other built
    rw [moves.stopping, moves.worker]
    rcases eq_or_ne other w with rfl | distinct
    · rw [Function.update_self]
      -- before `stop()` there is no verdict, so the idle fiber goes on
      have unended : own.idleOver = false := by
        by_contra ended
        rcases moves.idleOver (by simpa using ended) with before | verdict
        · rw [unended] at before
          cases before
        · rw [((verdict_eq_true_iff _).mp verdict).2.1] at going
          cases going
      refine ⟨fun exited => ?_, unended, going⟩
      have ended := (moves.gone (by simp [Worker.gone, exited])).1
      rw [unended] at ended
      cases ended
    · rw [Function.update_of_ne distinct]
      exact ⟨live, unended, going⟩

theorem work_orderly {cost : I → Nat} (priced : Priced prog cost) (orderly : s.Orderly tid)
    {running : Running (n + 1) I}
    (stepped : s.running.work prog (tid s.built) w = some running) : Orderly tid { s with running := running } := by
  obtain ⟨own, moves⟩ := Running.work_moves orderly.sound priced stepped
  obtain ⟨label, _, moved, _⟩ := Running.work_step stepped
  refine ⟨Running.work_sound orderly.sound stepped, step_counted orderly.counted moved, orderly.pool,
    fun other unbuilt unawaited => ?_,
    work_served orderly.served moves, work_stands orderly.stands moves⟩
  have out := orderly.out other unbuilt unawaited
  have distinct : other ≠ w := by
    rintro rfl
    exact live_of_work stepped out
  simpa only [moves.worker, Function.update_of_ne distinct] using out

/-! ## Steps of the owner -/

/-- The owner moves on and writes at most the flags. -/
theorem Orderly.moves (orderly : s.Orderly tid) (owner : Owner n I) (m_threads : List (Fin (n + 1)))
    (root : Fiber.State) (rounds : List (Round n useCaller I)) (autoStop stopping : Bool)
    (sub : ∀ w ∈ m_threads, w ∈ s.m_threads)
    (out : ∀ w, w ∈ s.m_threads ∨ w ∈ s.owner.awaited →
      w ∈ m_threads ∨ w ∈ owner.awaited ∨ (s.running.state.worker w).pc = .exited)
    (calls : s.owner.mayCall = true → owner.mayCall = true ∨ useCaller = false ∨ s.running.state.fibers = [])
    (stands : Stands ⟨s.running.setFlags autoStop stopping, owner, m_threads, root, s.built, rounds⟩ owner) :
    Orderly tid ⟨s.running.setFlags autoStop stopping, owner, m_threads, root, s.built, rounds⟩ where
  sound := Running.flags_sound orderly.sound autoStop stopping
  counted := orderly.counted
  pool w built := orderly.pool w (sub w built)
  out w unbuilt unawaited := by
    by_contra live
    by_cases known : w ∈ s.m_threads ∨ w ∈ s.owner.awaited
    · rcases out w known with built | awaited | exited
      · exact unbuilt built
      · exact unawaited awaited
      · exact live exited
    · rw [not_or] at known
      exact live (orderly.out w known.1 known.2)
  served ft entry := by
    obtain ⟨w, its, stays | ⟨before, root⟩⟩ := orderly.served ft entry
    · exact ⟨w, its, .inl stays⟩
    · refine ⟨w, its, .inr ⟨?_, root⟩⟩
      rcases calls before with after | alone | empty
      · exact after
      · simp [isRoot, alone] at root
      · have none : s.running.state.fibers = [] := empty
        rw [Running.setFlags, none] at entry
        cases entry
  stands := stands

theorem Orderly.empty (orderly : s.Orderly tid) (ready : s.owner = .ready) :
    s.running.state.fibers = [] ∧ ∀ w, (s.running.state.worker w).pc = .exited := by
  have stands := orderly.stands
  rw [ready] at stands
  have out (w : Fin (n + 1)) : (s.running.state.worker w).pc = .exited :=
    orderly.out w (by rw [stands.1]; exact List.not_mem_nil) (by rw [ready]; exact List.not_mem_nil)
  refine ⟨List.eq_nil_iff_forall_not_mem.mpr fun ft entry => ?_, out⟩
  obtain ⟨w, _, stays | ⟨calls, _⟩⟩ := orderly.served ft entry
  · simp [Worker.gone, out w] at stays
  · rw [ready] at calls
    cases calls

theorem start_eq (stopping : s.running.state.stopping = true) (none : s.m_threads = []) : s.start = some { s with
    running := (s.running.restart fun w => !isRoot useCaller w).setFlags s.running.state.autoStop false
    m_threads := pool n useCaller
    built := s.built + 1 } := by
  simp [start, stopping, none]

theorem start_orderly (orderly : s.Orderly tid) (ready : s.owner = .ready) (round : Round n useCaller I)
    (rest : List (Round n useCaller I))
    (stepped : ((if round.start then s.start else some s).map fun s =>
      { s with owner := .scheduling round.calls, rounds := rest }) = some next) : next.Orderly tid := by
  obtain ⟨empty, out⟩ := orderly.empty ready
  have stands := orderly.stands
  rw [ready] at stands
  obtain ⟨none, stopping⟩ := stands
  cases starts : round.start with
  | false =>
    -- without `start()` only the root fiber executes in the round
    rw [starts] at stepped
    cases stepped
    have executes {w : Fin (n + 1)} (executing : executing useCaller round.start w = true) : s.Executes w := by
      rw [starts] at executing
      exact .inr executing
    refine orderly.moves (.scheduling round.calls) s.m_threads s.root rest s.running.state.autoStop
      s.running.state.stopping (fun _ => id) (fun w _ => .inr (.inr (out w))) (fun _ => .inl rfl) ⟨?_, ?_, ?_⟩
    · obtain ⟨w, executing⟩ := round.executes
      exact ⟨w, executes executing⟩
    · exact fun call given w named => executes (round.named call given w named)
    · intro w built
      rw [none] at built
      cases built
  | true =>
    rw [starts, if_pos rfl, start_eq stopping none, Option.map_some] at stepped
    cases stepped
    have reseats := Running.restart_reseats s.running (fun w => !isRoot useCaller w) fun w _ => out w
    have executes (w : Fin (n + 1)) : w ∈ pool n useCaller ∨ isRoot useCaller w = true := by
      cases root : isRoot useCaller w
      · exact .inl (by simp [pool, root])
      · exact .inr rfl
    refine ⟨Running.flags_sound (Running.reseats_sound orderly.sound reseats) _ _, reseats.counted orderly.counted,
      fun w built => ?_, fun w unbuilt _ => ?_, fun ft entry => ?_, ?_, fun _ _ w _ => executes w, fun w built => ?_⟩
    · simpa [pool] using built
    · have root : isRoot useCaller w = true := by simpa [pool] using unbuilt
      simpa [Running.setFlags, Running.restart, root] using out w
    · have old : ft ∈ s.running.state.fibers := entry
      rw [empty] at old
      cases old
    · exact round.executes.imp fun w _ => executes w
    · have root : isRoot useCaller w = false := by simpa [pool] using built
      simp [Running.setFlags, Running.restart, root]

theorem give_orderly (orderly : s.Orderly tid) {body : I} {thread : Option (Fin (n + 1))}
    {rest : List (I × Option (Fin (n + 1)))} (owner : s.owner = .scheduling ((body, thread) :: rest)) :
    Orderly tid { s with
      running := s.running.give body (thread.elim (-1) (tid s.built)), owner := .scheduling rest } := by
  have stands := orderly.stands
  rw [owner] at stands
  obtain ⟨somebody, named, fresh⟩ := stands
  refine ⟨Running.give_sound orderly.sound body _, orderly.counted, orderly.pool, fun w unbuilt _ => ?_,
    fun ft entry => ?_,
    somebody, fun call later => named call (List.mem_cons_of_mem _ later), fresh⟩
  · exact orderly.out w unbuilt (by rw [owner]; exact List.not_mem_nil)
  · have serves {w : Fin (n + 1)} (executes : s.Executes w) :
        (s.running.state.worker w).gone = false ∨ (Owner.scheduling rest).mayCall = true ∧
          isRoot useCaller w = true := by
      rcases executes with built | root
      · obtain ⟨live, unended, _⟩ := fresh w built
        left
        unfold Worker.gone
        split
        case h_1 exited => exact absurd exited live
        case h_2 => exact unended
        case h_3 => rfl
      · exact .inr ⟨rfl, root⟩
    rcases List.mem_append.mp entry with old | added
    · obtain ⟨w, its, stays | ⟨_, root⟩⟩ := orderly.served ft old
      · exact ⟨w, its, .inl stays⟩
      · exact ⟨w, its, .inr ⟨rfl, root⟩⟩
    · obtain rfl := List.mem_singleton.mp added
      cases thread with
      | none => exact somebody.imp fun w executes => ⟨.inl rfl, serves executes⟩
      | some w => exact ⟨w, .inr rfl, serves (named _ (List.mem_cons_self ..) w rfl)⟩

theorem call_orderly (orderly : s.Orderly tid) (owner : s.owner = .call) :
    Orderly tid { s with running := s.running.restart fun w => w == 0, root := .exec, owner := .inside } := by
  have stands := orderly.stands
  rw [owner] at stands
  obtain ⟨flags, caller, _⟩ := stands
  have out : (s.running.state.worker 0).pc = .exited := by
    refine orderly.out 0 (fun built => ?_) (by rw [owner]; exact List.not_mem_nil)
    have pooled := orderly.pool 0 built
    simp [isRoot, caller] at pooled
  have reseats := Running.restart_reseats s.running (fun w => w == 0) fun w first => by
    rw [eq_of_beq first]
    exact out
  refine ⟨Running.reseats_sound orderly.sound reseats, reseats.counted orderly.counted, orderly.pool,
    fun w unbuilt unawaited => ?_, fun ft entry => ?_, flags, caller⟩
  · have other : w ≠ 0 := by
      rintro rfl
      exact unawaited (List.mem_singleton_self _)
    simpa [Running.restart, other] using orderly.out w unbuilt (by rw [owner]; exact List.not_mem_nil)
  · obtain ⟨w, its, stays⟩ := orderly.served ft entry
    refine ⟨w, its, .inl ?_⟩
    rcases eq_or_ne w 0 with rfl | other
    · simp [Running.restart, Worker.gone]
    · rcases stays with stays | ⟨_, root⟩
      · simpa [Running.restart, other] using stays
      · simp [isRoot, other] at root

/-- If the owner is the only worker, `start()` has built no thread. -/
theorem Orderly.no_threads (orderly : s.Orderly tid) (caller : useCaller = true)
    (alone : m_threadCount n useCaller = 0) :
    s.m_threads = [] := by
  refine List.eq_nil_iff_forall_not_mem.mpr fun w built => ?_
  have pooled := orderly.pool w built
  rw [m_threadCount, if_pos caller] at alone
  subst alone
  obtain rfl : w = 0 := Fin.fin_one_eq_zero w
  simp [isRoot, caller] at pooled

theorem own_orderly (orderly : s.Orderly tid) (fresh : RootFresh s .owner) (stepped : s.own tid = some next) :
    next.Orderly tid := by
  have stands := orderly.stands
  have kept (w : Fin (n + 1)) (known : w ∈ s.m_threads ∨ w ∈ s.owner.awaited) (nobody : s.owner.awaited = []) :
      w ∈ s.m_threads := known.resolve_right (by rw [nobody]; exact List.not_mem_nil)
  cases owner : s.owner with
  | ready =>
    simp only [own, owner] at stepped
    split at stepped
    next => cases stepped
    next round rest _ => exact start_orderly orderly owner round rest stepped
  | scheduling calls =>
    cases calls with
    | nil =>
      simp only [own, owner, Option.some.injEq] at stepped
      subst stepped
      exact orderly.moves .guard s.m_threads s.root s.rounds true s.running.state.stopping (fun _ => id)
        (fun w known => .inl (kept w known (by rw [owner]; rfl))) (fun _ => .inl rfl) rfl
    | cons call rest =>
      obtain ⟨body, thread⟩ := call
      simp only [own, owner, Option.some.injEq] at stepped
      subst stepped
      exact give_orderly orderly owner
  | guard =>
    rw [owner] at stands
    simp only [own, owner] at stepped
    split at stepped
    next quick =>
      cases stepped
      simp only [Bool.and_eq_true, beq_iff_eq] at quick
      have none := orderly.no_threads quick.1.1 quick.1.2
      exact orderly.moves .early s.m_threads s.root s.rounds s.running.state.autoStop true (fun _ => id)
        (fun w known => .inl (kept w known (by rw [owner]; rfl))) (fun _ => .inl rfl) ⟨congrArg (·, true) stands, none⟩
    next =>
      cases stepped
      exact orderly.moves .stop s.m_threads s.root s.rounds s.running.state.autoStop s.running.state.stopping
        (fun _ => id) (fun w known => .inl (kept w known (by rw [owner]; rfl))) (fun _ => .inl rfl) stands
  | early =>
    rw [owner] at stands
    simp only [own, owner, Option.some.injEq] at stepped
    subst stepped
    have keeps (w : Fin (n + 1)) (known : w ∈ s.m_threads ∨ w ∈ s.owner.awaited) := kept w known (by rw [owner]; rfl)
    cases verdict : s.running.state.verdict with
    | true =>
      have empty := ((verdict_eq_true_iff _).mp verdict).2.2.1
      exact orderly.moves .ready s.m_threads s.root s.rounds s.running.state.autoStop s.running.state.stopping
        (fun _ => id) (fun w known => .inl (keeps w known)) (fun _ => .inr (.inr empty))
        ⟨stands.2, congrArg Prod.snd stands.1⟩
    | false =>
      exact orderly.moves .stop s.m_threads s.root s.rounds s.running.state.autoStop s.running.state.stopping
        (fun _ => id) (fun w known => .inl (keeps w known)) (fun _ => .inl rfl) (congrArg Prod.fst stands.1)
  | stop =>
    rw [owner] at stands
    simp only [own, owner, Option.some.injEq] at stepped
    subst stepped
    exact orderly.moves .check s.m_threads s.root s.rounds s.running.state.autoStop true (fun _ => id)
      (fun w known => .inl (kept w known (by rw [owner]; rfl))) (fun _ => .inl rfl) (congrArg (·, true) stands)
  | check =>
    rw [owner] at stands
    simp only [own, owner, Option.some.injEq] at stepped
    subst stepped
    have keeps (w : Fin (n + 1)) (known : w ∈ s.m_threads ∨ w ∈ s.owner.awaited) := kept w known (by rw [owner]; rfl)
    cases calls : useCaller && !s.running.state.verdict with
    | true =>
      obtain ⟨caller, unfinished⟩ := Bool.and_eq_true_iff.mp calls
      -- the one place where the root fiber has to be fresh
      have root := (fresh rfl owner).resolve_left (by simpa using unfinished)
      exact orderly.moves .call s.m_threads s.root s.rounds s.running.state.autoStop s.running.state.stopping
        (fun _ => id) (fun w known => .inl (keeps w known)) (fun _ => .inl rfl) ⟨stands, caller, root⟩
    | false =>
      refine orderly.moves .swap s.m_threads s.root s.rounds s.running.state.autoStop s.running.state.stopping
        (fun _ => id) (fun w known => .inl (keeps w known)) (fun _ => .inr ?_) stands
      -- from here on nobody can be waiting for the root fiber
      rcases Bool.and_eq_false_iff.mp calls with alone | finished
      · exact .inl alone
      · exact .inr ((verdict_eq_true_iff _).mp (by simpa using finished)).2.2.1
  | call =>
    simp only [own, owner] at stepped
    split at stepped <;> cases stepped
    exact call_orderly orderly owner
  | inside =>
    rw [owner] at stands
    simp only [own, owner] at stepped
    split at stepped <;> cases stepped
    next exited =>
      refine orderly.moves .swap s.m_threads .term s.rounds s.running.state.autoStop s.running.state.stopping
        (fun _ => id) (fun w known => ?_) (by rw [owner]; exact nofun) stands.1
      rcases known with built | awaited
      · exact .inl built
      · rw [owner] at awaited
        rw [List.mem_singleton.mp awaited]
        exact .inr (.inr exited)
  | swap =>
    rw [owner] at stands
    simp only [own, owner, Option.some.injEq] at stepped
    subst stepped
    exact orderly.moves (.join s.m_threads) [] s.root s.rounds s.running.state.autoStop s.running.state.stopping nofun
      (fun w known => .inr (.inl (kept w known (by rw [owner]; rfl)))) (by rw [owner]; exact nofun) ⟨stands, rfl⟩
  | join thrs =>
    rw [owner] at stands
    obtain ⟨flags, none⟩ := stands
    cases thrs with
    | nil =>
      simp only [own, owner, Option.some.injEq] at stepped
      subst stepped
      exact orderly.moves .ready s.m_threads s.root s.rounds s.running.state.autoStop s.running.state.stopping
        (fun _ => id) (fun w known => .inl (kept w known (by rw [owner]; rfl))) (by rw [owner]; exact nofun)
        ⟨none, congrArg Prod.snd flags⟩
    | cons w rest =>
      simp only [own, owner] at stepped
      split at stepped <;> cases stepped
      next exited =>
        refine orderly.moves (.join rest) s.m_threads s.root s.rounds s.running.state.autoStop s.running.state.stopping
          (fun _ => id) (fun other known => ?_) (by rw [owner]; exact nofun) ⟨flags, none⟩
        rcases known with built | awaited
        · exact .inl built
        · rw [owner] at awaited
          rcases List.mem_cons.mp awaited with rfl | later
          · exact .inr (.inr exited)
          · exact .inr (.inl later)

end Cycle
end HpsSf.Scheduler
