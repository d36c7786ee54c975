import HpsSf.Scheduler.Callbacks

/-! On which thread a task runs.

A schedule call names a thread for its task. The name is kept in the queue entry,
which is destroyed when a worker takes it, and the entry that `run` makes for a
task that yielded READY names none. The calls are recorded beside the machine.
-/

set_option autoImplicit false

namespace HpsSf.Scheduler
open Foundation

variable {n : Nat}

/-- The workers, and for each fiber the threads named by the schedule calls for what it runs. -/
structure Tracked (n : Nat) where
  state : State n
  calls : FiberId → List Int

namespace Tracked

def note (thread : Int) (calls : FiberId → List Int) : Call → FiberId → List Int
  | .fiber f => Function.update calls f (calls f ++ [thread])
  | .callback | .empty => calls

/-- Calls for a fiber are noted with it; a fiber that is given a callback starts
with the call that gave the callback. -/
def record (p : Tracked n) : Label n → FiberId → List Int
  | .schedule _ fc thread => note thread p.calls fc
  | .scheduleAll _ fcs => fcs.foldl (note (-1)) p.calls
  | .newFiber _ => Function.update p.calls p.state.nextFiber []
  | .branch w =>
      match (p.state.worker w).pc with
      | .branch (some ⟨.cb _, thread⟩) =>
          Function.update p.calls ((p.state.worker w).cbFiber.getD p.state.nextFiber) [thread]
      | _ => p.calls
  | _ => p.calls

/-- Every schedule call for what the fiber runs named this thread. -/
def Bound (p : Tracked n) (f : FiberId) (t : Int) : Prop :=
  t ≠ -1 ∧ ∀ u ∈ p.calls f, u = t

/-- A task that was scheduled with a thread is with the worker of that thread only. -/
def OnThread (tid : Fin n → Int) (p : Tracked n) : Prop :=
  ∀ w f stage t, StageOn p.state w f stage → p.Bound f t → tid w = t

/-- `run` puts no task with a thread back into the queue, unless all workers are on that
thread, and no callback with a thread onto a fiber that is in other places. -/
structure KeepsThreads (tid : Fin n → Int) (p : Tracked n) (label : Label n) : Prop where
  requeue : ∀ w f t, label = .task w .proceed → StageOn p.state w f .requeue → p.Bound f t →
    ∀ other, tid other = t
  recycle : ∀ w c thread f, label = .branch w → (p.state.worker w).pc = .branch (some ⟨.cb c, thread⟩) →
    (p.state.worker w).cbFiber = some f → thread ≠ -1 → places f p.state ≤ 1

end Tracked

open Tracked

def tracked (tid : Fin n → Int) : System (Tracked n) (Label n) where
  start p := p = ⟨State.initial n, fun _ => []⟩
  step p label := (step tid p.state label).map fun next => ⟨next, p.record label⟩

/-- The worker has taken this fiber from the queue, or is on it. -/
def Worker.At (worker : Worker) (f : FiberId) : Prop :=
  (∃ thread, worker.pc = .branch (some ⟨.fiber f, thread⟩)) ∨ ∃ stage, worker.On f stage

theorem Worker.At.refs_pos {worker : Worker} {f : FiberId} (present : worker.At f) : 0 < worker.refs f := by
  rcases present with ⟨thread, branching⟩ | ⟨stage, on⟩
  · simp [Worker.refs, branching, Pc.refs]
  · exact on.refs_pos

theorem queued_pos {f : FiberId} {thread : Int} {fibers : List Entry} (entry : ⟨.fiber f, thread⟩ ∈ fibers) :
    0 < queued f fibers :=
  List.countP_pos_iff.mpr ⟨_, entry, by simp⟩

/-- Where a task may be that was scheduled with a thread. -/
structure Placed (tid : Fin n → Int) (p : Tracked n) : Prop where
  known : Known p.state
  queue : ∀ f thread t, ⟨.fiber f, thread⟩ ∈ p.state.fibers → p.Bound f t → thread = t ∨ ∀ w, tid w = t
  workers : ∀ w f t, (p.state.worker w).At f → p.Bound f t → tid w = t
  given : ∀ w c thread, (p.state.worker w).pc = .branch (some ⟨.cb c, thread⟩) → thread = -1 ∨ thread = tid w

section
variable {tid : Fin n → Int} {p q : Tracked n}

theorem placed_initial : Placed tid (⟨State.initial n, fun _ => []⟩ : Tracked n) where
  known f _ := places_initial f
  queue _ _ _ := nofun
  workers _ _ _ present := absurd present.refs_pos (Nat.lt_irrefl 0)
  given _ _ _ := nofun

/-- A step of one worker: what is elsewhere keeps its calls, and its own fiber is on its thread. -/
theorem Placed.turn (placed : Placed tid p) (known : Known q.state) (w : Fin n) (own : Worker)
    (worker : q.state.worker = Function.update p.state.worker w own)
    (frame : ∀ f t, Elsewhere p.state w f → q.Bound f t → p.Bound f t)
    (queue : ∀ f thread, ⟨.fiber f, thread⟩ ∈ q.state.fibers → ⟨.fiber f, thread⟩ ∈ p.state.fibers ∨
      ∀ t, q.Bound f t → ∀ w, tid w = t)
    (here : ∀ f t, own.At f → q.Bound f t → tid w = t)
    (given : ∀ c thread, own.pc = .branch (some ⟨.cb c, thread⟩) → thread = -1 ∨ thread = tid w) :
    Placed tid q where
  known := known
  queue f thread t entry bound := by
    rcases queue f thread entry with old | new
    · exact placed.queue f thread t old (frame f t (.inl (queued_pos old)) bound)
    · exact .inr (new t bound)
  workers other f t present bound := by
    rw [worker] at present
    rcases eq_or_ne other w with rfl | distinct
    · rw [Function.update_self] at present
      exact here f t present bound
    · rw [Function.update_of_ne distinct] at present
      exact placed.workers other f t present (frame f t (.inr ⟨other, distinct, present.refs_pos⟩) bound)
  given other c thread branching := by
    rw [worker] at branching
    rcases eq_or_ne other w with rfl | distinct
    · rw [Function.update_self] at branching
      exact given c thread branching
    · rw [Function.update_of_ne distinct] at branching
      exact placed.given other c thread branching

/-- A step that moves no worker: entries are added with the call that they come from. -/
theorem Placed.calm (placed : Placed tid p) (known : Known q.state) (worker : q.state.worker = p.state.worker)
    (frame : ∀ f t, 0 < places f p.state → q.Bound f t → p.Bound f t)
    (queue : ∀ f thread, ⟨.fiber f, thread⟩ ∈ q.state.fibers → ⟨.fiber f, thread⟩ ∈ p.state.fibers ∨
      ∀ t, q.Bound f t → thread = t) : Placed tid q where
  known := known
  queue f thread t entry bound := by
    rcases queue f thread entry with old | new
    · have present : 0 < places f p.state := Nat.lt_of_lt_of_le (queued_pos old) (Nat.le_add_right _ _)
      exact placed.queue f thread t old (frame f t present bound)
    · exact .inl (new t bound)
  workers w f t present bound := by
    rw [worker] at present
    exact placed.workers w f t present (frame f t (places_pos_of_refs present.refs_pos) bound)
  given w c thread branching := placed.given w c thread (by rwa [worker] at branching)

/-- A worker puts a callback on a fiber that has no other place, or names no thread. -/
theorem Placed.bind (placed : Placed tid p) (known : Known q.state) {w : Fin n} {own : Worker} {g : FiberId}
    {thread : Int} (worker : q.state.worker = Function.update p.state.worker w own)
    (pc : own.pc = .task .enter .callback) (owned : own.cbFiber = some g)
    (calls : q.calls = Function.update p.calls g [thread]) (fibers : q.state.fibers = p.state.fibers)
    (mine : thread = -1 ∨ thread = tid w) (only : thread ≠ -1 → ¬ Elsewhere p.state w g) : Placed tid q := by
  have same_thread {t : Int} (bound : q.Bound g t) : thread = t := bound.2 thread (by simp [calls])
  refine placed.turn known w own worker (fun f t elsewhere bound => ?_) (fun f thread' entry => ?_)
    (fun f t present bound => ?_) fun c thread' branching => ?_
  · rcases eq_or_ne f g with rfl | other
    · have pinned : thread ≠ -1 := by
        rw [same_thread bound]
        exact bound.1
      exact absurd elsewhere (only pinned)
    · exact ⟨bound.1, fun u old => bound.2 u (by simpa [calls, other] using old)⟩
  · exact .inl (fibers ▸ entry)
  · obtain ⟨_, branching⟩ | ⟨stage, branch, running, holds⟩ := present
    · cases pc.symm.trans branching
    · cases pc.symm.trans running
      obtain rfl : g = f := Option.some.inj (owned.symm.trans holds)
      have same := same_thread bound
      subst same
      exact (mine.resolve_left bound.1).symm
  · cases pc.symm.trans branching

/-- A worker goes on to where it has no task. -/
theorem Placed.aside (placed : Placed tid p) (known : Known q.state) {w : Fin n} {own : Worker}
    (worker : q.state.worker = Function.update p.state.worker w own) (calls : q.calls = p.calls)
    (fibers : q.state.fibers = p.state.fibers) (untasked : ∀ ft, own.pc ≠ .branch (some ft))
    (free : ∀ stage branch, own.pc ≠ .task stage branch) : Placed tid q := by
  have same (f : FiberId) (t : Int) (bound : q.Bound f t) : p.Bound f t := by
    rwa [Tracked.Bound, calls] at bound
  refine placed.turn known w own worker (fun f t _ => same f t) (fun f thread entry => .inl (fibers ▸ entry))
    (fun f t present => ?_) fun c thread branching => absurd branching (untasked _)
  obtain ⟨thread, branching⟩ | ⟨stage, branch, running, _⟩ := present
  · exact absurd branching (untasked _)
  · exact absurd running (free stage branch)

/-- Noting a call leaves fewer tasks with a thread. -/
theorem note_sub (thread : Int) (calls : FiberId → List Int) (fc : Call) {f : FiberId} {u : Int}
    (old : u ∈ calls f) : u ∈ note thread calls fc f := by
  cases fc with
  | fiber g =>
    rcases eq_or_ne f g with rfl | other
    · simp [note, old]
    · simpa [note, other] using old
  | callback | empty => exact old

theorem noteAll_sub (fcs : List Call) (calls : FiberId → List Int) {f : FiberId} {u : Int}
    (old : u ∈ calls f) : u ∈ fcs.foldl (note (-1)) calls f := by
  induction fcs generalizing calls with
  | nil => exact old
  | cons fc rest ih => exact ih _ (note_sub (-1) calls fc old)

theorem entry_accept {s : State n} {thread thread' : Int} {fc : Call} {f : FiberId}
    (entry : ⟨.fiber f, thread'⟩ ∈ (s.accept thread fc).fibers) (calls : FiberId → List Int) :
    ⟨.fiber f, thread'⟩ ∈ s.fibers ∨ thread' ∈ note thread calls fc f := by
  cases fc with
  | fiber g =>
    simp only [State.accept, scheduleNoLock, List.mem_append, List.mem_singleton] at entry
    refine entry.imp id fun new => ?_
    cases new
    simp [note]
  | callback => exact .inl (by simpa [State.accept, scheduleNoLock] using entry)
  | empty => exact .inl entry

theorem entry_acceptAll {s : State n} {thread : Int} {fcs : List Call} {f : FiberId} (calls : FiberId → List Int)
    (entry : ⟨.fiber f, thread⟩ ∈ (fcs.foldl (fun s fc => s.accept (-1) fc) s).fibers) :
    ⟨.fiber f, thread⟩ ∈ s.fibers ∨ thread ∈ fcs.foldl (note (-1)) calls f := by
  induction fcs generalizing s calls with
  | nil => exact .inl entry
  | cons fc rest ih =>
    rcases ih (note (-1) calls fc) entry with old | new
    · exact (entry_accept old calls).imp id fun noted => noteAll_sub rest _ noted
    · exact .inr new

/-- Only the last stage of a task that yielded READY makes a queue entry. -/
theorem advance_requeues {fiber : Fiber} {branch : Branch} {stage : Stage} {act : Act} {effect : Effect}
    (advanced : advance fiber branch stage act = some effect) (requeues : effect.requeues = true) :
    stage = .requeue ∧ act = .proceed := by
  cases stage <;> cases act <;> simp only [advance, reduceCtorEq] at advanced
  case recycle.proceed =>
    obtain ⟨_, _, rfl⟩ := Option.map_eq_some_iff.mp advanced
    cases requeues
  all_goals grind

theorem step_placed {label : Label n} (placed : Placed tid p) (keeps : KeepsThreads tid p label)
    (stepped : (tracked tid).step p label = some q) : Placed tid q := by
  obtain ⟨next, moved, rfl⟩ := Option.map_eq_some_iff.mp stepped
  have known := step_known placed.known moved
  have same (w : Fin n) (f : FiberId) (t : Int) : Elsewhere p.state w f → p.Bound f t → p.Bound f t :=
    fun _ => id
  cases label with
  | schedule caller fc thread =>
    obtain ⟨_, _, rfl⟩ := step_schedule moved
    refine placed.calm known (accept_worker _ _ _) (fun f t _ bound => ?_) fun f thread' entry => ?_
    · exact ⟨bound.1, fun u old => bound.2 u (note_sub thread p.calls fc old)⟩
    · exact (entry_accept entry p.calls).imp id fun noted t bound => bound.2 _ noted
  | scheduleAll caller fcs =>
    obtain ⟨_, _, rfl⟩ := step_scheduleAll moved
    refine placed.calm known (acceptAll_worker _ _) (fun f t _ bound => ?_) fun f thread' entry => ?_
    · exact ⟨bound.1, fun u old => bound.2 u (noteAll_sub fcs p.calls old)⟩
    · exact (entry_acceptAll _ entry).imp id fun noted t bound => bound.2 _ noted
  | newFiber caller =>
    cases step_newFiber moved
    refine placed.calm known rfl (fun f t present bound => ⟨bound.1, fun u old => bound.2 u ?_⟩) fun _ _ => .inl
    have other : f ≠ p.state.nextFiber := by
      rintro rfl
      rw [placed.known _ (Nat.le_refl _)] at present
      cases present
    simpa [record, other] using old
  | setAutoStop =>
    cases moved
    exact placed.calm known rfl (fun _ _ _ => id) fun _ _ => .inl
  | setStopping =>
    cases moved
    exact placed.calm known rfl (fun _ _ _ => id) fun _ _ => .inl
  | scan w =>
    obtain ⟨_, ⟨ft, left, picked, rfl⟩ | ⟨_, rfl⟩⟩ := step_scan moved
    · obtain ⟨unskipped, front, rest, whole, shorter⟩ := pick_eq_some picked
      have entry : ft ∈ p.state.fibers := by rw [whole]; simp
      have mine : ft.thread = -1 ∨ ft.thread = tid w := by
        simp only [FiberAndThread.skipped, Bool.or_eq_false_iff, Bool.and_eq_false_iff] at unskipped
        simpa using unskipped.1
      refine placed.turn known w _ rfl (same w) (fun f thread entry => .inl ?_) (fun f t present bound => ?_)
        fun c thread branching => ?_
      · have kept : (⟨.fiber f, thread⟩ : Entry) ∈ front ++ rest := shorter ▸ entry
        rw [whole]
        simp only [List.mem_append, List.mem_cons] at kept ⊢
        exact kept.imp id .inr
      · rcases present with ⟨thread, branching⟩ | ⟨stage, branch, running, _⟩
        · cases branching
          rcases placed.queue f thread t entry bound with rfl | all
          · exact (mine.resolve_left bound.1).symm
          · exact all w
        · cases running
      · cases branching
        exact mine
    · exact placed.aside known rfl rfl rfl (by simp) (by simp)
  | branch w =>
    obtain ⟨g, thread, branching, rfl⟩ | ⟨c, thread, g, branching, owned, _, rfl⟩ |
      ⟨c, thread, branching, unowned, rfl⟩ | ⟨branching, ⟨rfl, _⟩ | ⟨rfl, _⟩⟩ := step_branch moved
    · have calls : p.record (.branch w) = p.calls := by simp [record, branching]
      rw [calls]
      refine placed.turn known w _ rfl (same w) (fun _ _ => .inl) (fun f t present bound => ?_) (by simp)
      obtain ⟨_, elsewhere⟩ | ⟨stage, branch, running, holds⟩ := present
      · cases elsewhere
      · cases running
        cases holds
        exact placed.workers w g t (.inl ⟨thread, branching⟩) bound
    · have calls : p.record (.branch w) = Function.update p.calls g [thread] := by simp [record, branching, owned]
      rw [calls]
      refine placed.bind known rfl rfl owned rfl rfl (placed.given w c thread branching) fun pinned elsewhere => ?_
      have single := keeps.recycle w c thread g rfl branching owned pinned
      have here : 0 < (p.state.worker w).refs g := by simp [Worker.refs, owned]
      rcases elsewhere with entry | ⟨other, distinct, present⟩
      · exact absurd (queued_exclusive single here) (Nat.pos_iff_ne_zero.mp entry)
      · exact absurd (refs_exclusive single distinct.symm here) (Nat.pos_iff_ne_zero.mp present)
    · have calls : p.record (.branch w) = Function.update p.calls p.state.nextFiber [thread] := by
        simp [record, branching, unowned]
      rw [calls]
      exact placed.bind known rfl rfl rfl rfl rfl (placed.given w c thread branching)
        fun _ => placed.known.not_elsewhere (Nat.le_refl _)
    all_goals
      have calls : p.record (.branch w) = p.calls := by simp [record, branching]
      exact placed.aside known rfl calls rfl (by simp) (by simp)
  | task w act =>
    obtain ⟨stage, branch, g, effect, running, owned, advanced, rfl⟩ := step_task moved
    have on : StageOn p.state w g stage := ⟨branch, running, owned⟩
    refine placed.turn known w _ rfl (same w) (fun f thread entry => ?_) (fun f t present bound => ?_)
      fun c thread branching => ?_
    · cases requeues : effect.requeues with
      | false => exact .inl (by simpa [State.apply, requeues] using entry)
      | true =>
        obtain ⟨rfl, rfl⟩ := advance_requeues advanced requeues
        have added : (⟨.fiber f, thread⟩ : Entry) ∈ p.state.fibers ∨ f = g ∧ thread = -1 := by
          simpa [State.apply, scheduleNoLock, requeues] using entry
        refine added.imp id fun added t bound => ?_
        obtain ⟨rfl, _⟩ := added
        exact keeps.requeue w f t rfl on bound
    · obtain ⟨_, branching⟩ | ⟨later, continues⟩ := present
      · obtain ⟨_, pc, _⟩ | ⟨pc, _⟩ := advance_pc advanced <;> cases pc.symm.trans branching
      · obtain ⟨rfl, _⟩ := after_on owned advanced continues
        exact placed.workers w f t (.inr ⟨stage, on⟩) bound
    · obtain ⟨_, pc, _⟩ | ⟨pc, _⟩ := advance_pc advanced <;> cases pc.symm.trans branching
  | idle w ended =>
    obtain ⟨_, rfl⟩ := step_idle moved
    exact placed.aside known rfl rfl rfl (by simp) (by simp)

end

/-- A test of `KeepsThreads` for replays. -/
def keepsTest (p : Tracked n) : Label n → Bool
  | .task w .proceed =>
      match (p.state.worker w).pc with
      | .task .requeue branch => ((p.state.worker w).fiberOf branch).all fun f => (p.calls f).contains (-1)
      | _ => true
  | .branch w =>
      match (p.state.worker w).pc with
      | .branch (some ⟨.cb _, thread⟩) => thread == -1 || (p.state.worker w).cbFiber.isNone
      | _ => true
  | _ => true

theorem keepsThreads_of_test {tid : Fin n → Int} {p : Tracked n} {label : Label n}
    (passed : keepsTest p label = true) : KeepsThreads tid p label := by
  refine ⟨fun w f t same on bound => ?_, fun w c thread f same branching owned pinned => ?_⟩
  · obtain ⟨branch, running, holds⟩ := on
    have noted : -1 ∈ p.calls f := by simpa [same, keepsTest, running, holds] using passed
    exact absurd (bound.2 (-1) noted).symm bound.1
  · exact absurd (by simpa [same, keepsTest, branching, owned] using passed) pinned

/-- A callback without a thread yields on worker 0 and ends on worker 1; then worker 1 runs
a fiber and worker 0 a callback, each scheduled with its thread. -/
def threadsKept : List (Label 2) :=
  [.schedule none .callback (-1), .scan 0, .branch 0, .task 0 .proceed, .task 0 .proceed, .task 0 .yieldToReady,
   .task 0 .proceed, .task 0 .proceed, .task 0 .proceed, .task 0 .proceed, .newFiber none,
   .schedule none (.fiber 1) 2, .schedule none .callback 1, .scan 1, .branch 1, .task 1 .proceed, .task 1 .proceed,
   .task 1 .returns, .task 1 .proceed, .task 1 .proceed, .task 1 .proceed, .scan 1, .branch 1, .task 1 .proceed,
   .task 1 .proceed, .scan 0, .branch 0, .task 0 .proceed, .task 0 .proceed]

/-- Worker 0 runs a callback scheduled with its thread, which yields; worker 1 resumes it. -/
def threadLost : List (Label 2) :=
  [.schedule none .callback 1, .scan 0, .branch 0, .task 0 .proceed, .task 0 .proceed, .task 0 .yieldToReady,
   .task 0 .proceed, .task 0 .proceed, .task 0 .proceed, .task 0 .proceed, .scan 1, .branch 1, .task 1 .proceed,
   .task 1 .proceed]

end HpsSf.Scheduler
