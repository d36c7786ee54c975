import HpsSf.Foundation.Fairness
import HpsSf.Scheduler.Rounds
import Mathlib.Data.Prod.Lex

/-! Every `stop()` of an owner returns, as long as no round needs the root fiber again.

While the owner waits for a worker in `stop()`, some worker can go on: one that is
on a task, else one that the first entry is for, else the one that is waited for,
which sees the verdict and leaves `run`.
-/

set_option autoImplicit false

namespace HpsSf.Scheduler
open Foundation

variable {n : Nat} {useCaller : Bool} {I : Type}

/-- The party that takes the step. -/
def Party.actor : Party n → Option (Party n) := some

namespace Cycle

/-- The worker without which the owner does not go on. -/
def awaits (s : Cycle n useCaller I) : Option (Fin (n + 1)) :=
  s.owner.awaited.head?.filter fun w => (s.running.state.worker w).pc ≠ .exited

def busy (s : Cycle n useCaller I) : Option (Fin (n + 1)) :=
  (List.finRange (n + 1)).find? fun w => !(s.running.state.worker w).pc.resting

/-- A worker that can take the first entry. -/
def server (tid : Nat → Fin (n + 1) → Int) (s : Cycle n useCaller I) : Option (Fin (n + 1)) :=
  s.running.state.fibers.head?.bind fun ft => (List.finRange (n + 1)).find? fun w =>
    (ft.thread == -1 || ft.thread == tid s.built w) && !(s.running.state.worker w).gone

def helper (tid : Nat → Fin (n + 1) → Int) (s : Cycle n useCaller I) : Party n :=
  match s.awaits with
  | none => .owner
  | some target => .worker ((s.busy.or (s.server tid)).getD target)

/-- The steps of the owner up to the end of the last round, waiting apart. -/
def ahead (s : Cycle n useCaller I) : Nat :=
  (s.rounds.map fun round => round.calls.length + n + 12).sum +
    match s.owner with
    | .ready => 0
    | .scheduling calls => calls.length + 10 + s.m_threads.length
    | .guard => 9 + s.m_threads.length
    | .early => 8 + s.m_threads.length
    | .stop => 7 + s.m_threads.length
    | .check => 6 + s.m_threads.length
    | .call => 5 + s.m_threads.length
    | .inside => 4 + s.m_threads.length
    | .swap => 3 + s.m_threads.length
    | .join thrs => 1 + thrs.length

/-- The steps of a worker that rests up to its next scan. -/
def toScan (worker : Worker) : Nat :=
  match worker.pc with
  | .branch none => 2
  | .idle => 1
  | _ => 0

/-- The steps of a worker that rests up to the end of `run`, when the verdict stands. -/
def toExit (worker : Worker) : Nat :=
  match worker.pc, worker.idleOver with
  | .scan, false => 5
  | .branch none, false => 4
  | .idle, _ => 3
  | .scan, true => 2
  | .branch none, true => 1
  | _, _ => 0

/-- How far the helper is from what it helps with. -/
def remains (tid : Nat → Fin (n + 1) → Int) (s : Cycle n useCaller I) : Nat :=
  match s.awaits with
  | none => 0
  | some target =>
      match s.busy, s.server tid with
      | some _, _ => 1
      | none, some w => 1 + toScan (s.running.state.worker w)
      | none, none => 1 + toExit (s.running.state.worker target)

def rank (prog : I → Program I) (cost : I → Nat) (tid : Nat → Fin (n + 1) → Int) (s : Cycle n useCaller I) :
    Nat ×ₗ Nat ×ₗ Nat :=
  toLex (s.ahead, toLex (s.running.workload prog cost, s.remains tid))

variable {prog : I → Program I} {cost : I → Nat} {tid : Nat → Fin (n + 1) → Int} {s next : Cycle n useCaller I}
  {w : Fin (n + 1)}

theorem pool_length_le (n : Nat) (useCaller : Bool) : (pool n useCaller).length ≤ n + 1 := by
  have shorter := List.length_filter_le (fun w : Fin (n + 1) => !isRoot useCaller w) (List.finRange (n + 1))
  rwa [List.length_finRange] at shorter

theorem own_ahead (orderly : s.Orderly tid) (stepped : s.own tid = some next) : next.ahead < s.ahead := by
  have stands := orderly.stands
  cases owner : s.owner with
  | ready =>
    rw [owner] at stands
    obtain ⟨none, stopping⟩ := stands
    simp only [own, owner] at stepped
    split at stepped
    next => cases stepped
    next round rest rounds =>
      cases starts : round.start with
      | false =>
        simp only [starts, Bool.false_eq_true, if_false, Option.map_some, Option.some.injEq] at stepped
        subst stepped
        simp only [ahead, owner, rounds, none, List.map_cons, List.sum_cons, List.length_nil]
        omega
      | true =>
        rw [starts, if_pos rfl, start_eq stopping none, Option.map_some] at stepped
        cases stepped
        have small := pool_length_le n useCaller
        simp only [ahead, owner, rounds, List.map_cons, List.sum_cons]
        omega
  | scheduling calls =>
    cases calls with
    | nil =>
      simp only [own, owner, Option.some.injEq] at stepped
      subst stepped
      simp only [ahead, owner, List.length_nil]
      omega
    | cons call rest =>
      obtain ⟨body, thread⟩ := call
      simp only [own, owner, Option.some.injEq] at stepped
      subst stepped
      simp only [ahead, owner, List.length_cons]
      omega
  | guard =>
    simp only [own, owner] at stepped
    split at stepped <;> cases stepped <;> simp only [ahead, owner] <;> omega
  | early =>
    simp only [own, owner, Option.some.injEq] at stepped
    subst stepped
    cases verdict : s.running.state.verdict <;> simp [ahead, owner]
  | check =>
    simp only [own, owner, Option.some.injEq] at stepped
    subst stepped
    cases calls : useCaller && !s.running.state.verdict <;> simp [ahead, owner]
  | stop | swap =>
    simp only [own, owner, Option.some.injEq] at stepped
    subst stepped
    simp only [ahead, owner]
    omega
  | call | inside =>
    simp only [own, owner] at stepped
    split at stepped <;> cases stepped
    simp only [ahead, owner]
    omega
  | join thrs =>
    cases thrs with
    | nil =>
      simp only [own, owner, Option.some.injEq] at stepped
      subst stepped
      simp [ahead, owner]
    | cons w rest =>
      simp only [own, owner] at stepped
      split at stepped <;> cases stepped
      simp [ahead, owner]

/-- The owner goes on unless it waits for a worker: its assertions hold. -/
theorem own_able (orderly : s.Orderly tid) (more : ¬ (s.owner = .ready ∧ s.rounds = [])) (free : s.awaits = none) :
    ∃ next, s.own tid = some next := by
  have stands := orderly.stands
  have arrived (w : Fin (n + 1)) (awaited : s.owner.awaited.head? = some w) :
      (s.running.state.worker w).pc = .exited := by
    rw [awaits, awaited, Option.filter_eq_none_iff] at free
    simpa using free w rfl
  cases owner : s.owner with
  | ready =>
    rw [owner] at stands
    obtain ⟨none, stopping⟩ := stands
    cases rounds : s.rounds with
    | nil => exact absurd ⟨owner, rounds⟩ more
    | cons round rest =>
      cases starts : round.start <;> simp [own, owner, rounds, starts, start_eq stopping none]
  | scheduling calls => cases calls <;> simp [own, owner]
  | guard =>
    simp only [own, owner]
    split <;> exact ⟨_, rfl⟩
  | early | stop | check | swap => simp [own, owner]
  | call =>
    rw [owner] at stands
    simp [own, owner, stands.2.2]
  | inside =>
    have exited := arrived 0 (by rw [owner]; rfl)
    simp [own, owner, exited]
  | join thrs =>
    cases thrs with
    | nil => simp [own, owner]
    | cons w rest =>
      have exited := arrived w (by rw [owner]; rfl)
      simp [own, owner, exited]

theorem awaits_live {target : Fin (n + 1)} (waits : s.awaits = some target) :
    (s.running.state.worker target).pc ≠ .exited := by
  have kept := (Option.filter_eq_some_iff.mp waits).2
  simpa using kept

theorem busy_some (found : s.busy = some w) : (s.running.state.worker w).pc.resting = false := by
  simpa using List.find?_some found

theorem busy_none (nobody : s.busy = none) (w : Fin (n + 1)) : (s.running.state.worker w).pc.resting = true := by
  have rests := List.find?_eq_none.mp nobody w (List.mem_finRange w)
  simpa using rests

theorem server_some (found : s.server tid = some w) : ∃ ft ∈ s.running.state.fibers, ft.For (tid s.built w) ∧
    (s.running.state.worker w).gone = false := by
  obtain ⟨ft, first, found⟩ := Option.bind_eq_some_iff.mp found
  refine ⟨ft, List.mem_of_mem_head? first, ?_⟩
  simpa [FiberAndThread.For] using List.find?_some found

/-- While the owner waits, somebody is there for the first entry. -/
theorem server_none (orderly : s.Orderly tid) {target : Fin (n + 1)} (waits : s.awaits = some target)
    (nobody : s.server tid = none) :
    s.running.state.fibers = [] := by
  cases fibers : s.running.state.fibers with
  | nil => rfl
  | cons ft rest =>
    obtain ⟨w, its, stays⟩ := orderly.served ft (by simp [fibers])
    have calls : s.owner.mayCall = false := by
      cases owner : s.owner <;> simp [awaits, owner, Owner.awaited] at waits <;> rfl
    rw [calls] at stays
    simp only [server, fibers, List.head?_cons, Option.bind_some] at nobody
    have unfit := List.find?_eq_none.mp nobody w (List.mem_finRange w)
    rcases stays with stays | ⟨impossible, _⟩
    · rcases its with same | same <;> simp [same, stays] at unfit
    · cases impossible

theorem helper_able (orderly : s.Orderly tid) (more : ¬ (s.owner = .ready ∧ s.rounds = [])) (prog : I → Program I)
    (rounds : List (Round n useCaller I)) : (cycle prog tid rounds).Able Party.actor (s.helper tid) s := by
  unfold helper
  split
  next free =>
    obtain ⟨next, stepped⟩ := own_able orderly more free
    exact ⟨.owner, rfl, next, stepped⟩
  next target waits =>
    have live : (s.running.state.worker ((s.busy.or (s.server tid)).getD target)).pc ≠ .exited := by
      cases busy : s.busy with
      | some w =>
        intro exited
        have works := busy_some busy
        rw [show (s.running.state.worker w).pc = .exited from exited] at works
        cases works
      | none =>
        cases server : s.server tid with
        | some w =>
          intro exited
          obtain ⟨_, _, _, stays⟩ := server_some server
          simp [Worker.gone, show (s.running.state.worker w).pc = .exited from exited] at stays
        | none => exact awaits_live waits
    obtain ⟨running, stepped⟩ := Running.work_able orderly.sound prog (tid s.built) live
    exact ⟨.worker _, rfl, { s with running := running }, congrArg (Option.map _) stepped⟩

/-! ## A step that finds no task -/

theorem rests_awaits {running : Running (n + 1) I} {own : Worker}
    (worker : running.state.worker = Function.update s.running.state.worker w own)
    (live : (s.running.state.worker w).pc ≠ .exited) :
    awaits { s with running := running } = s.awaits ∨ s.awaits = some w ∧
      awaits { s with running := running } = none := by
  unfold awaits
  cases s.owner.awaited.head? with
  | none => exact .inl rfl
  | some target =>
    rcases eq_or_ne target w with rfl | distinct
    · cases pc : own.pc <;> simp [worker, Option.filter, live, pc]
    · exact .inl (by simp [worker, Option.filter, Function.update_of_ne distinct])

variable {running : Running (n + 1) I} {own : Worker}

theorem rests_busy (worker : running.state.worker = Function.update s.running.state.worker w own)
    (idles : Running.Idles (tid s.built) s.running.state w own) : busy { s with running := running } = s.busy := by
  refine congrArg (List.find? · _) (funext fun other => ?_)
  simp only [worker]
  rcases eq_or_ne other w with rfl | distinct
  · rw [Function.update_self, idles.resting.1, idles.resting.2]
  · rw [Function.update_of_ne distinct]

theorem rests_server (orderly : s.Orderly tid)
    (worker : running.state.worker = Function.update s.running.state.worker w own)
    (fibers : running.state.fibers = s.running.state.fibers)
    (idles : Running.Idles (tid s.built) s.running.state w own) :
    server tid { s with running := running } = s.server tid := by
  unfold server
  simp only [fibers]
  cases first : s.running.state.fibers.head? with
  | none => rfl
  | some ft =>
    refine congrArg (List.find? · _) (funext fun other => ?_)
    simp only [worker]
    rcases eq_or_ne other w with rfl | distinct
    · rw [Function.update_self]
      cases mine : ft.thread == -1 || ft.thread == tid s.built other with
      | false => rfl
      | true =>
        have its : ft.For (tid s.built other) := by simpa [FiberAndThread.For] using mine
        have entry := List.mem_of_mem_head? first
        cases idles with
        | scan pc nothing =>
          have skipped := skipped_of_pick_eq_none nothing ft entry
          rw [orderly.sound.unskipped entry its] at skipped
          cases skipped
        | enter pc unended => simp [Worker.gone, pc, unended]
        | idle pc => simp [Worker.gone, pc]
        | exit pc ended => simp [Worker.gone, pc, ended]
    · rw [Function.update_of_ne distinct]

/-- While the owner waits and there is nothing to do, the verdict stands. -/
theorem waiting_verdict (orderly : s.Orderly tid) {target : Fin (n + 1)} (waits : s.awaits = some target)
    (nobody : s.busy = none) (empty : s.running.state.fibers = []) : s.running.state.verdict = true := by
  have flags : s.flags = (true, true) := by
    have stands := orderly.stands
    cases owner : s.owner <;> simp [awaits, owner, Owner.awaited] at waits <;> rw [owner] at stands <;> exact stands.1
  have none : activeWorkers s.running.state = 0 :=
    (activeWorkers_eq_zero_iff _).mpr fun w => Pc.not_active_of_resting (busy_none nobody w)
  have counted : s.running.state.activeThreadCount = 0 := by rw [orderly.counted, none]; rfl
  exact (verdict_eq_true_iff _).mpr ⟨congrArg Prod.fst flags, congrArg Prod.snd flags, empty, counted⟩

/-- A step that finds no task is one towards what the owner waits for, or one of somebody who does not help. -/
theorem rests_closer (orderly : s.Orderly tid) (rests : Running.Rests (tid s.built) s.running running w) :
    remains tid { s with running := running } < s.remains tid ∨
      remains tid { s with running := running } = s.remains tid ∧ helper tid
        { s with running := running } = s.helper tid ∧
        s.helper tid ≠ .worker w := by
  obtain ⟨own, count, idles, same⟩ := rests
  have worker : running.state.worker = Function.update s.running.state.worker w own := by rw [same]; rfl
  have fibers : running.state.fibers = s.running.state.fibers := by rw [same]; rfl
  have busy := rests_busy worker idles
  have server := rests_server orderly worker fibers idles
  have live : (s.running.state.worker w).pc ≠ .exited := by
    cases idles <;> simp_all
  rcases rests_awaits worker live with awaits | ⟨target, free⟩
  case inr =>
    -- the owner has waited for this worker
    left
    simp only [remains, target, free]
    split <;> omega
  -- nothing has changed but the worker itself, so the helper is the same as before
  simp only [remains, helper, awaits, busy, server, worker]
  cases waits : s.awaits with
  | none => exact .inr ⟨rfl, trivial, nofun⟩
  | some target =>
    cases works : s.busy with
    | some other =>
      refine .inr ⟨rfl, trivial, fun same => ?_⟩
      obtain rfl : other = w := Party.worker.inj same
      have unrested := busy_some works
      rw [idles.resting.1] at unrested
      cases unrested
    | none =>
      cases serves : s.server tid with
      | some other =>
        rcases eq_or_ne other w with rfl | distinct
        · left
          obtain ⟨ft, entry, its, stays⟩ := server_some serves
          simp only [Function.update_self]
          cases idles with
          | scan pc nothing =>
            -- its scan would have taken the entry
            have skipped := skipped_of_pick_eq_none nothing ft entry
            rw [orderly.sound.unskipped entry its] at skipped
            cases skipped
          | enter pc | idle pc => simp [toScan, pc]
          | exit pc ended => simp [Worker.gone, pc, ended] at stays
        · exact .inr ⟨by simp only [Function.update_of_ne distinct], trivial, by simpa using distinct⟩
      | none =>
        have verdict := waiting_verdict orderly waits works (server_none orderly waits serves)
        rcases eq_or_ne target w with rfl | distinct
        · left
          simp only [Function.update_self]
          cases idles with
          | scan pc => cases ended : (s.running.state.worker target).idleOver <;> simp [toExit, pc, ended]
          | enter pc unended => simp [toExit, pc, unended]
          | idle pc => simp [toExit, pc, verdict]
          | exit pc ended => simp [toExit, pc, ended]
        · exact .inr ⟨by simp only [Function.update_of_ne distinct], trivial, by simpa using distinct⟩

/-! ## Runs -/

theorem cycle_worker {rounds : List (Round n useCaller I)}
    (stepped : (cycle prog tid rounds).step s (.worker w) = some next) :
    ∃ running, s.running.work prog (tid s.built) w = some running ∧ next = { s with running := running } := by
  obtain ⟨running, worked, rfl⟩ := Option.map_eq_some_iff.mp stepped
  exact ⟨running, worked, rfl⟩

theorem step_orderly {rounds : List (Round n useCaller I)} (priced : Priced prog cost) (orderly : s.Orderly tid)
    {party : Party n}
    (fresh : RootFresh s party) (stepped : (cycle prog tid rounds).step s party = some next) : next.Orderly tid := by
  cases party with
  | owner => exact own_orderly orderly fresh stepped
  | worker w =>
    obtain ⟨running, worked, rfl⟩ := cycle_worker stepped
    exact work_orderly priced orderly worked

theorem orderly_of_reaches {rounds : List (Round n useCaller I)} (priced : Priced prog cost)
    (reached : (cycle prog tid rounds).Reaches RootFresh s) : s.Orderly tid := by
  refine reached.invariant (fun s begins => ?_) fun s party next orderly fresh stepped =>
    step_orderly priced orderly fresh stepped
  rw [show s = initial rounds from begins]
  exact initial_orderly rounds

theorem cycle_helps (priced : Priced prog cost) (rounds : List (Round n useCaller I)) :
    System.Run.Helps (cycle prog tid rounds) RootFresh Party.actor (fun s => s.owner = .ready ∧ s.rounds = [])
      (Orderly tid) (rank prog cost tid) (helper tid) where
  able s orderly more := helper_able orderly more prog rounds
  closer s party next orderly _ _ stepped := by
    right
    cases party with
    | owner =>
      left
      exact Prod.Lex.left _ _ (own_ahead orderly stepped)
    | worker w =>
      obtain ⟨running, worked, rfl⟩ := cycle_worker stepped
      rcases Running.work_kinds orderly.sound priced worked with busy | rests
      · left
        exact Prod.Lex.right _ (Prod.Lex.left _ _ busy.less)
      · have same := rests.workload orderly.sound worked cost
        rcases rests_closer orderly rests with less | ⟨kept, helper, other⟩
        · left
          refine Prod.Lex.right _ ?_
          rw [same]
          exact Prod.Lex.right _ less
        · refine .inr ⟨?_, helper, fun same => other (Option.some.inj same).symm⟩
          simp only [rank, same, kept]
          rfl

/-- What is promised of each state. -/
structure Sane (s : Cycle n useCaller I) : Prop where
  /-- Between two rounds the queue is empty, and each callback has been executed once. -/
  done : s.owner = .ready → s.running.state.fibers = [] ∧
    ∀ c < s.running.bodies.length, s.running.state.finished.count c = 1
  /-- The owner switches to no root fiber that has finished. -/
  root : s.owner = .call → s.root = .init

theorem Orderly.sane (orderly : s.Orderly tid) : s.Sane where
  done ready := by
    obtain ⟨empty, out⟩ := orderly.empty ready
    exact ⟨empty, fun c given => orderly.sound.all_finished empty out given⟩
  root calls := by
    have stands := orderly.stands
    rw [calls] at stands
    exact stands.2.2

/-- As long as the root fiber is needed once only, every `stop()` returns behind the
last callback of its round. -/
theorem stops_return (prog : I → Program I) (terminating : Terminating prog) (tid : Nat → Fin (n + 1) → Int)
    (rounds : List (Round n useCaller I)) :
    (∀ s, (cycle prog tid rounds).Reaches RootFresh s → s.Sane) ∧
      ∀ run : (cycle prog tid rounds).Run RootFresh, run.Fair Party.actor →
        ∃ i, (run.state i).owner = .ready ∧ (run.state i).rounds = [] := by
  obtain ⟨cost, priced⟩ := terminating.priced
  refine ⟨fun s reached => (orderly_of_reaches priced reached).sane, fun run fair => ?_⟩
  obtain ⟨i, _, done⟩ := fair.leads (cycle_helps priced rounds) (fun i => orderly_of_reaches priced (run.reaches i)) 0
  exact ⟨i, done⟩

/-- A test of `RootFresh` for replays. -/
def rootFreshTest (s : Cycle n useCaller I) : Party n → Bool
  | .worker _ => true
  | .owner =>
      match s.owner with
      | .check => s.running.state.verdict || s.root == .init
      | _ => true

theorem rootFresh_of_test (s : Cycle n useCaller I) (party : Party n) (passed : rootFreshTest s party = true) :
    RootFresh s party := by
  rintro rfl checks
  simpa [rootFreshTest, checks] using passed

/-- The first callback schedules another one for its own thread and yields; the others throw. -/
def yieldsOnce : Bool → Program Bool
  | true => ⟨[.schedule false true, .yieldToReady], false⟩
  | false => ⟨[], true⟩

theorem yieldsOnce_terminating : Terminating yieldsOnce := by
  refine Subrelation.wf ?_ (measure Bool.toNat).wf
  rintro j (_ | _) ⟨own, scheduled⟩
  · cases scheduled
  · obtain ⟨rfl, _⟩ : j = false ∧ own = true := by simpa [yieldsOnce] using scheduled
    exact Nat.one_pos

/-- The root fiber is called in the first round; in the second one the built thread is alone. -/
def twoRounds : List (Round 1 true Bool) :=
  [⟨true, [(true, some 0), (false, none)], ⟨0, rfl⟩, fun _ _ _ _ => rfl⟩,
   ⟨true, [(false, none)], ⟨0, rfl⟩, fun _ _ _ _ => rfl⟩]

def twoRoundsIds (built : Nat) (w : Fin 2) : Int := 2 * built + w

/-- Who takes how many steps. -/
def twoRoundsRun : List (Party 1) :=
  [(8, .owner), (41, .worker 0), (5, .worker 1), (6, .owner), (9, .worker 1), (5, .owner), (5, .worker 1),
    (2, .owner)].flatMap fun (count, party) => List.replicate count party

theorem stops_return_twoRounds :
    ∃ run : (cycle yieldsOnce twoRoundsIds twoRounds).Run RootFresh, run.Fair Party.actor ∧
      (∀ i, (run.state i).Sane) ∧ ∃ i, (run.state i).owner = .ready ∧ (run.state i).rounds = [] := by
  obtain ⟨safe, live⟩ := stops_return yieldsOnce yieldsOnce_terminating twoRoundsIds twoRounds
  have replayed : ((cycle yieldsOnce twoRoundsIds twoRounds).replay rootFreshTest (initial twoRounds) twoRoundsRun).any
      (fun s => s.owner == .ready && s.rounds.isEmpty &&
        decide (∀ w, (s.running.state.worker w).pc = .exited)) = true := by
    decide
  obtain ⟨final, last, test⟩ := (Option.any_eq_true _ _).mp replayed
  simp only [Bool.and_eq_true, beq_iff_eq, List.isEmpty_iff, decide_eq_true_eq] at test
  obtain ⟨⟨ready, none⟩, out⟩ := test
  obtain ⟨run, still⟩ := System.Run.exists_of_replay rootFresh_of_test rfl last
  have fair : run.Fair Party.actor := System.Run.Fair.of_still (k := twoRoundsRun.length) fun i later party able => by
    rw [still i later] at able
    obtain ⟨label, same, next, stepped⟩ := able
    obtain rfl : label = party := Option.some.inj same
    cases label with
    | owner => simp [cycle, own, ready, none] at stepped
    | worker w =>
      obtain ⟨_, worked, _⟩ := cycle_worker stepped
      exact live_of_work worked (out w)
  exact ⟨run, fair, fun i => safe _ (run.reaches i), live run fair⟩

/-- `hps_Scheduler(1, true)`, and twice a callback and `stop()`. -/
def rootTwice : List (Round 0 true Unit) := List.replicate 2 ⟨false, [((), none)], ⟨0, rfl⟩,
    fun _ given _ named => by simp_all⟩

/-- The second `stop()` calls the root fiber that the first one has run to its end. -/
theorem finished_root_called :
    ∃ s, (cycle (fun _ => ⟨[], false⟩) (fun _ _ => 1) rootTwice).Reaches (fun _ _ => True) s ∧ s.owner = .call ∧
      s.root = .term ∧ s.running.state.fibers ≠ [] ∧
        ∀ party, (cycle (fun _ => ⟨[], false⟩) (fun _ _ => 1) rootTwice).step s party = none := by
  obtain ⟨s, reached, test⟩ := System.reaches_test (cycle (fun _ => ⟨[], false⟩) (fun _ _ => 1) rootTwice)
      (fun _ _ => True)
    (fun _ _ => true) (fun _ _ _ => trivial) (initial rootTwice) rfl
    (List.replicate 8 .owner ++ List.replicate 14 (.worker 0) ++ List.replicate 10 .owner)
    (fun s => s.owner == .call && s.root == .term && !s.running.state.fibers.isEmpty &&
      decide ((s.running.state.worker 0).pc = .exited)) (by decide)
  simp only [Bool.and_eq_true, beq_iff_eq, decide_eq_true_eq, Bool.not_eq_true', List.isEmpty_eq_false_iff] at test
  obtain ⟨⟨⟨calls, finished⟩, left⟩, out⟩ := test
  refine ⟨s, reached, calls, finished, left, fun party => ?_⟩
  cases party with
  | owner => simp [cycle, own, calls, finished]
  | worker w =>
    obtain rfl := Fin.fin_one_eq_zero w
    simp [cycle, Running.work, Running.label, out]

end Cycle
end HpsSf.Scheduler
