import HpsSf.Scheduler.Accounting
import Mathlib.Data.List.Range

/-! In which order the workers take callbacks out of the queue, and how long one waits.

The scan of `run` steps over entries of other threads and over fibers that are
executing. Callbacks that were scheduled with one thread argument are stepped
over together or not at all, so that none of them overtakes another.
-/

set_option autoImplicit false

namespace HpsSf.Scheduler
open Foundation

/-- The scheduler, with what the scans have taken so far. -/
structure Dealing (n : Nat) where
  base : State n
  taken : List Entry

variable {n : Nat}

/-- The callbacks that are scheduled with this thread argument, out of some entries. -/
def callbacksFor (thread : Int) (entries : List Entry) : List Callback :=
  entries.filterMap fun it =>
    match it.task with
    | .cb c => if it.thread = thread then some c else none
    | .fiber _ => none

/-- The callbacks that were ever given to `schedule` with this thread argument, in order. -/
def given (thread : Int) (pins : List Int) : List Callback :=
  (List.range pins.length).filter fun c => pins[c]? = some thread

namespace Dealing

/-- What a step takes out of the queue. -/
def takes (tid : Fin n → Int) (s : State n) : Label n → List Entry
  | .scan w => ((pick (tid w) (fun f => (s.heap f).state) s.fibers).map Prod.fst).toList
  | _ => []

def step (tid : Fin n → Int) (d : Dealing n) (label : Label n) : Option (Dealing n) :=
  (Scheduler.step tid d.base label).map fun next => ⟨next, d.taken ++ takes tid d.base label⟩

def machine (tid : Fin n → Int) : System (Dealing n) (Label n) where
  start d := d = ⟨.initial n, []⟩
  step := step tid

/-- A scan by a worker that may take what is scheduled with this thread argument. -/
def scannedFor (tid : Fin n → Int) (thread : Int) : Label n → Bool
  | .scan w => thread == -1 || tid w == thread
  | _ => false

end Dealing

/-! ## The queue -/

theorem callbacksFor_append (thread : Int) (first second : List Entry) :
    callbacksFor thread (first ++ second) = callbacksFor thread first ++ callbacksFor thread second :=
  List.filterMap_append ..

@[simp] theorem callbacksFor_nil (thread : Int) : callbacksFor thread [] = [] := rfl

theorem callbacksFor_fiber (thread pin : Int) (f : FiberId) :
    callbacksFor thread [⟨.fiber f, pin⟩] = [] := rfl

theorem callbacksFor_cb (thread pin : Int) (c : Callback) :
    callbacksFor thread [⟨.cb c, pin⟩] = if pin = thread then [c] else [] := by
  unfold callbacksFor
  split <;> simp [*]

theorem given_append (thread pin : Int) (pins : List Int) :
    given thread (pins ++ [pin]) = given thread pins ++ if pin = thread then [pins.length] else [] := by
  unfold given
  rw [List.length_append, List.length_singleton, List.range_succ, List.filter_append]
  congr 1
  · refine List.filter_congr fun c member => ?_
    rw [List.getElem?_append_left (List.mem_range.mp member)]
  · split <;> simp [*]

/-- Whether the scan steps over a callback depends on its thread argument alone. -/
theorem skipped_cb (self : Int) (state : FiberId → Fiber.State) (c : Callback) (thread : Int) :
    (⟨.cb c, thread⟩ : Entry).skipped self state = (thread != -1 && thread != self) := by
  simp [FiberAndThread.skipped]

/-- Where the entry that is taken stands to another one: it is that one, before it, or
behind it, and then the scan has stepped over that one. -/
theorem pick_around {self : Int} {state : FiberId → Fiber.State} {front rest left : List Entry}
    {it ft : Entry} (picked : pick self state (front ++ it :: rest) = some (ft, left)) :
    ft = it ∧ left = front ++ rest ∨
      (∃ fewer, fewer.length < front.length ∧ left = fewer ++ it :: rest) ∨
      it.skipped self state = true ∧ ∃ behind, left = front ++ it :: behind := by
  induction front generalizing left with
  | nil =>
    rw [List.nil_append, pick] at picked
    split at picked
    next skipped =>
      obtain ⟨⟨other, behind⟩, -, same⟩ := Option.map_eq_some_iff.mp picked
      cases same
      exact .inr (.inr ⟨skipped, behind, rfl⟩)
    next =>
      cases picked
      exact .inl ⟨rfl, rfl⟩
  | cons first front ih =>
    rw [List.cons_append, pick] at picked
    split at picked
    next =>
      obtain ⟨⟨other, tail⟩, found, same⟩ := Option.map_eq_some_iff.mp picked
      cases same
      obtain ⟨rfl, rfl⟩ | ⟨fewer, shorter, rfl⟩ | ⟨skipped, behind, rfl⟩ := ih found
      · exact .inl ⟨rfl, rfl⟩
      · exact .inr (.inl ⟨first :: fewer, Nat.succ_lt_succ shorter, rfl⟩)
      · exact .inr (.inr ⟨skipped, behind, rfl⟩)
    next =>
      cases picked
      exact .inr (.inl ⟨front, Nat.lt_succ_self _, rfl⟩)

/-- Of the callbacks with one thread argument the scan takes the first one or none. -/
theorem callbacksFor_pick {self : Int} {state : FiberId → Fiber.State} {fibers left : List Entry}
    {ft : Entry} (picked : pick self state fibers = some (ft, left)) (thread : Int) :
    callbacksFor thread fibers = callbacksFor thread [ft] ++ callbacksFor thread left := by
  induction fibers generalizing left with
  | nil => cases picked
  | cons it rest ih =>
    rw [pick] at picked
    split at picked
    next skipped =>
      obtain ⟨⟨other, tail⟩, found, same⟩ := Option.map_eq_some_iff.mp picked
      cases same
      have taken := (pick_eq_some found).1
      -- What is stepped over is no callback with the thread argument of the one that is taken.
      have apart : callbacksFor thread [it] = [] ∨ callbacksFor thread [ft] = [] := by
        obtain ⟨task | task, pin⟩ := it
        · exact .inl rfl
        obtain ⟨task' | task', pin'⟩ := ft
        · exact .inr rfl
        rw [callbacksFor_cb, callbacksFor_cb]
        rw [skipped_cb] at skipped taken
        by_cases here : pin = thread
        · by_cases there : pin' = thread
          · rw [here, ← there, taken] at skipped
            cases skipped
          · exact .inr (if_neg there)
        · exact .inl (if_neg here)
      rw [← List.singleton_append, callbacksFor_append, ih found, ← List.singleton_append (l := tail),
        callbacksFor_append]
      obtain none | none := apart <;> simp [none]
    next =>
      cases picked
      rw [← List.singleton_append, callbacksFor_append]

/-! ## One step -/

section
variable {tid : Fin n → Int} {s next : State n}

/-- The queue is longer by some entries, which are the callbacks that are new among those given. -/
def Grows (s next : State n) : Prop :=
  ∃ added, next.fibers = s.fibers ++ added ∧
    ∀ thread, given thread next.pins = given thread s.pins ++ callbacksFor thread added

theorem Grows.same (fibers : next.fibers = s.fibers) (pins : next.pins = s.pins) : Grows s next :=
  ⟨[], by simp [fibers], fun thread => by simp [pins]⟩

theorem Grows.trans {later : State n} (first : Grows s next) (second : Grows next later) :
    Grows s later := by
  obtain ⟨added, fibers, pins⟩ := first
  obtain ⟨more, fibers', pins'⟩ := second
  refine ⟨added ++ more, by rw [fibers', fibers, List.append_assoc], fun thread => ?_⟩
  rw [pins', pins, callbacksFor_append, List.append_assoc]

theorem accept_grows (s : State n) (thread : Int) (fc : Call) : Grows s (s.accept thread fc) := by
  cases fc with
  | fiber f => exact ⟨[⟨.fiber f, thread⟩], rfl, fun _ => by simp [callbacksFor_fiber, State.accept]⟩
  | callback =>
    refine ⟨[⟨.cb s.pins.length, thread⟩], rfl, fun other => ?_⟩
    rw [callbacksFor_cb]
    exact given_append other thread s.pins
  | empty => exact .same rfl rfl

theorem acceptAll_grows (s : State n) (fcs : List Call) :
    Grows s (fcs.foldl (fun s fc => s.accept (-1) fc) s) := by
  induction fcs generalizing s with
  | nil => exact .same rfl rfl
  | cons fc rest ih => exact (accept_grows s (-1) fc).trans (ih _)

/-- Only a scan takes entries out, and every entry that comes in goes to the end. -/
theorem step_grows {label : Label n} (stepped : step tid s label = some next)
    (other : ∀ w, label ≠ .scan w) :
    Grows s next := by
  cases label with
  | schedule caller fc thread =>
    obtain ⟨-, -, rfl⟩ := step_schedule stepped
    exact accept_grows s thread fc
  | scheduleAll caller fcs =>
    obtain ⟨-, -, rfl⟩ := step_scheduleAll stepped
    exact acceptAll_grows s fcs
  | newFiber caller =>
    cases step_newFiber stepped
    exact .same rfl rfl
  | setAutoStop =>
    cases stepped
    exact .same rfl rfl
  | setStopping =>
    cases stepped
    exact .same rfl rfl
  | scan w => exact absurd rfl (other w)
  | branch w =>
    obtain ⟨f, thread, -, rfl⟩ | ⟨c, thread, f, -, -, -, rfl⟩ | ⟨c, thread, -, -, rfl⟩ | ⟨-, ⟨rfl, -⟩ | ⟨rfl, -⟩⟩ :=
      step_branch stepped
    all_goals exact .same rfl rfl
  | task w act =>
    obtain ⟨stage, branch, f, effect, -, -, -, rfl⟩ := step_task stepped
    cases requeues : effect.requeues with
    | false => exact .same (by simp [State.apply, requeues]) rfl
    | true =>
      -- A fiber that has yielded goes to the end too, and is no callback any more.
      exact ⟨[⟨.fiber f, -1⟩], by simp [State.apply, requeues, scheduleNoLock], fun thread => by
        simp [callbacksFor_fiber, State.apply]⟩
  | idle w ended =>
    obtain ⟨-, rfl⟩ := step_idle stepped
    exact .same rfl rfl

end

/-! ## Runs -/

namespace Dealing
variable {tid : Fin n → Int} {d next : Dealing n}

theorem step_cases {label : Label n} (stepped : d.step tid label = some next) :
    ((∀ w, label ≠ .scan w) ∧ Grows d.base next.base ∧ next.taken = d.taken) ∨
    ∃ w, label = .scan w ∧ next.base.pins = d.base.pins ∧
      ((∃ ft, pick (tid w) (fun f => (d.base.heap f).state) d.base.fibers = some (ft, next.base.fibers) ∧
          next.taken = d.taken ++ [ft]) ∨
        pick (tid w) (fun f => (d.base.heap f).state) d.base.fibers = none ∧
          next.base.fibers = d.base.fibers ∧ next.taken = d.taken) := by
  obtain ⟨base, moved, rfl⟩ := Option.map_eq_some_iff.mp stepped
  by_cases scans : ∃ w, label = .scan w
  · obtain ⟨w, rfl⟩ := scans
    obtain ⟨-, ⟨ft, left, picked, rfl⟩ | ⟨nothing, rfl⟩⟩ := step_scan moved
    · exact .inr ⟨w, rfl, rfl, .inl ⟨ft, picked, by simp [takes, picked]⟩⟩
    · exact .inr ⟨w, rfl, rfl, .inr ⟨nothing, rfl, by simp [takes, nothing]⟩⟩
  · have other : ∀ w, label ≠ .scan w := fun w same => scans ⟨w, same⟩
    refine .inl ⟨other, step_grows moved other, ?_⟩
    cases label with
    | scan w => exact absurd rfl (other w)
    | _ => exact List.append_nil _

/-- What is given, taken and still in the queue, for each thread argument. -/
def InOrder (d : Dealing n) : Prop :=
  ∀ thread, given thread d.base.pins = callbacksFor thread d.taken ++ callbacksFor thread d.base.fibers

theorem InOrder.step (inOrder : d.InOrder) {label : Label n} (stepped : d.step tid label = some next) :
    next.InOrder := by
  intro thread
  obtain ⟨-, ⟨added, fibers, pins⟩, taken⟩ | ⟨w, -, pins, ⟨ft, picked, taken⟩ | ⟨-, fibers, taken⟩⟩ := step_cases stepped
  · rw [pins, fibers, taken, inOrder thread, callbacksFor_append, List.append_assoc]
  · rw [pins, taken, inOrder thread, callbacksFor_append, callbacksFor_pick picked thread, List.append_assoc]
  · rw [pins, fibers, taken, inOrder thread]

/-- Whatever the number of workers and however they interleave, the callbacks that are
scheduled with one thread argument are taken in the order in which they were scheduled,
each once, and the others are in the queue in that order. -/
theorem taken_in_order {allowed : Dealing n → Label n → Prop} (reached : (machine tid).Reaches allowed d)
    (thread : Int) :
    given thread d.base.pins = callbacksFor thread d.taken ++ callbacksFor thread d.base.fibers := by
  have inOrder : d.InOrder := by
    refine reached.invariant (fun d begins => ?_) fun d label next inOrder _ stepped => inOrder.step stepped
    rw [show d = ⟨.initial n, []⟩ from begins]
    exact fun thread => rfl
  exact inOrder thread

/-- The callback for worker 1 is stepped over by worker 0, which takes the one behind it. -/
theorem taken_in_order_steppedOver :
    ∃ d : Dealing 2, (machine fun w => w.val + 1).Reaches (fun _ _ => True) d ∧
      d.taken = [⟨.cb 0, -1⟩, ⟨.cb 2, -1⟩] ∧ d.base.fibers = [⟨.cb 1, 2⟩] ∧
      given (-1) d.base.pins = callbacksFor (-1) d.taken ++ callbacksFor (-1) d.base.fibers := by
  obtain ⟨d, reached, test⟩ := System.reaches_test (machine fun w : Fin 2 => w.val + 1) (fun _ _ => True)
    (fun _ _ => true) (fun _ _ _ => trivial) ⟨.initial 2, []⟩ rfl
    [.schedule none .callback (-1), .schedule none .callback 2, .scan 1, .schedule none .callback (-1), .scan 0]
    (fun d => d.taken = [⟨.cb 0, -1⟩, ⟨.cb 2, -1⟩] ∧ d.base.fibers = [⟨.cb 1, 2⟩]) (by decide)
  obtain ⟨taken, fibers⟩ := of_decide_eq_true test
  exact ⟨d, reached, taken, fibers, taken_in_order reached (-1)⟩

/-- While a callback waits, a scan by a worker that may take it takes it or an entry before it. -/
theorem step_waits {label : Label n} (stepped : d.step tid label = some next) {c : Callback} {thread : Int}
    {front rest : List Entry} (waits : d.base.fibers = front ++ ⟨.cb c, thread⟩ :: rest) :
    next.taken = d.taken ++ [⟨.cb c, thread⟩] ∨
      next.taken = d.taken ++ takes tid d.base label ∧ ∃ fewer behind,
        next.base.fibers = fewer ++ ⟨.cb c, thread⟩ :: behind ∧
          fewer.length + (scannedFor tid thread label).toNat ≤ front.length := by
  have history : next.taken = d.taken ++ takes tid d.base label := by
    obtain ⟨base, -, rfl⟩ := Option.map_eq_some_iff.mp stepped
    rfl
  obtain ⟨other, ⟨added, fibers, -⟩, -⟩ | ⟨w, rfl, -, ⟨ft, picked, taken⟩ | ⟨nothing, fibers, -⟩⟩ := step_cases stepped
  · refine .inr ⟨history, front, rest ++ added, by rw [fibers, waits, List.append_assoc, List.cons_append], ?_⟩
    cases label with
    | scan w => exact absurd rfl (other w)
    | _ => exact Nat.le_refl _
  · rw [waits] at picked
    obtain ⟨rfl, -⟩ | ⟨fewer, shorter, left⟩ | ⟨skipped, behind, left⟩ := pick_around picked
    · exact .inl taken
    · refine .inr ⟨history, fewer, rest, left, ?_⟩
      have one := Bool.toNat_le (scannedFor tid thread (.scan w))
      omega
    · refine .inr ⟨history, front, behind, left, ?_⟩
      rw [skipped_cb, Bool.and_eq_true, bne_iff_ne, bne_iff_ne] at skipped
      simp [scannedFor, skipped.1, skipped.2.symm]
  · have skipped := skipped_of_pick_eq_none nothing ⟨.cb c, thread⟩ (by simp [waits])
    refine .inr ⟨history, front, rest, by rw [fibers, waits], ?_⟩
    rw [skipped_cb, Bool.and_eq_true, bne_iff_ne, bne_iff_ne] at skipped
    simp [scannedFor, skipped.1, skipped.2.symm]

theorem taken_prefix {labels : List (Label n)} {later : Dealing n}
    (replayed : (machine tid).replay (fun _ _ => true) d labels = some later) :
    ∃ between, later.taken = d.taken ++ between := by
  induction labels generalizing d with
  | nil =>
    cases replayed
    exact ⟨[], (List.append_nil _).symm⟩
  | cons label labels ih =>
    simp only [System.replay, if_true] at replayed
    split at replayed
    next next stepped =>
      obtain ⟨base, -, rfl⟩ := Option.map_eq_some_iff.mp stepped
      obtain ⟨between, after⟩ := ih replayed
      exact ⟨takes tid d.base label ++ between, by rw [after, List.append_assoc]⟩
    next => cases replayed

/-- A callback has been taken, or fewer entries are before it by as many as there were such scans. -/
theorem replay_waits {labels : List (Label n)} {later : Dealing n}
    (replayed : (machine tid).replay (fun _ _ => true) d labels = some later) {c : Callback} {thread : Int}
    {front rest : List Entry} (waits : d.base.fibers = front ++ ⟨.cb c, thread⟩ :: rest) :
    ∃ between, later.taken = d.taken ++ between ∧ (⟨.cb c, thread⟩ ∈ between ∨ ∃ fewer behind,
      later.base.fibers = fewer ++ ⟨.cb c, thread⟩ :: behind ∧
        fewer.length + labels.countP (scannedFor tid thread) ≤ front.length) := by
  induction labels generalizing d front rest with
  | nil =>
    cases replayed
    exact ⟨[], (List.append_nil _).symm, .inr ⟨front, rest, waits, Nat.le_refl _⟩⟩
  | cons label labels ih =>
    simp only [System.replay, if_true] at replayed
    split at replayed
    next next stepped =>
      obtain taken | ⟨taken, fewer, behind, waits', shorter⟩ := step_waits stepped waits
      · obtain ⟨between, after⟩ := taken_prefix replayed
        refine ⟨⟨.cb c, thread⟩ :: between, ?_, .inl (List.mem_cons_self ..)⟩
        rw [after, taken, List.append_assoc]
        rfl
      · obtain ⟨between, after, waited⟩ := ih replayed waits'
        refine ⟨takes tid d.base label ++ between, by rw [after, taken, List.append_assoc], ?_⟩
        obtain inside | ⟨least, behind', waits'', bound⟩ := waited
        · exact .inl (List.mem_append_right _ inside)
        · refine .inr ⟨least, behind', waits'', ?_⟩
          rw [List.countP_cons]
          cases scanned : scannedFor tid thread label <;> simp [scanned] at shorter ⊢ <;> omega
    next => cases replayed

/-- However the workers interleave and whatever is scheduled meanwhile, a callback is taken by the
time that workers that may take it have scanned once more than there are entries before it. -/
theorem waits_bounded {labels : List (Label n)} {later : Dealing n}
    (replayed : (machine tid).replay (fun _ _ => true) d labels = some later) {c : Callback} {thread : Int}
    {front rest : List Entry} (waits : d.base.fibers = front ++ ⟨.cb c, thread⟩ :: rest)
    (scanned : front.length < labels.countP (scannedFor tid thread)) :
    ∃ between, later.taken = d.taken ++ between ∧ ⟨.cb c, thread⟩ ∈ between := by
  obtain ⟨between, after, inside | ⟨fewer, behind, -, bound⟩⟩ := replay_waits replayed waits
  · exact ⟨between, after, inside⟩
  · omega

/-- Two callbacks wait, and two workers scan. -/
theorem waits_bounded_second :
    ∃ later between, (machine fun w : Fin 2 => (w.val : Int) + 1).replay (fun _ _ => true)
        ⟨{ State.initial 2 with fibers := [⟨.cb 0, -1⟩, ⟨.cb 1, -1⟩], pins := [-1, -1] }, []⟩
        [.scan 1, .scan 0] = some later ∧
      later.taken = [] ++ between ∧ ⟨.cb 1, -1⟩ ∈ between := by
  obtain ⟨later, replayed⟩ : ∃ later, (machine fun w : Fin 2 => (w.val : Int) + 1).replay (fun _ _ => true)
      ⟨{ State.initial 2 with fibers := [⟨.cb 0, -1⟩, ⟨.cb 1, -1⟩], pins := [-1, -1] }, []⟩
      [.scan 1, .scan 0] = some later :=
    ⟨_, rfl⟩
  have waits : [⟨.cb 0, -1⟩, ⟨.cb 1, -1⟩] = [(⟨.cb 0, -1⟩ : Entry)] ++ ⟨.cb 1, -1⟩ :: [] := rfl
  obtain ⟨between, taken, inside⟩ := waits_bounded replayed waits (by decide)
  exact ⟨later, between, replayed, taken, inside⟩

end Dealing
end HpsSf.Scheduler
