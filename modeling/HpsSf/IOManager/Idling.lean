import HpsSf.IOManager.Shutdown

/-! The timeout that `idle` passes to `epoll_wait`.

The delay to the next timer is asked for when `stopping()` was true, and thrown
away with its argument otherwise. The delay is that of the timer that the set has
first, and it is compared with the bound after it was cut to 32 bits.
-/

set_option autoImplicit false

namespace HpsSf.IOManager
open Foundation (System int32)

/-- The variables of a pass of `idle`, beside what its last `getNextTimer` has seen. -/
structure Pass where
  timers : TimerManager Unit := .initial
  now : Nat := 0
  /-- `stopping()` was true. -/
  judged : Bool := false
  next_timeout : Nat := 0

namespace Pass

/-- The assignments before `epoll_wait`; `MAX_TIMEOUT` is 3000. -/
def clamp (next_timeout : Nat) : Nat :=
  if next_timeout ≠ 2 ^ 64 - 1 then
    if 3000 < int32 next_timeout then 3000 else next_timeout
  else 3000

/-- The argument of `epoll_wait` in the pass, after so many calls that a signal has interrupted. -/
def timeout (p : Pass) (interrupted : Nat) : Int := int32 (clamp^[interrupted + 1] p.next_timeout)

/-- The delay to the earliest deadline. -/
def delay (p : Pass) : Nat :=
  match (p.timers.timers.map p.timers.deadline).min? with
  | some earliest => earliest - p.now
  | none => 3000

/-- The delay to the timer that the set has first. -/
def first (p : Pass) : Nat :=
  match p.timers.timers.head? with
  | some a => p.timers.deadline a - p.now
  | none => 0

/-- The worker waits for the earliest timer, and for three seconds at most. -/
def Waits (p : Pass) : Prop := ∀ interrupted, p.timeout interrupted = (min p.delay 3000 : Nat)

/-- A timer is due; or, where the delay is asked for, the first timer has the least
delay in its low 32 bits, or at least the bound as that one has. -/
def Fits (p : Pass) : Prop :=
  if p.judged then
    (p.delay < 3000 ∧ p.first % 2 ^ 32 = p.delay) ∨
      (3000 ≤ p.delay ∧ 3000 ≤ p.first % 2 ^ 32 ∧ p.first % 2 ^ 32 < 2 ^ 31)
  else ∃ a ∈ p.timers.timers, p.timers.deadline a ≤ p.now

instance (p : Pass) : Decidable p.Fits := by unfold Fits; infer_instance

theorem int32_eq (value : Nat) :
    int32 value =
      if value % 2 ^ 32 < 2 ^ 31 then ((value % 2 ^ 32 : Nat) : Int) else (value % 2 ^ 32 : Nat) - 2 ^ 32 := by
  simp only [int32, BitVec.toInt_eq_toNat_cond, BitVec.toNat_ofNat]
  omega

theorem clamp_clamp (next_timeout : Nat) : clamp (clamp next_timeout) = clamp next_timeout := by
  have bound : clamp 3000 = 3000 := by decide
  unfold clamp
  split
  next finite =>
    split
    next => exact bound
    next => rfl
  next => exact bound

/-- A call after a signal has the timeout of the call before. -/
theorem timeout_eq (p : Pass) (interrupted : Nat) : p.timeout interrupted = int32 (clamp p.next_timeout) := by
  rw [timeout, Function.iterate_succ_apply, Function.iterate_fixed (clamp_clamp _)]

theorem int32_clamp {next_timeout : Nat} (finite : next_timeout ≠ 2 ^ 64 - 1) :
    int32 (clamp next_timeout) = min (int32 next_timeout) 3000 := by
  have bound : int32 3000 = 3000 := by decide
  rw [clamp, if_pos finite]
  split
  next large => rw [bound, min_eq_right (Int.le_of_lt large)]
  next small => rw [min_eq_left (Int.not_lt.mp small)]

theorem delay_eq_zero_iff (p : Pass) : p.delay = 0 ↔ ∃ a ∈ p.timers.timers, p.timers.deadline a ≤ p.now := by
  unfold delay
  cases least : (p.timers.timers.map p.timers.deadline).min? with
  | none =>
    rw [List.min?_eq_none_iff, List.map_eq_nil_iff] at least
    simp [least]
  | some earliest =>
    obtain ⟨member, lower⟩ := List.min?_eq_some_iff.mp least
    obtain ⟨a, inside, rfl⟩ := List.mem_map.mp member
    simp only [Nat.sub_eq_zero_iff_le]
    constructor
    · exact fun due => ⟨a, inside, due⟩
    · rintro ⟨b, inside', due⟩
      exact (lower _ (List.mem_map_of_mem inside')).trans due

/-- Without a true `stopping()` the timeout is zero. -/
theorem waits_iff_of_not_judged {p : Pass} (judged : p.judged = false) (zero : p.next_timeout = 0) :
    p.Waits ↔ p.Fits := by
  have timeout : int32 (clamp 0) = 0 := by decide
  have waits : p.Waits ↔ p.delay = 0 := by
    simp only [Waits, timeout_eq, zero, timeout]
    constructor
    · intro waits
      have none : (0 : Int) = (min p.delay 3000 : Nat) := waits 0
      omega
    · intro none _
      simp [none]
  rw [waits, delay_eq_zero_iff, Fits, if_neg (by simp [judged])]

/-- With it the delay of the first timer is narrowed and bounded. -/
theorem waits_iff_of_judged {p : Pass} (judged : p.judged = true)
    (asked : p.next_timeout = (p.timers.getNextTimer p.now).1) (finite : p.next_timeout ≠ 2 ^ 64 - 1) : p.Waits ↔ p.Fits := by
  have first : p.next_timeout = p.first := by
    rw [asked] at finite ⊢
    unfold TimerManager.getNextTimer Pass.first at *
    cases head : p.timers.timers.head? with
    | none => simp [head] at finite
    | some a =>
      dsimp only
      split <;> omega
  rw [first] at finite
  have narrowed := int32_eq p.first
  have waits : p.Waits ↔ min (int32 p.first) 3000 = (min p.delay 3000 : Nat) := by
    simp only [Waits, timeout_eq, first, int32_clamp finite]
    exact ⟨fun waits => waits 0, fun waits _ => waits⟩
  rw [waits, Fits, if_pos judged, narrowed]
  split <;> omega

/-- What a pass that waits as it should passes on. -/
theorem Waits.range {p : Pass} (waits : p.Waits) (interrupted : Nat) :
    0 ≤ p.timeout interrupted ∧ p.timeout interrupted ≤ 3000 ∧
      (p.timeout interrupted = 0 → ∃ a ∈ p.timers.timers, p.timers.deadline a ≤ p.now) := by
  rw [waits interrupted, ← delay_eq_zero_iff]
  omega

end Pass

/-- The IO manager, and the pass that each worker is in. -/
structure Idling (n : Nat) where
  base : State n
  pass : Fin n → Pass

namespace Idling

variable {n : Nat} {tid : Fin n → Int}

/-- `next_timeout` begins at zero, and is set to the second of the two readings of the timers. -/
def passes (s : Idling n) : Label n → Fin n → Pass
  | .idle w (.clock now) =>
    match s.base.loop w with
    | .top => Function.update s.pass w { timers := s.base.timers, now := now }
    | .rechecking =>
      Function.update s.pass w
        { timers := s.base.timers, now := now, judged := true, next_timeout := (s.base.timers.getNextTimer now).1 }
    | _ => s.pass
  | _ => s.pass

def step (tid : Fin n → Int) (s : Idling n) (label : Label n) : Option (Idling n) :=
  (IOManager.step tid s.base label).map fun base => { base := base, pass := s.passes label }

def initial (n : Nat) : Idling n := ⟨.initial n, fun _ => {}⟩

def machine (tid : Fin n → Int) : System (Idling n) (Label n) where
  start s := s = initial n
  step := step tid

/-- The passes of the workers only watch: the runs are those of the IO manager. -/
theorem reaches_base_iff {base : State n} : (IOManager.machine tid).Reaches (fun _ _ => True) base ↔
    ∃ s, (machine tid).Reaches (fun _ _ => True) s ∧ s.base = base := by
  constructor
  · intro reached
    induction reached with
    | start begins => exact ⟨initial n, .start rfl, begins.symm⟩
    | @step _ next label _ _ stepped ih =>
      obtain ⟨s, reached, rfl⟩ := ih
      have moved : (machine tid).step s label = some ⟨next, s.passes label⟩ := by
        simp only [machine, step, show IOManager.step tid s.base label = some next from stepped, Option.map_some]
      exact ⟨_, reached.step trivial moved, rfl⟩
  · rintro ⟨s, reached, rfl⟩
    induction reached with
    | start begins =>
      rw [show _ = initial n from begins]
      exact .start rfl
    | step _ _ stepped ih =>
      obtain ⟨base, went, rfl⟩ := Option.map_eq_some_iff.mp stepped
      exact ih.step trivial went

/-- What the variables hold between the readings and `epoll_wait`. -/
def Known (loop : Loop) (p : Pass) : Prop :=
  match loop with
  | .counting | .judging | .rechecking => p.judged = false ∧ p.next_timeout = 0
  | .polling =>
    if p.judged then p.next_timeout = (p.timers.getNextTimer p.now).1 ∧ p.next_timeout ≠ 2 ^ 64 - 1
    else p.next_timeout = 0
  | _ => True

/-- A step of the idle loop leaves the places of the others. -/
theorem turn_loop {s next : State n} {w : Fin n} {loop : Loop} {input : Input} (turn : IdleTurn tid s w loop input next)
    {v : Fin n} (other : v ≠ w) : next.loop v = s.loop v := by
  cases turn with
  | report inside =>
    obtain ⟨ctx, out, -, -, -, rfl⟩ := enter_eq_some inside
    exact Function.update_of_ne other ..
  | leave left => rfl
  | _ => exact Function.update_of_ne other ..

theorem step_loop {s next : State n} {label : Label n} (stepped : IOManager.step tid s label = some next)
    {v : Fin n} (other : ∀ input, label ≠ .idle v input) : next.loop v = s.loop v := by
  cases label with
  | core label =>
    obtain ⟨-, core, -, rfl⟩ := step_core stepped
    rfl
  | timer caller label =>
    obtain ⟨-, timers, -, rfl⟩ := step_timer stepped
    rfl
  | grow caller fd =>
    obtain ⟨registry, id, -, -, rfl⟩ := step_grow stepped
    rfl
  | onContext caller ctl id op =>
    obtain ⟨ctx, out, -, -, -, rfl⟩ := enter_eq_some (step_onContext stepped).2.2
    rfl
  | goOn place =>
    obtain ⟨owner, id, handed, rest, ⟨-, rfl⟩ | ⟨-, rfl⟩⟩ := goOn_eq_some stepped
    · simp only [State.hand]
      split <;> rfl
    · rfl
  | idle w input =>
    obtain ⟨loop, -, turn⟩ := turn_of_idle (step_idle stepped).2
    exact turn_loop turn fun same => other input (by rw [same])

theorem passes_of_ne {s : Idling n} {label : Label n} {v : Fin n} (other : ∀ input, label ≠ .idle v input) :
    s.passes label v = s.pass v := by
  unfold passes
  split
  next w now =>
    have apart : v ≠ w := fun same => other (.clock now) (by rw [same])
    cases s.base.loop w with
    | top | rechecking => exact Function.update_of_ne apart ..
    | _ => rfl
  next => rfl

theorem known_of_turn {s : Idling n} {next : State n} {w : Fin n} {input : Input} {loop : Loop}
    (here : s.base.loop w = loop) (known : Known loop (s.pass w)) (turn : IdleTurn tid s.base w loop input next) :
    Known (next.loop w) (s.passes (.idle w input) w) := by
  cases turn with
  | timers now =>
    have pass : s.passes (.idle w (.clock now)) w = { timers := s.base.timers, now := now } := by simp [passes, here]
    rw [pass]
    simp only [State.setLoop, Function.update_self]
    split
    · exact ⟨rfl, rfl⟩
    · rfl
  | recheck now =>
    have pass : s.passes (.idle w (.clock now)) w =
        { timers := s.base.timers, now := now, judged := true, next_timeout := (s.base.timers.getNextTimer now).1 } := by
      simp [passes, here]
    rw [pass]
    simp only [State.setLoop, Function.update_self]
    split
    next => trivial
    next finite => exact ⟨rfl, by simpa [State.noTimer] using finite⟩
  | count | judge =>
    obtain ⟨judged, zero⟩ := known
    change Known _ (s.pass w)
    simp only [State.setLoop, Function.update_self]
    split
    · exact ⟨judged, zero⟩
    · simpa [Known, judged] using zero
  | leave left =>
    change Known (s.base.loop w) _
    rw [here]
    trivial
  | report inside => simp [State.setLoop, Known]
  | again left => simp [State.setLoop, Known]
  | _ => simp [State.setLoop, Known]

theorem step_known {s next : Idling n} {label : Label n} (known : ∀ w, Known (s.base.loop w) (s.pass w))
    (stepped : step tid s label = some next) (w : Fin n) : Known (next.base.loop w) (next.pass w) := by
  obtain ⟨base, went, rfl⟩ := Option.map_eq_some_iff.mp stepped
  by_cases own : ∃ input, label = .idle w input
  · obtain ⟨input, rfl⟩ := own
    obtain ⟨loop, here, turn⟩ := turn_of_idle (step_idle went).2
    exact known_of_turn here (here ▸ known w) turn
  · have other : ∀ input, label ≠ .idle w input := fun input same => own ⟨input, same⟩
    dsimp only
    rw [step_loop went other, passes_of_ne other]
    exact known w

theorem known_of_reaches {allowed : Idling n → Label n → Prop} {s : Idling n}
    (reached : (machine tid).Reaches allowed s) :
    ∀ w, Known (s.base.loop w) (s.pass w) := by
  refine reached.invariant (P := fun s => ∀ w, Known (s.base.loop w) (s.pass w)) (fun s begins w => ?_)
    fun s label next known _ stepped => step_known known stepped
  rw [show s = initial n from begins]
  trivial

/-- A pass that goes on waits as long as it should exactly when it fits. -/
theorem waits_iff {allowed : Idling n → Label n → Prop} {s : Idling n}
    (reached : (machine tid).Reaches allowed s) {w : Fin n} (polling : s.base.loop w = .polling) : (s.pass w).Waits ↔ (s.pass w).Fits := by
  have known := known_of_reaches reached w
  rw [polling] at known
  cases judged : (s.pass w).judged with
  | false => exact Pass.waits_iff_of_not_judged judged (by simpa [Known, judged] using known)
  | true =>
    simp only [Known, judged, if_true] at known
    exact Pass.waits_iff_of_judged judged known.1 known.2

/-- A timer is due when the worker becomes idle. -/
theorem waits_iff_due :
    ∃ s, (machine fun _ : Fin 1 => 1).Reaches (fun _ _ => True) s ∧ s.base.loop 0 = .polling ∧ (s.pass 0).Waits := by
  obtain ⟨s, reached, test⟩ := System.reaches_test (machine fun _ : Fin 1 => 1) (fun _ _ => True) (fun _ _ => true)
    (fun _ _ _ => trivial) (initial 1) rfl
    [.timer none (.addTimer .spine 1 5 10 (some ()) false), .core (.scan 0), .core (.branch 0), .idle 0 (.clock 12)]
    (fun s => s.base.loop 0 = .polling ∧ (s.pass 0).Fits) (by decide)
  obtain ⟨polling, fits⟩ := of_decide_eq_true test
  exact ⟨s, reached, polling, (waits_iff reached polling).mpr fits⟩

/-- An idle worker with nothing to wait for polls without a pause. One that is told to
stop meets a timer of 25 days, and waits for ever. -/
theorem idle_spins :
    (∃ s, (machine fun _ : Fin 1 => 1).Reaches (fun _ _ => True) s ∧ s.base.loop 0 = .polling ∧ (s.pass 0).delay = 3000 ∧
      (s.pass 0).timeout 0 = 0 ∧ ¬ (s.pass 0).Waits) ∧
    ∃ s, (machine fun _ : Fin 1 => 1).Reaches (fun _ _ => True) s ∧ s.base.loop 0 = .polling ∧
      (s.pass 0).delay = 2 ^ 31 ∧ (s.pass 0).timeout 0 = -2 ^ 31 ∧ ¬ (s.pass 0).Waits := by
  refine ⟨?_, ?_⟩
  · obtain ⟨s, reached, test⟩ := System.reaches_test (machine fun _ : Fin 1 => 1) (fun _ _ => True) (fun _ _ => true)
      (fun _ _ _ => trivial) (initial 1) rfl
      [.core (.scan 0), .core (.branch 0), .idle 0 (.clock 1), .idle 0 .proceed, .idle 0 .proceed]
      (fun s => s.base.loop 0 = .polling ∧ (s.pass 0).delay = 3000 ∧ (s.pass 0).timeout 0 = 0) (by decide)
    obtain ⟨polling, delay, timeout⟩ := of_decide_eq_true test
    refine ⟨s, reached, polling, delay, timeout, fun waits => ?_⟩
    have due := waits 0
    rw [timeout, delay] at due
    exact absurd due (by decide)
  · obtain ⟨s, reached, test⟩ := System.reaches_test (machine fun _ : Fin 1 => 1) (fun _ _ => True) (fun _ _ => true)
      (fun _ _ _ => trivial) (initial 1) rfl
      [.core .setAutoStop, .core .setStopping, .core (.scan 0), .core (.branch 0), .idle 0 (.clock 1), .idle 0 .proceed,
        .idle 0 .proceed, .timer none (.addTimer .spine 1 5 (2 ^ 31) (some ()) false), .idle 0 (.clock 1)]
      (fun s => s.base.loop 0 = .polling ∧ (s.pass 0).delay = 2 ^ 31 ∧ (s.pass 0).timeout 0 = -2 ^ 31) (by decide)
    obtain ⟨polling, delay, timeout⟩ := of_decide_eq_true test
    refine ⟨s, reached, polling, delay, timeout, fun waits => ?_⟩
    have due := waits 0
    rw [timeout, delay] at due
    exact absurd due (by decide)

end Idling
end HpsSf.IOManager
