import HpsSf.Foundation.Cells
import HpsSf.Foundation.System
import HpsSf.IOManager.Registry

/-! The counter of pending events over any sequence of calls.

One section keeps the counter level with the registered bits modulo `2^64`.
Calls one after another create one context for each descriptor at most, so the
total stays far below the modulus and the counter is the total.
-/

set_option autoImplicit false

namespace HpsSf.IOManager
open Foundation

variable {S F C : Type}

/-- The number of READ and WRITE bits of a mask. -/
def bits (mask : Mask) : Nat := (covers mask .read).toNat + (covers mask .write).toNat

namespace FdContext

theorem length_chosen (mask : Mask) : (chosen mask).length = bits mask := by
  cases read : covers mask .read <;> cases write : covers mask .write <;> simp [chosen, bits, read, write]

theorem bits_add {events : Mask} {event : Event} (named : event ≠ .none)
    (unregistered : covers events event = false) : bits (events ||| event.mask) = bits events + 1 := by
  cases event with
  | none => exact absurd rfl named
  | read =>
    simp only [bits, covers_or, covers_mask, unregistered]
    simp
    omega
  | write => simp [bits, unregistered]

theorem bits_remove {events : Mask} {event : Event} (registered : covers events event = true) :
    bits events = bits (events &&& ~~~event.mask) + 1 := by
  cases event with
  | none => simp at registered
  | read =>
    simp [bits, registered]
    omega
  | write => simp [bits, registered]

/-- Triggering registered events takes their bits away, one each. -/
theorem bits_releasedAll {ctx : FdContext S F C} {mask : Mask}
    (registered : ∀ event ∈ chosen mask, covers ctx.events event = true) :
    bits ctx.events = bits (ctx.releasedAll (chosen mask)).events + (chosen mask).length := by
  have left (event : Event) : (covers ctx.events event).toNat =
      (covers (ctx.releasedAll (chosen mask)).events event).toNat + (covers mask event).toNat := by
    rw [releasedAll_events]
    cases covered : covers mask event with
    | false => simp [mem_chosen, covered]
    | true => simp [mem_chosen, covered, registered event (mem_chosen.mpr covered)]
  rw [length_chosen, bits, left, left]
  simp only [bits]
  omega

/-- A counter level with the total of all bits stays so over a section. -/
theorem Effect.counts {ctx : FdContext S F C} {pending : Nat} {op : Op S F C} {out : Section S F C Bool}
    (effect : ctx.Effect pending op out) (rest : Nat) (level : pending = wrap64 (rest + bits ctx.events)) :
    out.pending = wrap64 (rest + bits out.ctx.events) := by
  cases effect with
  | refused => exact level
  | added named unregistered clear =>
    simp only [setContext_events]
    rw [bits_add named unregistered, ← Nat.add_assoc, ← incr64_wrap64, level]
  | deleted registered =>
    simp only [setContext_events]
    rw [level, bits_remove registered, ← Nat.add_assoc, decr64_wrap64]
  | @triggered op mask returned _ ready =>
    simp only
    rw [level, bits_releasedAll fun event member => (ready event member).1, ← Nat.add_assoc, decr64_iterate]

end FdContext

namespace Registry

/-- The registered events of all contexts. -/
def total (registry : Registry S F C) : Nat := (registry.contexts.map fun ctx => bits ctx.events).sum

theorem within_counts {ctl : EpollCall → Bool} {registry next : Registry S F C} {id : Nat} {op : Op S F C}
    {answer : Answer S F C} (ran : registry.within ctl id op = .ok (next, answer))
    (level : registry.pendingEventCount = wrap64 registry.total) :
    next.pendingEventCount = wrap64 next.total := by
  obtain ⟨ctx, out, found, effect, rfl, -⟩ := within_ok ran
  obtain ⟨rest, whole, replaced⟩ := sum_set_cell (fun ctx : FdContext S F C => bits ctx.events) found
  rw [total, whole] at level
  rw [total, replaced]
  exact effect.counts rest level

theorem contextResize_total {registry next : Registry S F C} {size : Nat}
    (resized : registry.contextResize size = .ok next) : next.total = registry.total := by
  obtain ⟨kept, fresh, -, -, rfl⟩ := contextResize_ok resized
  have none (numbers : List Nat) : ((numbers.map fun i : Nat => FdContext.fresh (S := S) (F := F) (C := C) i).map
      fun ctx => bits ctx.events).sum = 0 := by
    induction numbers with
    | nil => rfl
    | cons first rest ih =>
      rw [List.map_cons, List.map_cons, List.sum_cons, ih]
      simp [FdContext.fresh, bits]
  simp only [total, List.map_append, List.sum_append, none, Nat.add_zero]

theorem grow_total {registry next : Registry S F C} {fd : Int} {id : Nat} (grown : registry.grow fd = .ok (next, id)) :
    next.total = registry.total := by
  obtain ⟨resized, went, rest⟩ := bind_ok grown
  obtain ⟨found, -, same⟩ := bind_ok rest
  cases same
  exact contextResize_total went

end Registry

/-! ## Calls one after another -/

inductive Call (S F C : Type) where
  | addEvent (caller : Caller S F) (fd : Int) (event : Event) (cb : Option C)
  | delEvent (fd : Int) (event : Event)
  | cancelEvent (fd : Int) (event : Event)
  | cancelAll (fd : Int)
  | dispatch (id : Nat) (reported : Mask)

/-- The descriptor a call names. -/
def Call.fd : Call S F C → Option Int
  | .addEvent _ fd _ _ | .delEvent fd _ | .cancelEvent fd _ | .cancelAll fd => some fd
  | .dispatch _ _ => none

/-- One call; `ctl` says how `epoll_ctl` answers during it. -/
def Call.on (ctl : EpollCall → Bool) (registry : Registry S F C) :
    Call S F C → Except Fault (Registry S F C × Answer S F C)
  | .addEvent caller fd event cb => registry.addEvent ctl caller fd event cb
  | .delEvent fd event => registry.delEvent ctl fd event
  | .cancelEvent fd event => registry.cancelEvent ctl fd event
  | .cancelAll fd => registry.cancelAll ctl fd
  | .dispatch id reported => registry.dispatch ctl id reported

/-- A fault ends the process, so it has no next state. -/
def calls (S F C : Type) : System (Registry S F C) ((EpollCall → Bool) × Call S F C) where
  start registry := registry = .initial
  step registry label :=
    match label.2.on label.1 registry with
    | .ok (next, _) => some next
    | .error _ => none

def InRange (_ : Registry S F C) (label : (EpollCall → Bool) × Call S F C) : Prop :=
  ∀ fd, label.2.fd = some fd → 0 ≤ fd ∧ fd < 2 ^ 30

namespace Registry

/-- The table finds every context, and there are not too many. -/
structure Whole (registry : Registry S F C) : Prop where
  table : registry.fdContexts = List.range registry.contexts.length
  small : registry.contexts.length ≤ 3 * 2 ^ 29

/-- Between calls: the table is whole and the counter is level. -/
structure Counted (registry : Registry S F C) : Prop extends Whole registry where
  level : registry.pendingEventCount = wrap64 registry.total

theorem Counted.within {ctl : EpollCall → Bool} {registry next : Registry S F C} {id : Nat} {op : Op S F C}
    {answer : Answer S F C} (counted : registry.Counted)
    (ran : registry.within ctl id op = .ok (next, answer)) : next.Counted := by
  have level := within_counts ran counted.level
  obtain ⟨ctx, out, -, -, rfl, -⟩ := within_ok ran
  exact ⟨⟨by simpa using counted.table, by simpa using counted.small⟩, level⟩

/-- The position that the table gives is the descriptor. -/
theorem Whole.entry_ok {registry : Registry S F C} (whole : registry.Whole) {fd : Int} {id : Nat}
    (found : registry.entry fd = .ok id) : (id : Int) = fd ∧ id < registry.contexts.length := by
  unfold entry at found
  split at found
  next => cases found
  next nonnegative =>
    split at found
    next place at_fd =>
      cases found
      rw [whole.table, List.getElem?_eq_some_iff] at at_fd
      obtain ⟨inside, same⟩ := at_fd
      rw [List.length_range] at inside
      rw [List.getElem_range] at same
      omega
    next => cases found

theorem Whole.locate_ok {registry : Registry S F C} (whole : registry.Whole) {fd : Int} {id : Nat}
    (found : registry.locate fd = .ok (some id)) : (id : Int) = fd ∧ id < registry.contexts.length := by
  unfold locate at found
  split at found
  next =>
    obtain ⟨_, entered, same⟩ := map_ok found
    cases same
    exact whole.entry_ok entered
  next => cases found

theorem Whole.beyond {registry : Registry S F C} (whole : registry.Whole) {fd : Int}
    (beyond : registry.locate fd = .ok none) : (registry.contexts.length : Int) ≤ fd := by
  have small := whole.small
  unfold locate at beyond
  split at beyond
  next =>
    obtain ⟨_, -, wrong⟩ := map_ok beyond
    cases wrong
  next less =>
    rw [whole.table, List.length_range, int32_of_lt (by omega)] at less
    omega

/-- The table only grows when calls do not overlap. -/
theorem Whole.grow_ok {registry next : Registry S F C} {fd : Int} {id : Nat} (whole : registry.Whole)
    (range : 0 ≤ fd ∧ fd < 2 ^ 30) (beyond : registry.locate fd = .ok none)
    (grown : registry.grow fd = .ok (next, id)) :
    next.Whole ∧ (id : Int) = fd ∧ id < next.contexts.length ∧
      next.pendingEventCount = registry.pendingEventCount ∧
      ∃ more, next.contexts = registry.contexts ++
        (List.range' registry.contexts.length more).map fun i : Nat => FdContext.fresh i := by
  obtain ⟨kept, fresh, first, last, rfl, entered⟩ := Registry.grow_ok grown
  have short := whole.beyond beyond
  have size : (int32 (fd.toNat * 3 / 2)).toNat = fd.toNat * 3 / 2 := by
    rw [int32_of_lt (by omega)]
    omega
  rw [size, whole.table, List.take_of_length_le (by rw [List.length_range]; omega)] at first
  rw [size, first, List.length_range] at last
  have small := whole.small
  have grown : ({ registry with
      contexts := registry.contexts ++ fresh.map fun i : Nat => FdContext.fresh i
      fdContexts := kept ++ List.range' registry.contexts.length fresh.length } : Registry S F C).Whole := by
    refine ⟨?_, ?_⟩
    · simp only [List.length_append, List.length_map]
      rw [first, List.range_add]
      simp [List.range'_eq_map_range]
    · simp only [List.length_append, List.length_map, last, List.length_range']
      omega
  obtain ⟨same, inside⟩ := grown.entry_ok entered
  exact ⟨grown, same, inside, rfl, _, by rw [last]⟩

theorem Counted.grow {registry next : Registry S F C} {fd : Int} {id : Nat} (counted : registry.Counted)
    (range : 0 ≤ fd ∧ fd < 2 ^ 30) (beyond : registry.locate fd = .ok none)
    (grown : registry.grow fd = .ok (next, id)) : next.Counted := by
  obtain ⟨whole, -, -, pending, -⟩ := counted.toWhole.grow_ok range beyond grown
  exact ⟨whole, by rw [pending, grow_total grown]; exact counted.level⟩

theorem Counted.onKnown {ctl : EpollCall → Bool} {registry next : Registry S F C} {fd : Int} {op : Op S F C}
    {answer : Answer S F C} (counted : registry.Counted)
    (ran : registry.onKnown ctl fd op = .ok (next, answer)) : next.Counted := by
  obtain ⟨found, located, rest⟩ := bind_ok ran
  cases found with
  | none =>
    cases rest
    exact counted
  | some id => exact counted.within rest

theorem Counted.step {ctl : EpollCall → Bool} {registry next : Registry S F C} {call : Call S F C}
    {answer : Answer S F C} (counted : registry.Counted)
    (range : ∀ fd, call.fd = some fd → 0 ≤ fd ∧ fd < 2 ^ 30)
    (ran : call.on ctl registry = .ok (next, answer)) : next.Counted := by
  cases call with
  | addEvent caller fd event cb =>
    obtain ⟨found, located, rest⟩ := bind_ok ran
    cases found with
    | some id => exact counted.within rest
    | none =>
      obtain ⟨⟨grown, id⟩, went, rest⟩ := bind_ok rest
      exact (counted.grow (range fd rfl) located went).within rest
  | delEvent fd event => exact counted.onKnown ran
  | cancelEvent fd event => exact counted.onKnown ran
  | cancelAll fd => exact counted.onKnown ran
  | dispatch id reported => exact counted.within ran

theorem counted_initial : (initial : Registry S F C).Counted := by
  refine ⟨⟨by simp [initial], by simp [initial]⟩, ?_⟩
  have resized := contextResize_total (contextResize_initial (S := S) (F := F) (C := C))
  rw [resized]
  rfl

theorem counted_of_reaches {registry : Registry S F C} (reached : (calls S F C).Reaches InRange registry) :
    registry.Counted := by
  refine reached.invariant (fun s begins => ?_) fun s label next before range stepped => ?_
  · rw [show s = .initial from begins]
    exact counted_initial
  · simp only [calls] at stepped
    split at stepped
    next _ _ ran =>
      cases stepped
      exact before.step range ran
    next => cases stepped

theorem total_le (registry : Registry S F C) : registry.total ≤ 2 * registry.contexts.length := by
  have each (ctx : FdContext S F C) : bits ctx.events ≤ 2 := by
    have read := Bool.toNat_le (covers ctx.events .read)
    have write := Bool.toNat_le (covers ctx.events .write)
    unfold bits
    omega
  unfold total
  induction registry.contexts with
  | nil => simp
  | cons ctx rest ih =>
    have first := each ctx
    simp only [List.map_cons, List.sum_cons, List.length_cons]
    omega

theorem total_eq_zero_iff (registry : Registry S F C) :
    registry.total = 0 ↔ ∀ ctx ∈ registry.contexts, ∀ event, covers ctx.events event = false := by
  have none (ctx : FdContext S F C) : bits ctx.events = 0 ↔ ∀ event, covers ctx.events event = false := by
    constructor
    · intro zero event
      cases event <;> simp_all [bits]
    · intro none
      simp [bits, none]
  simp only [total, List.sum_eq_zero_iff_forall_eq_nat, List.forall_mem_map, none]

/-- The counter is the number of registered events, so it never wraps, and it
is zero exactly when no event is registered. -/
theorem pending_exact {registry : Registry S F C} (reached : (calls S F C).Reaches InRange registry) :
    registry.pendingEventCount = registry.total ∧
      (registry.pendingEventCount = 0 ↔
        ∀ ctx ∈ registry.contexts, ∀ event, covers ctx.events event = false) := by
  have counted := counted_of_reaches reached
  have below : registry.total < 2 ^ 64 := by
    have most := registry.total_le
    have small := counted.small
    omega
  have exact : registry.pendingEventCount = registry.total := by rw [counted.level, wrap64_of_lt below]
  exact ⟨exact, by rw [exact, total_eq_zero_iff]⟩

def inRangeTest (_ : Registry Unit Nat Nat) (label : (EpollCall → Bool) × Call Unit Nat Nat) : Bool :=
  label.2.fd.all fun fd => 0 ≤ fd && fd < 2 ^ 30

/-- Two registrations, the second behind the end of the table, a refused
cancellation and a report. -/
def growThenReport : List ((EpollCall → Bool) × Call Unit Nat Nat) :=
  [(fun _ => true, .addEvent ⟨some (), 1, true⟩ 3 .read none),
    (fun _ => true, .addEvent ⟨some (), 1, true⟩ 40 .write (some 7)),
    (fun _ => false, .cancelEvent 40 .write),
    (fun _ => true, .dispatch 3 EPOLLIN)]

theorem pending_exact_growThenReport :
    ∃ registry, (calls Unit Nat Nat).Reaches InRange registry ∧ registry.contexts.length = 60 ∧
      registry.pendingEventCount = 1 ∧ registry.pendingEventCount = registry.total ∧
        (registry.pendingEventCount = 0 ↔
          ∀ ctx ∈ registry.contexts, ∀ event, covers ctx.events event = false) := by
  obtain ⟨registry, reached, test⟩ := System.reaches_test (calls Unit Nat Nat) InRange inRangeTest
    (fun _ _ passed fd named => by simpa [inRangeTest, named] using passed) .initial rfl growThenReport
    (fun registry => registry.contexts.length = 60 ∧ registry.pendingEventCount = 1) (by decide)
  obtain ⟨grown, one⟩ := of_decide_eq_true test
  exact ⟨registry, reached, grown, one, pending_exact reached⟩

end Registry
end HpsSf.IOManager
