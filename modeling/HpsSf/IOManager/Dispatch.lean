import HpsSf.IOManager.FdContext

/-! What triggering does to an event context, and when dispatch is right.

Dispatch triggers every event that is reported, registered or not. It does what
it should exactly when the report covers no registered event, or covers
registered events only.
-/

set_option autoImplicit false

namespace HpsSf.IOManager
open Foundation (incr64 decr64)
open Scheduler (Task)

variable {S F C : Type}

/-! ## Masks -/

theorem covers_read (mask : Mask) : covers mask .read = mask.getLsbD 0 := by
  have bit : Event.read.mask = BitVec.twoPow 32 0 := by decide
  rw [covers, bit, BitVec.and_twoPow]
  cases mask.getLsbD 0 <;> decide

theorem covers_write (mask : Mask) : covers mask .write = mask.getLsbD 2 := by
  have bit : Event.write.mask = BitVec.twoPow 32 2 := by decide
  rw [covers, bit, BitVec.and_twoPow]
  cases mask.getLsbD 2 <;> decide

@[simp] theorem covers_none (mask : Mask) : covers mask .none = false := by simp [covers, Event.mask]

@[simp] theorem covers_zero (event : Event) : covers 0#32 event = false := by simp [covers]

@[simp] theorem covers_or (first second : Mask) (event : Event) :
    covers (first ||| second) event = (covers first event || covers second event) := by
  cases event <;> simp [covers_read, covers_write]

@[simp] theorem covers_diff (mask dropped : Mask) (event : Event) :
    covers (mask &&& ~~~dropped) event = (covers mask event && !covers dropped event) := by
  cases event <;> simp [covers_read, covers_write]

@[simp] theorem covers_mask (event other : Event) :
    covers event.mask other = decide (event = other ∧ event ≠ .none) := by
  cases event <;> cases other <;> decide

theorem and_mask_eq_zero_iff (events : Mask) (event : Event) :
    events &&& event.mask = 0 ↔ covers events event = false := by simp [covers]

/-- READ and WRITE are the only bits of `real_events`. -/
theorem realEvents_eq (reported : Mask) : ∃ first second : Bool, realEvents reported =
    (if first then Event.read.mask else 0) ||| if second then Event.write.mask else 0 :=
  ⟨_, _, rfl⟩

theorem and_realEvents_eq_zero_iff (events reported : Mask) :
    events &&& realEvents reported = 0 ↔
      ∀ event, (covers events event && covers (realEvents reported) event) = false := by
  have split (event : Event) (set : Bool) : events &&& (if set then event.mask else 0) = 0 ↔
      (covers events event && set) = false := by
    cases set with
    | false => simp
    | true => simpa using and_mask_eq_zero_iff events event
  obtain ⟨first, second, same⟩ := realEvents_eq reported
  have read : covers (realEvents reported) .read = first := by
    rw [same, covers_or]
    cases first <;> cases second <;> decide
  have write : covers (realEvents reported) .write = second := by
    rw [same, covers_or]
    cases first <;> cases second <;> decide
  have both : events &&& realEvents reported = 0 ↔
      (covers events .read && first) = false ∧ (covers events .write && second) = false := by
    rw [same, BitVec.and_or_distrib_left, ← split, ← split]
    exact BitVec.or_eq_zero_iff
  rw [both]
  constructor
  · rintro ⟨left, right⟩ (_ | _ | _)
    · simp
    · rwa [read]
    · rwa [write]
  · intro none
    exact ⟨read ▸ none .read, write ▸ none .write⟩

/-- An event is reported by its own bit, or by an error or a hang-up. -/
theorem covers_realEvents (reported : Mask) (event : Event) :
    covers (realEvents reported) event =
      (event != .none && (covers reported event || reported &&& (EPOLLERR ||| EPOLLHUP) != 0)) := by
  have input (mask : Mask) : (mask &&& EPOLLIN != 0) = covers mask .read := rfl
  have output (mask : Mask) : (mask &&& EPOLLOUT != 0) = covers mask .write := rfl
  have widened (event : Event) : covers (if reported &&& (EPOLLERR ||| EPOLLHUP) != 0 then
      reported ||| EPOLLIN ||| EPOLLOUT else reported) event =
      (covers reported event || event != .none && reported &&& (EPOLLERR ||| EPOLLHUP) != 0) := by
    cases reported &&& (EPOLLERR ||| EPOLLHUP) != 0
    · simp
    · have both : covers (reported ||| EPOLLIN ||| EPOLLOUT) event =
          (covers reported event || event != .none) := by
        rw [show EPOLLIN = Event.read.mask from rfl, show EPOLLOUT = Event.write.mask from rfl,
          covers_or, covers_or, Bool.or_assoc]
        cases event <;> cases covers reported _ <;> decide
      simpa using both
  simp only [realEvents, input, output, widened, covers_or]
  cases event with
  | none => simp
  | read =>
    cases covers reported .read <;> cases reported &&& (EPOLLERR ||| EPOLLHUP) != 0 <;>
      cases covers reported .write <;> decide
  | write =>
    cases covers reported .read <;> cases reported &&& (EPOLLERR ||| EPOLLHUP) != 0 <;>
      cases covers reported .write <;> decide

/-! ## Triggering -/

namespace EventContext

/-- What the slot gives to its scheduler. -/
def content (slot : EventContext S F C) : Option (Task F C) :=
  match slot.cb with
  | some cb => some (.cb cb)
  | none => slot.fiber.map .fiber

/-- The slot after its content has been swapped out. -/
def emptied (slot : EventContext S F C) : EventContext S F C :=
  match slot.cb with
  | some _ => { slot with cb := none, scheduler := none }
  | none => { slot with fiber := none, scheduler := none }

end EventContext

namespace FdContext

def slot (ctx : FdContext S F C) : Event → EventContext S F C
  | .read => ctx.read
  | .write => ctx.write
  | .none => .clear

/-- The context after an event has been triggered. -/
def released (ctx : FdContext S F C) (event : Event) : FdContext S F C :=
  { ctx with events := ctx.events &&& ~~~event.mask }.setContext (ctx.slot event).emptied event

/-- The call of `schedule` by which an event is triggered. -/
def handover (ctx : FdContext S F C) (event : Event) : Option (Handed S F C) :=
  (ctx.slot event).scheduler.map fun scheduler => ⟨scheduler, (ctx.slot event).content⟩

@[simp] theorem setContext_events (ctx : FdContext S F C) (slot : EventContext S F C) (event : Event) :
    (ctx.setContext slot event).events = ctx.events := by
  cases event <;> rfl

@[simp] theorem setContext_fd (ctx : FdContext S F C) (slot : EventContext S F C) (event : Event) :
    (ctx.setContext slot event).fd = ctx.fd := by
  cases event <;> rfl

theorem slot_setContext (ctx : FdContext S F C) (slot : EventContext S F C) {event : Event}
    (named : event ≠ .none) (other : Event) :
    (ctx.setContext slot event).slot other = if other = event then slot else ctx.slot other := by
  cases event <;> cases other <;> first | rfl | exact absurd rfl named

@[simp] theorem released_events (ctx : FdContext S F C) (event : Event) :
    (ctx.released event).events = ctx.events &&& ~~~event.mask := by
  simp [released]

theorem released_slot (ctx : FdContext S F C) {event : Event} (named : event ≠ .none) (other : Event) :
    (ctx.released event).slot other = if other = event then (ctx.slot event).emptied else ctx.slot other :=
  slot_setContext _ _ named other

theorem triggerEvent_ok_iff {ctx after : FdContext S F C} {event : Event} {handed : Handed S F C} :
    ctx.triggerEvent event = .ok (after, handed) ↔
      covers ctx.events event = true ∧ ctx.handover event = some handed ∧ after = ctx.released event := by
  unfold triggerEvent
  cases registered : covers ctx.events event with
  | false => simp
  | true =>
    cases event with
    | none => simp at registered
    | read =>
      obtain ⟨⟨scheduler, fiber, cb⟩, write, fd, events⟩ := ctx
      cases scheduler <;> cases cb <;>
        simp [getContext, handover, slot, released, EventContext.content, EventContext.emptied, setContext,
          Bind.bind, Except.bind, Pure.pure, Except.pure, eq_comm, and_comm]
    | write =>
      obtain ⟨read, ⟨scheduler, fiber, cb⟩, fd, events⟩ := ctx
      cases scheduler <;> cases cb <;>
        simp [getContext, handover, slot, released, EventContext.content, EventContext.emptied, setContext,
          Bind.bind, Except.bind, Pure.pure, Except.pure, eq_comm, and_comm]

theorem triggerIf_ok_iff {mask : Mask} {event : Event} {before after : Section S F C Unit} :
    triggerIf mask event before = .ok after ↔
      if covers mask event then
        covers before.ctx.events event = true ∧ ∃ handed, before.ctx.handover event = some handed ∧
          after = ⟨before.ctx.released event, decr64 before.pending, before.handed ++ [handed], ()⟩
      else after = before := by
  unfold triggerIf
  cases covers mask event with
  | false => simpa [Pure.pure, Except.pure] using eq_comm
  | true =>
    cases triggered : before.ctx.triggerEvent event with
    | error fault =>
      simp only [if_true, Bind.bind, Except.bind, reduceCtorEq, false_iff, not_and, not_exists]
      intro registered handed found
      rw [triggerEvent_ok_iff.mpr ⟨registered, found, rfl⟩] at triggered
      cases triggered
    | ok result =>
      obtain ⟨ctx, handed⟩ := result
      obtain ⟨registered, found, rfl⟩ := triggerEvent_ok_iff.mp triggered
      simp [Bind.bind, Except.bind, Pure.pure, Except.pure, registered, found, eq_comm]

theorem handover_released (ctx : FdContext S F C) {event other : Event} (distinct : other ≠ event)
    (named : event ≠ .none) : (ctx.released event).handover other = ctx.handover other := by
  simp [handover, released_slot ctx named, distinct]

/-- The two triggers of dispatch and of `cancelAll`. -/
def triggers (mask : Mask) (ctx : FdContext S F C) (pending : Nat) : Except Fault (Section S F C Unit) := do
  let first ← triggerIf mask .read ⟨ctx, pending, [], ()⟩
  triggerIf mask .write first

/-- The events of a mask, in the order of the code. -/
def chosen (mask : Mask) : List Event := [.read, .write].filter (covers mask)

/-- The context after each of the events has been triggered. -/
def releasedAll (ctx : FdContext S F C) (events : List Event) : FdContext S F C := events.foldl released ctx

theorem triggers_ok_iff {mask : Mask} {ctx : FdContext S F C} {pending : Nat} {out : Section S F C Unit} :
    triggers mask ctx pending = .ok out ↔
      (∀ event ∈ chosen mask, covers ctx.events event = true ∧ (ctx.handover event).isSome = true) ∧
      out = ⟨ctx.releasedAll (chosen mask), decr64^[(chosen mask).length] pending, (chosen mask).filterMap ctx.handover, ()⟩ := by
  have unfolded : triggers mask ctx pending = .ok out ↔
      ∃ first, triggerIf mask .read ⟨ctx, pending, [], ()⟩ = .ok first ∧ triggerIf mask .write first = .ok out := by
    simp only [triggers, Bind.bind, Except.bind]
    cases triggerIf mask .read ⟨ctx, pending, [], ()⟩ <;> simp
  rw [unfolded]
  simp only [triggerIf_ok_iff]
  cases read : covers mask .read <;> cases write : covers mask .write
  · have picked : chosen mask = [] := by simp [chosen, read, write]
    simp [picked, releasedAll]
  · have picked : chosen mask = [.write] := by simp [chosen, read, write]
    simp only [picked, List.length_singleton, Function.iterate_one]
    cases found : ctx.handover .write <;> simp [found, releasedAll]
  · have picked : chosen mask = [.read] := by simp [chosen, read, write]
    simp only [picked, List.length_singleton, Function.iterate_one]
    cases found : ctx.handover .read <;> simp [found, releasedAll]
  · have picked : chosen mask = [.read, .write] := by simp [chosen, read, write]
    rw [picked, List.length_cons, List.length_singleton, Function.iterate_succ_apply, Function.iterate_one]
    cases first : ctx.handover .read <;> cases last : ctx.handover .write <;>
      simp [first, last, handover_released, and_assoc, releasedAll]

theorem mem_chosen {mask : Mask} {event : Event} : event ∈ chosen mask ↔ covers mask event = true := by
  cases event <;> simp [chosen]

theorem releasedAll_events (ctx : FdContext S F C) (events : List Event) (event : Event) :
    covers (ctx.releasedAll events).events event = (covers ctx.events event && !events.contains event) := by
  induction events generalizing ctx with
  | nil => simp [releasedAll]
  | cons first rest ih =>
    have later := ih (ctx.released first)
    rw [releasedAll, List.foldl_cons, ← releasedAll, later, released_events, covers_diff, covers_mask]
    cases event with
    | none => simp
    | read => cases first <;> simp
    | write => cases first <;> simp

theorem releasedAll_slot (ctx : FdContext S F C) {events : List Event} {event : Event}
    (untouched : event ∉ events) : (ctx.releasedAll events).slot event = ctx.slot event := by
  induction events generalizing ctx with
  | nil => rfl
  | cons first rest ih =>
    obtain ⟨distinct, absent⟩ := not_or.mp (mt List.mem_cons.mpr untouched)
    rw [releasedAll, List.foldl_cons, ← releasedAll, ih _ absent]
    cases first with
    | none => rfl
    | read => rw [released_slot ctx (by decide), if_neg distinct]
    | write => rw [released_slot ctx (by decide), if_neg distinct]

/-! ## Dispatch -/

/-- The events that dispatch should trigger. -/
def due (ctx : FdContext S F C) (reported : Mask) : List Event :=
  [.read, .write].filter fun event => covers ctx.events event && covers (realEvents reported) event

/-- Each registered event that is reported is handed to its scheduler, once and
in order, and nothing else changes: what is not triggered stays registered. -/
structure Dispatched (ctx : FdContext S F C) (reported : Mask) (out : Section S F C Unit) : Prop where
  handed : out.handed.map some = (ctx.due reported).map ctx.handover
  events : ∀ event, covers out.ctx.events event = (covers ctx.events event && !(ctx.due reported).contains event)
  slots : ∀ event, event ∉ ctx.due reported → out.ctx.slot event = ctx.slot event

theorem mem_due {ctx : FdContext S F C} {reported : Mask} {event : Event} : event ∈ ctx.due reported ↔
    covers ctx.events event = true ∧ covers (realEvents reported) event = true := by
  cases event <;> simp [due]

theorem due_eq_nil_iff {ctx : FdContext S F C} {reported : Mask} :
    ctx.due reported = [] ↔ ctx.events &&& realEvents reported = 0 := by
  rw [and_realEvents_eq_zero_iff, List.eq_nil_iff_forall_not_mem]
  exact forall_congr' fun event => by rw [mem_due]; simp

/-- When no registered event is reported, the loop goes on to the next report. -/
theorem dispatch_idle {ctl : EpollCall → Bool} {ctx : FdContext S F C} {pending : Nat} {reported : Mask}
    (none : ctx.due reported = []) : ctx.dispatch ctl pending reported = .ok ⟨ctx, pending, [], ()⟩ := by
  simp [dispatch, due_eq_nil_iff.mp none, Pure.pure, Except.pure]

/-- A refused change of the interest mask leaves everything registered. -/
theorem dispatch_refused {ctl : EpollCall → Bool} {ctx : FdContext S F C} {pending : Nat} {reported : Mask}
    (refused : ctl (ctx.dropCall ctx.fd (realEvents reported)) = false) :
    ctx.dispatch ctl pending reported = .ok ⟨ctx, pending, [], ()⟩ := by
  simp [dispatch, refused, Pure.pure, Except.pure]

theorem dispatched_idle {ctx : FdContext S F C} {pending : Nat} {reported : Mask}
    (none : ctx.due reported = []) : ctx.Dispatched reported ⟨ctx, pending, [], ()⟩ :=
  ⟨by simp [none], by simp [none], fun _ _ => rfl⟩

theorem due_eq_chosen {ctx : FdContext S F C} {reported : Mask}
    (registered : ∀ event ∈ chosen (realEvents reported), covers ctx.events event = true) :
    ctx.due reported = chosen (realEvents reported) := by
  refine List.filter_congr fun event _ => ?_
  cases covered : covers (realEvents reported) event with
  | false => simp
  | true => simp [registered event (mem_chosen.mpr covered)]

/-- Triggering what is chosen is right when all of it is registered. -/
theorem dispatched_chosen {ctx : FdContext S F C} {reported : Mask}
    (ready : ∀ event ∈ chosen (realEvents reported), covers ctx.events event = true ∧ (ctx.handover event).isSome = true)
    (pending : Nat) : ctx.Dispatched reported ⟨ctx.releasedAll (chosen (realEvents reported)), pending,
      (chosen (realEvents reported)).filterMap ctx.handover, ()⟩ := by
  have same := due_eq_chosen fun event member => (ready event member).1
  refine ⟨?_, fun event => ?_, fun event untouched => ?_⟩
  · rw [same, List.map_filterMap_some_eq_filter_map_isSome]
    rw [List.filter_eq_self]
    intro handed member
    obtain ⟨event, chosen, rfl⟩ := List.mem_map.mp member
    exact (ready event chosen).2
  · rw [same, releasedAll_events]
  · exact releasedAll_slot ctx (same ▸ untouched)

/-- Dispatch does what it should exactly when no registered event is reported,
or every reported event is registered and can be handed over and `epoll_ctl`
accepts the change of the interest mask. -/
theorem dispatch_exact_iff (ctl : EpollCall → Bool) (ctx : FdContext S F C) (pending : Nat) (reported : Mask) :
    (∃ out, ctx.dispatch ctl pending reported = .ok out ∧ ctx.Dispatched reported out) ↔
      (∀ event, covers (realEvents reported) event = true → covers ctx.events event = false) ∨
      (∀ event, covers (realEvents reported) event = true →
        covers ctx.events event = true ∧ (ctx.slot event).scheduler.isSome = true) ∧
        ctl (ctx.dropCall ctx.fd (realEvents reported)) = true := by
  have idle : (∀ event, covers (realEvents reported) event = true → covers ctx.events event = false) ↔
      ctx.due reported = [] := by
    rw [List.eq_nil_iff_forall_not_mem]
    exact forall_congr' fun event => by rw [mem_due]; cases covers ctx.events event <;> simp
  have able (event : Event) : (ctx.slot event).scheduler.isSome = true ↔ (ctx.handover event).isSome = true := by
    simp [handover]
  by_cases none : ctx.due reported = []
  · exact iff_of_true ⟨_, dispatch_idle none, dispatched_idle none⟩ (.inl (idle.mpr none))
  rw [idle, or_iff_right none]
  cases accepted : ctl (ctx.dropCall ctx.fd (realEvents reported)) with
  | false =>
    refine iff_of_false ?_ (by simp)
    rintro ⟨out, went, right⟩
    rw [dispatch_refused accepted] at went
    cases went
    exact none (by simpa using right.handed)
  | true =>
    have body : ctx.dispatch ctl pending reported = triggers (realEvents reported) ctx pending := by
      simp only [dispatch, triggers, mt due_eq_nil_iff.mpr none, accepted, if_false, if_true]
    simp only [body, triggers_ok_iff, able, mem_chosen, and_true]
    constructor
    · rintro ⟨out, ⟨ready, -⟩, -⟩
      exact ready
    · intro ready
      exact ⟨_, ⟨ready, rfl⟩, dispatched_chosen (fun event member => ready event (mem_chosen.mp member)) _⟩

/-- A peer's hang-up while only READ is registered: the assertion of
`triggerEvent` fails for WRITE. -/
theorem dispatch_aborts :
    covers (⟨⟨some (), some 1, none⟩, .clear, 5, Event.read.mask⟩ : FdContext Unit Nat Nat).events .write = false ∧
      (⟨⟨some (), some 1, none⟩, .clear, 5, Event.read.mask⟩ : FdContext Unit Nat Nat).dispatch (fun _ => true) 1
        EPOLLHUP = .error .notRegistered := by
  decide

end FdContext
end HpsSf.IOManager
