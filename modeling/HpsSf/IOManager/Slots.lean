import HpsSf.Foundation.Outcome
import HpsSf.IOManager.Pending
import HpsSf.IOManager.Registration

/-! What the slots of the contexts hold, for any interleaving of sections.

`addEvent` stores `hps_Scheduler::GetThis()`, which is null on a thread that
runs no scheduler. As long as no such call succeeds, every slot in use names the
scheduler that `triggerEvent` calls, and every other slot is clear.
-/

set_option autoImplicit false

namespace HpsSf.IOManager
open Foundation

variable {S F C : Type}

/-- The sections that calls consist of, on contexts found at any time before.
A fault ends the process, so it has no next state. -/
def interleaved (S F C : Type) : System (Registry S F C) (Critical S F C) where
  start registry := registry = .initial
  step registry critical :=
    match critical with
    | .grow fd =>
        match registry.grow fd with
        | .ok (next, _) => some next
        | .error _ => none
    | .onContext ctl id op =>
        match registry.within ctl id op with
        | .ok (next, _) => some next
        | .error _ => none

/-- An `addEvent` comes from a thread that runs a scheduler, or `epoll_ctl` refuses it. -/
def Op.Scheduled (ctl : EpollCall → Bool) (ctx : FdContext S F C) : Op S F C → Prop
  | .addEvent caller fd event _ => caller.scheduler.isSome = true ∨ ctl (ctx.addCall fd event) = false
  | _ => True

def Scheduled (registry : Registry S F C) : Critical S F C → Prop
  | .grow _ => True
  | .onContext ctl id op => ∀ ctx, registry.contexts[id]? = some ctx → op.Scheduled ctl ctx

/-- Neither the assertion of `addEvent` on the slot nor the use of a null scheduler. -/
def Fault.Apart (fault : Fault) : Prop := fault ≠ .slotTaken ∧ fault ≠ .nullScheduler

namespace FdContext

/-- A registered event has a scheduler and either a fiber or a callback; the
slot of any other event is clear. -/
def Armed (ctx : FdContext S F C) : Prop :=
  ∀ event, if covers ctx.events event then
    (ctx.slot event).scheduler.isSome = true ∧ (ctx.slot event).Filled else ctx.slot event = .clear

variable {ctl : EpollCall → Bool} {ctx : FdContext S F C} {pending : Nat}

theorem Armed.sound (armed : ctx.Armed) : ctx.Sound := by
  intro event
  have slot := armed event
  split at slot
  next registered =>
    rw [if_pos registered]
    exact slot.2
  next unregistered =>
    rw [if_neg unregistered]
    exact slot

theorem Armed.scheduler (armed : ctx.Armed) {event : Event} (registered : covers ctx.events event = true) :
    (ctx.slot event).scheduler.isSome = true := by
  have slot := armed event
  rw [if_pos registered] at slot
  exact slot.1

theorem Armed.clear (armed : ctx.Armed) {event : Event} (unregistered : covers ctx.events event = false) :
    ctx.slot event = .clear := by
  have slot := armed event
  rwa [if_neg (by simp [unregistered])] at slot

theorem Without.armed {fuller : FdContext S F C} {event : Event} (less : fuller.Without event ctx)
    (armed : fuller.Armed) (cleared : ctx.slot event = .clear) : ctx.Armed := by
  intro other
  have before := armed other
  rw [less.events]
  by_cases same : other = event
  · subst same
    simpa using cleared
  · rw [less.slots other same]
    simpa [same] using before

theorem Armed.released (armed : ctx.Armed) {event : Event} (registered : covers ctx.events event = true) :
    (ctx.released event).Armed := by
  have sound := released_sound armed.sound registered event
  have less := without_released registered
  rw [less.events, if_neg (by simp)] at sound
  exact less.armed armed sound

/-- Filling the slot of an event that was not registered. -/
theorem Armed.filled (armed : ctx.Armed) {event : Event} (named : event ≠ .none)
    (unregistered : covers ctx.events event = false) (slot : EventContext S F C)
    (scheduler : slot.scheduler.isSome = true) (filled : slot.Filled) :
    ({ ctx with events := ctx.events ||| event.mask }.setContext slot event).Armed := by
  have more := without_added named unregistered slot
  intro other
  by_cases same : other = event
  · subst same
    rw [if_pos more.registered, slot_setContext _ _ named, if_pos rfl]
    exact ⟨scheduler, filled⟩
  · have before := armed other
    rw [more.events, more.slots other same] at before
    simpa [same] using before

/-! ### Sections -/

theorem getContext_ensures (ctx : FdContext S F C) (event : Event) :
    Ensures Fault.Apart (fun slot => event ≠ .none ∧ slot = ctx.slot event) (ctx.getContext event) := by
  cases event with
  | none => exact .error ⟨nofun, nofun⟩
  | read => exact .ok ⟨nofun, rfl⟩
  | write => exact .ok ⟨nofun, rfl⟩

theorem slot_events (ctx : FdContext S F C) (events : Mask) (event : Event) :
    ({ ctx with events := events } : FdContext S F C).slot event = ctx.slot event := by
  cases event <;> rfl

theorem Armed.triggerEvent (armed : ctx.Armed) (event : Event) :
    Ensures Fault.Apart (fun out => out.1.Armed) (ctx.triggerEvent event) := by
  have apart : Ensures Fault.Apart (fun _ => True) (ctx.triggerEvent event) := by
    unfold FdContext.triggerEvent
    refine .ite (fun registered => ?_) fun _ => .error ⟨nofun, nofun⟩
    -- The event is registered and its scheduler known, so nothing can fail.
    obtain ⟨scheduler, known⟩ := Option.isSome_iff_exists.mp (armed.scheduler registered)
    refine (getContext_ensures _ event).bind fun slot ⟨named, found⟩ => ?_
    rw [found, slot_events, known]
    cases (ctx.slot event).cb <;> exact .pure trivial
  cases triggered : ctx.triggerEvent event with
  | ok out =>
    obtain ⟨after, handed⟩ := out
    obtain ⟨registered, -, rfl⟩ := triggerEvent_ok_iff.mp triggered
    exact .ok (armed.released registered)
  | error fault => exact .error (apart.of_error triggered)

theorem Armed.triggerIf {before : Section S F C Unit} (armed : before.ctx.Armed) (mask : Mask) (event : Event) :
    Ensures Fault.Apart (fun out => out.ctx.Armed) (FdContext.triggerIf mask event before) := by
  unfold FdContext.triggerIf
  refine .ite (fun _ => (armed.triggerEvent event).bind fun out after => ?_) fun _ => ?_
  · exact .pure after
  · exact .pure armed

/-- The clear slot passes the assertion, whichever event it is for. -/
theorem Armed.addEvent (armed : ctx.Armed) (caller : Caller S F) (fd : Int) (event : Event) (cb : Option C) :
    Ensures Fault.Apart (fun out => (Op.addEvent caller fd event cb).Scheduled ctl ctx → out.ctx.Armed)
      (ctx.addEvent ctl pending caller fd event cb) := by
  unfold FdContext.addEvent
  refine .ite (fun _ => .error ⟨by simp, by simp⟩) fun unregistered => ?_
  refine .ite (fun accepted => ?_) fun _ => .pure fun _ => armed
  refine (getContext_ensures _ event).bind fun slot ⟨named, found⟩ => ?_
  have unregistered := Bool.eq_false_iff.mpr unregistered
  have empty : slot = .clear := by rw [found, slot_events, armed.clear unregistered]
  have after (scheduled : (Op.addEvent caller fd event cb).Scheduled ctl ctx) :=
    armed.filled named unregistered (caller.slot cb)
      (by cases cb <;> exact scheduled.resolve_right (by rw [accepted]; simp))
      (EventContext.filled_slot caller cb)
  subst empty
  rw [if_neg (by simp [EventContext.clear])]
  cases cb with
  | some cb => exact .pure after
  | none => exact .ite (fun _ => .pure after) fun _ => .error ⟨by simp, by simp⟩

theorem Armed.delEvent (armed : ctx.Armed) (fd : Int) (event : Event) :
    Ensures Fault.Apart (fun out => out.ctx.Armed) (ctx.delEvent ctl pending fd event) := by
  unfold FdContext.delEvent
  refine .ite (fun registered => .ite (fun _ => ?_) fun _ => .pure armed) fun _ => .pure armed
  obtain ⟨less, cleared⟩ := without_deleted registered
  exact (getContext_ensures _ event).bind fun _ _ => .pure (less.armed armed cleared)

theorem Armed.cancelEvent (armed : ctx.Armed) (fd : Int) (event : Event) :
    Ensures Fault.Apart (fun out => out.ctx.Armed) (ctx.cancelEvent ctl pending fd event) := by
  unfold FdContext.cancelEvent
  refine .ite (fun _ => .ite (fun _ => ?_) fun _ => .pure armed) fun _ => .pure armed
  exact (armed.triggerEvent event).bind fun out after => .pure after

theorem Armed.cancelAll (armed : ctx.Armed) (fd : Int) :
    Ensures Fault.Apart (fun out => out.ctx.Armed) (ctx.cancelAll ctl pending fd) := by
  unfold FdContext.cancelAll
  refine .ite (fun _ => .pure armed) fun _ => .ite (fun _ => ?_) fun _ => .pure armed
  have begins : (⟨ctx, pending, [], ()⟩ : Section S F C Unit).ctx.Armed := armed
  refine (begins.triggerIf _ _).bind fun first read => ?_
  refine (read.triggerIf _ _).bind fun last write => ?_
  exact .ite (fun _ => .pure write) fun _ => .error ⟨nofun, nofun⟩

theorem Armed.dispatch (armed : ctx.Armed) (reported : Mask) :
    Ensures Fault.Apart (fun out => out.ctx.Armed) (ctx.dispatch ctl pending reported) := by
  unfold FdContext.dispatch
  refine .ite (fun _ => .pure armed) fun _ => .ite (fun _ => ?_) fun _ => .pure armed
  have begins : (⟨ctx, pending, [], ()⟩ : Section S F C Unit).ctx.Armed := armed
  refine (begins.triggerIf _ _).bind fun first read => ?_
  exact read.triggerIf _ _

/-- No section on an armed context can fail at a slot, and only an outside
registration leaves it disarmed. -/
theorem Armed.run (armed : ctx.Armed) (op : Op S F C) :
    Ensures Fault.Apart (fun out => op.Scheduled ctl ctx → out.ctx.Armed) (ctx.run ctl pending op) := by
  cases op with
  | addEvent caller fd event cb => exact (armed.addEvent caller fd event cb).map fun _ after => after
  | delEvent fd event => exact (armed.delEvent fd event).weaken fun _ after _ => after
  | cancelEvent fd event => exact (armed.cancelEvent fd event).weaken fun _ after _ => after
  | cancelAll fd => exact (armed.cancelAll fd).weaken fun _ after _ => after
  | dispatch reported => exact (armed.dispatch reported).map fun _ after _ => after

/-- The condition is exact: a registration that it does not cover leaves a slot
in use without a scheduler. -/
theorem Armed.addEvent_iff (armed : ctx.Armed) {caller : Caller S F} {fd : Int} {event : Event} {cb : Option C}
    {out : Section S F C Int} (added : ctx.addEvent ctl pending caller fd event cb = .ok out) :
    out.ctx.Armed ↔ (Op.addEvent caller fd event cb).Scheduled ctl ctx := by
  constructor
  · intro after
    cases accepted : ctl (ctx.addCall fd event) with
    | false => exact .inr accepted
    | true =>
      obtain rfl | ⟨named, unregistered, -, rfl⟩ := addEvent_ok added
      · exact nomatch (addEvent_returned accepted added : (-1 : Int) = 0)
      · have registered := (without_added named unregistered (caller.slot cb)).registered
        have known := after.scheduler registered
        rw [slot_setContext _ _ named, if_pos rfl] at known
        cases cb <;> exact .inl known
  · exact (armed.addEvent caller fd event cb).of_ok added

theorem armed_fresh (fd : Int) : (fresh fd : FdContext S F C).Armed := by
  intro event
  cases event <;> simp [fresh, slot]

end FdContext

/-! ## All contexts -/

namespace Registry

/-- Every slot is as its mask says, and no section fails an assertion on a slot
or meets a null scheduler. -/
structure Guarded (registry : Registry S F C) : Prop where
  slots : ∀ ctx ∈ registry.contexts, ctx.Armed
  faults : ∀ ctl id op fault, registry.within ctl id op = .error fault → fault.Apart

theorem within_ensures {registry : Registry S F C} (armed : ∀ ctx ∈ registry.contexts, ctx.Armed)
    (ctl : EpollCall → Bool) (id : Nat) (op : Op S F C) :
    Ensures Fault.Apart (fun out => Scheduled registry (.onContext ctl id op) → ∀ ctx ∈ out.1.contexts, ctx.Armed)
      (registry.within ctl id op) := by
  unfold within
  split
  next => exact .error ⟨nofun, nofun⟩
  next ctx found =>
    refine ((armed ctx (List.mem_of_getElem? found)).run op).map fun out after scheduled => ?_
    exact forall_set_cell armed (after (scheduled ctx found))

theorem guarded_of_armed {registry : Registry S F C} (armed : ∀ ctx ∈ registry.contexts, ctx.Armed) :
    registry.Guarded :=
  ⟨armed, fun ctl id op _ failed => (within_ensures armed ctl id op).of_error failed⟩

theorem armed_grow {registry next : Registry S F C} {fd : Int} {id : Nat}
    (armed : ∀ ctx ∈ registry.contexts, ctx.Armed) (grown : registry.grow fd = .ok (next, id)) :
    ∀ ctx ∈ next.contexts, ctx.Armed := by
  obtain ⟨kept, fresh, -, -, rfl, -⟩ := grow_ok grown
  intro ctx member
  obtain old | new := List.mem_append.mp member
  · exact armed ctx old
  · obtain ⟨i, -, rfl⟩ := List.mem_map.mp new
    exact FdContext.armed_fresh i

/-- Whatever the interleaving: as long as no registration from a thread without
a scheduler succeeds, the slots are in step with the masks and no section can
fail at one. -/
theorem slots_guarded {registry : Registry S F C} (reached : (interleaved S F C).Reaches Scheduled registry) :
    registry.Guarded := by
  apply guarded_of_armed
  refine reached.invariant (P := fun s => ∀ ctx ∈ s.contexts, ctx.Armed) (fun s begins => ?_)
    fun s critical next before scheduled stepped => ?_
  · rw [show s = .initial from begins]
    intro ctx member
    obtain ⟨i, -, rfl⟩ := List.mem_map.mp member
    exact FdContext.armed_fresh i
  · cases critical with
    | grow fd =>
      simp only [interleaved] at stepped
      split at stepped
      next grown =>
        cases stepped
        exact armed_grow before grown
      next => cases stepped
    | onContext ctl id op =>
      simp only [interleaved] at stepped
      split at stepped
      next ran =>
        cases stepped
        exact (within_ensures before ctl id op).of_ok ran scheduled
      next => cases stepped

theorem reaches_onContext {registry next : Registry S F C} {ctl : EpollCall → Bool} {id : Nat} {op : Op S F C}
    {answer : Answer S F C} (reached : (interleaved S F C).Reaches Scheduled registry)
    (scheduled : ∀ ctx, op.Scheduled ctl ctx) (ran : registry.within ctl id op = .ok (next, answer)) :
    (interleaved S F C).Reaches Scheduled next := by
  have stepped : (interleaved S F C).step registry (.onContext ctl id op) = some next := by
    simp [interleaved, ran]
  have permitted : Scheduled registry (.onContext ctl id op) := fun ctx _ => scheduled ctx
  exact .step reached permitted stepped

theorem reaches_grow {registry next : Registry S F C} {fd : Int} {id : Nat}
    (reached : (interleaved S F C).Reaches Scheduled registry) (grown : registry.grow fd = .ok (next, id)) :
    (interleaved S F C).Reaches Scheduled next := by
  have stepped : (interleaved S F C).step registry (.grow fd) = some next := by simp [interleaved, grown]
  have permitted : Scheduled registry (.grow fd) := trivial
  exact .step reached permitted stepped

/-- Calls one after another are one interleaving of their sections. -/
theorem interleaved_of_calls {registry : Registry S F C}
    (reached : (calls S F C).Reaches (fun _ label => ∀ caller fd event cb,
      label.2 = .addEvent caller fd event cb → caller.scheduler.isSome = true) registry) :
    (interleaved S F C).Reaches Scheduled registry := by
  induction reached with
  | start begins => exact .start begins
  | @step s next label _ scheduled stepped ih =>
    simp only [calls] at stepped
    split at stepped
    next _ answer ran =>
      cases stepped
      have onKnown (fd : Int) (op : Op S F C) (harmless : ∀ ctx, op.Scheduled label.1 ctx)
          (ran : s.onKnown label.1 fd op = .ok (next, answer)) : (interleaved S F C).Reaches Scheduled next := by
        obtain ⟨found, -, rest⟩ := bind_ok ran
        cases found with
        | none =>
          cases rest
          exact ih
        | some id => exact reaches_onContext ih harmless rest
      obtain ⟨ctl, call⟩ := label
      cases call with
      | addEvent caller fd event cb =>
        have known (ctx : FdContext S F C) : (Op.addEvent caller fd event cb).Scheduled ctl ctx :=
          .inl (scheduled _ _ _ _ rfl)
        obtain ⟨found, -, rest⟩ := bind_ok ran
        cases found with
        | some id => exact reaches_onContext ih known rest
        | none =>
          -- The growth is a section of its own.
          obtain ⟨⟨grown, id⟩, went, rest⟩ := bind_ok rest
          exact reaches_onContext (reaches_grow ih went) known rest
      | delEvent fd event => exact onKnown fd (.delEvent fd event) (fun _ => trivial) ran
      | cancelEvent fd event => exact onKnown fd (.cancelEvent fd event) (fun _ => trivial) ran
      | cancelAll fd => exact onKnown fd (.cancelAll fd) (fun _ => trivial) ran
      | dispatch id reported =>
        have harmless (ctx : FdContext S F C) : (Op.dispatch reported).Scheduled ctl ctx := trivial
        exact reaches_onContext ih harmless ran
    next => cases stepped

def scheduledTest (_ : Registry Unit Nat Nat) : Critical Unit Nat Nat → Bool
  | .onContext _ _ (.addEvent caller _ _ _) => caller.scheduler.isSome
  | _ => true

/-- A fiber and a callback that wait on two descriptors, a growth in between, a
refused cancellation and a report. -/
def fiberThenCallback : List (Critical Unit Nat Nat) :=
  [.onContext (fun _ => true) 3 (.addEvent ⟨some (), 1, true⟩ 3 .read none),
    .grow 40,
    .onContext (fun _ => true) 40 (.addEvent ⟨some (), 1, true⟩ 40 .write (some 7)),
    .onContext (fun _ => false) 40 (.cancelEvent 40 .write),
    .onContext (fun _ => true) 3 (.dispatch EPOLLIN)]

theorem slots_guarded_fiberThenCallback :
    ∃ registry, (interleaved Unit Nat Nat).Reaches Scheduled registry ∧
      registry.contexts[40]?.map (·.slot .write) = some ⟨some (), none, some 7⟩ ∧ registry.Guarded := by
  obtain ⟨registry, reached, test⟩ := System.reaches_test (interleaved Unit Nat Nat) Scheduled scheduledTest
    (fun registry critical passed => by
      cases critical with
      | grow fd => trivial
      | onContext ctl id op =>
        intro ctx _
        cases op with
        | addEvent caller fd event cb => exact .inl passed
        | _ => trivial) .initial rfl fiberThenCallback
    (fun registry => registry.contexts[40]?.map (·.slot .write) = some ⟨some (), none, some 7⟩) (by decide)
  exact ⟨registry, reached, of_decide_eq_true test, slots_guarded reached⟩

/-- A callback registered from a thread without a scheduler is stored without
one, and cancelling it goes through the null pointer. -/
theorem outside_callback_crashes :
    ∃ registry, (calls Unit Nat Nat).Reaches InRange registry ∧ ¬ registry.Guarded ∧
      registry.contexts[3]?.map (fun ctx => (covers ctx.events .read, (ctx.slot .read).scheduler)) = some (true, none) ∧
      registry.cancelEvent (fun _ => true) 3 .read = .error .nullScheduler := by
  obtain ⟨registry, reached, test⟩ := System.reaches_test (calls Unit Nat Nat) InRange inRangeTest
    (fun _ _ passed fd named => by simpa [inRangeTest, named] using passed) .initial rfl
    [(fun _ => true, .addEvent ⟨none, 1, true⟩ 3 .read (some 7))]
    (fun registry =>
      registry.contexts[3]?.map (fun ctx => (covers ctx.events .read, (ctx.slot .read).scheduler)) = some (true, none) ∧
        registry.cancelEvent (fun _ => true) 3 .read = .error .nullScheduler ∧
        registry.within (fun _ => true) 3 (.cancelEvent 3 .read) = .error .nullScheduler) (by decide)
  obtain ⟨slot, crashed, within⟩ := of_decide_eq_true test
  exact ⟨registry, reached, fun guarded => (guarded.faults _ _ _ _ within).2 rfl, slot, crashed⟩

end Registry
end HpsSf.IOManager
