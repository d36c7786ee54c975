import HpsSf.Foundation.Cells
import HpsSf.Foundation.System
import HpsSf.IOManager.Registry
import Mathlib.Data.List.Nodup
import Mathlib.Algebra.Order.Group.Multiset
import Mathlib.Tactic.Abel

/-! Where a registration is while calls and reports interleave.

The machine runs one section at a time, on any context created so far: a call
may hold a context it found long ago, and a report may be stale. Each successful
`addEvent` numbers the fiber or callback it stores, and a history keeps what was
registered, what was handed to a scheduler and what `delEvent` dropped.
-/

set_option autoImplicit false

namespace HpsSf.IOManager
open Foundation
open Scheduler (Task)

variable {S F C : Type}

/-- The scheduler and the content of a slot, numbered. -/
structure Registration (S F C : Type) where
  scheduler : Option S
  task : Option (Task (F × Nat) (C × Nat))
  deriving DecidableEq, Repr

def Registration.number (registration : Registration S F C) : Option Nat :=
  registration.task.map fun task =>
    match task with
    | .fiber f => f.2
    | .cb c => c.2

def EventContext.registration (slot : EventContext S (F × Nat) (C × Nat)) : Registration S F C :=
  ⟨slot.scheduler, slot.content⟩

def Handed.registration (handed : Handed S (F × Nat) (C × Nat)) : Registration S F C :=
  ⟨some handed.scheduler, handed.task⟩

namespace Op

/-- The payload of `addEvent`, numbered. -/
def number (serial : Nat) : Op S F C → Op S (F × Nat) (C × Nat)
  | .addEvent caller fd event cb =>
      .addEvent ⟨caller.scheduler, (caller.fiber, serial), caller.executing⟩ fd event (cb.map fun cb => (cb, serial))
  | .delEvent fd event => .delEvent fd event
  | .cancelEvent fd event => .cancelEvent fd event
  | .cancelAll fd => .cancelAll fd
  | .dispatch reported => .dispatch reported

/-- What the section registers if it succeeds. -/
def registers : Op S (F × Nat) (C × Nat) → List (Registration S F C)
  | .addEvent caller _ _ cb => [(caller.slot cb).registration]
  | _ => []

/-- What the section drops if it succeeds: the content that `resetContext` destroys. -/
def drops (ctx : FdContext S (F × Nat) (C × Nat)) : Op S (F × Nat) (C × Nat) → List (Registration S F C)
  | .delEvent _ event => [(ctx.slot event).registration]
  | _ => []

end Op

structure Ledger (S F C : Type) where
  registry : Registry S (F × Nat) (C × Nat)
  made : List (Registration S F C)
  /-- With the kind of section that handed it over. -/
  handed : List (Kind × Registration S F C)
  dropped : List (Registration S F C)
  deriving DecidableEq, Repr

inductive Critical (S F C : Type) where
  /-- The write-locked section of `addEvent`; overlapping calls may shrink the table. -/
  | grow (fd : Int)
  /-- A section under the mutex of the context at position `id`. -/
  | onContext (ctl : EpollCall → Bool) (id : Nat) (op : Op S F C)

namespace Ledger

def onContext (ledger : Ledger S F C) (ctl : EpollCall → Bool) (id : Nat) (op : Op S (F × Nat) (C × Nat)) :
    Option (Ledger S F C) :=
  match ledger.registry.contexts[id]?, ledger.registry.within ctl id op with
  | some ctx, .ok (registry, answer) =>
      some {
        registry := registry
        made := ledger.made ++ if answer.returned then op.registers else []
        handed := ledger.handed ++ answer.handed.map fun handed => (op.kind, handed.registration)
        dropped := ledger.dropped ++ if answer.returned then op.drops ctx else [] }
  | _, _ => none

def step (ledger : Ledger S F C) : Critical S F C → Option (Ledger S F C)
  | .grow fd =>
      match ledger.registry.grow fd with
      | .ok (registry, _) => some { ledger with registry := registry }
      | .error _ => none
  | .onContext ctl id op => ledger.onContext ctl id (op.number ledger.made.length)

end Ledger

/-- A fault ends the process, so it has no next state. -/
def sections (S F C : Type) : System (Ledger S F C) (Critical S F C) where
  start ledger := ledger = ⟨.initial, [], [], []⟩
  step := Ledger.step

/-! ## One context -/

namespace EventContext

/-- A slot in use holds a fiber or a callback, not both. -/
def Filled (slot : EventContext S F C) : Prop := slot.fiber.isSome ≠ slot.cb.isSome

theorem Filled.emptied {slot : EventContext S F C} (filled : slot.Filled) : slot.emptied = .clear := by
  obtain ⟨scheduler, fiber, cb⟩ := slot
  cases fiber <;> cases cb <;> simp_all [Filled, EventContext.emptied, EventContext.clear]

theorem filled_slot (caller : Caller S F) (cb : Option C) : (caller.slot cb).Filled := by
  cases cb <;> simp [Caller.slot, Filled]

end EventContext

namespace FdContext

/-- A slot is in use exactly when its event is registered. -/
def Sound (ctx : FdContext S F C) : Prop :=
  ∀ event, if covers ctx.events event then (ctx.slot event).Filled else ctx.slot event = .clear

/-- The registrations that a context holds. -/
def held (ctx : FdContext S (F × Nat) (C × Nat)) : List (Registration S F C) :=
  (chosen ctx.events).map fun event => (ctx.slot event).registration

/-- Two contexts that differ in one event, registered in the first only. -/
structure Without (fuller : FdContext S F C) (event : Event) (ctx : FdContext S F C) : Prop where
  registered : covers fuller.events event = true
  events : ∀ other, covers ctx.events other = (covers fuller.events other && other != event)
  slots : ∀ other, other ≠ event → ctx.slot other = fuller.slot other

theorem Without.held {fuller ctx : FdContext S (F × Nat) (C × Nat)} {event : Event}
    (less : fuller.Without event ctx) : fuller.held.Perm ((fuller.slot event).registration :: ctx.held) := by
  have read := less.events .read
  have write := less.events .write
  cases event with
  | none =>
    have registered := less.registered
    simp at registered
  | read =>
    have same := less.slots .write (by decide)
    cases other : covers fuller.events .write <;>
      simp [FdContext.held, chosen, less.registered, read, write, other, same]
  | write =>
    have same := less.slots .read (by decide)
    cases other : covers fuller.events .read
    · simp [FdContext.held, chosen, less.registered, read, write, other]
    · simpa [FdContext.held, chosen, less.registered, read, write, other, same] using List.Perm.swap _ _ []

/-- The context without the event is sound when the slot was cleared. -/
theorem Without.sound {fuller ctx : FdContext S F C} {event : Event} (less : fuller.Without event ctx)
    (sound : fuller.Sound) (cleared : ctx.slot event = .clear) : ctx.Sound := by
  intro other
  have before := sound other
  rw [less.events]
  by_cases same : other = event
  · subst same
    simpa using cleared
  · rw [less.slots other same]
    simpa [same] using before

theorem without_released {ctx : FdContext S F C} {event : Event} (registered : covers ctx.events event = true) :
    ctx.Without event (ctx.released event) := by
  have named : event ≠ .none := by
    rintro rfl
    simp at registered
  refine ⟨registered, fun other => ?_, fun other distinct => ?_⟩
  · rw [released_events, covers_diff, covers_mask]
    by_cases same : other = event
    · simp [same, named]
    · simp [same, Ne.symm same]
  · rw [released_slot ctx named, if_neg distinct]

theorem without_added {ctx : FdContext S F C} {event : Event} (named : event ≠ .none)
    (unregistered : covers ctx.events event = false) (slot : EventContext S F C) :
    ({ ctx with events := ctx.events ||| event.mask }.setContext slot event).Without event ctx := by
  refine ⟨by simp [named], fun other => ?_, fun other distinct => ?_⟩
  · rw [setContext_events, covers_or, covers_mask]
    by_cases same : other = event
    · simp [same, unregistered]
    · simp [same, Ne.symm same]
  · rw [slot_setContext _ _ named, if_neg distinct]
    cases other <;> rfl

theorem without_deleted {ctx : FdContext S F C} {event : Event} (registered : covers ctx.events event = true) :
    ctx.Without event ({ ctx with events := ctx.events &&& ~~~event.mask }.setContext .clear event) ∧
      ({ ctx with events := ctx.events &&& ~~~event.mask }.setContext .clear event).slot event = .clear := by
  have named : event ≠ .none := by
    rintro rfl
    simp at registered
  refine ⟨⟨registered, fun other => ?_, fun other distinct => ?_⟩, ?_⟩
  · rw [setContext_events, covers_diff, covers_mask]
    by_cases same : other = event
    · simp [same, named]
    · simp [same, Ne.symm same]
  · rw [slot_setContext _ _ named, if_neg distinct]
    cases other <;> rfl
  · rw [slot_setContext _ _ named, if_pos rfl]

theorem released_sound {ctx : FdContext S F C} {event : Event} (sound : ctx.Sound)
    (registered : covers ctx.events event = true) : (ctx.released event).Sound := by
  have filled := sound event
  rw [if_pos registered] at filled
  have named : event ≠ .none := by
    rintro rfl
    simp at registered
  exact (without_released registered).sound sound (by rw [released_slot ctx named, if_pos rfl, filled.emptied])

/-- Triggering distinct registered events moves their registrations, and only
them, from the slots to the calls of `schedule`. -/
theorem releasedAll_moves {ctx : FdContext S (F × Nat) (C × Nat)} {events : List Event} (distinct : events.Nodup)
    (sound : ctx.Sound)
    (ready : ∀ event ∈ events, covers ctx.events event = true ∧ (ctx.handover event).isSome = true) :
    (ctx.releasedAll events).Sound ∧
      ctx.held.Perm ((events.filterMap ctx.handover).map Handed.registration ++ (ctx.releasedAll events).held) := by
  induction events generalizing ctx with
  | nil => exact ⟨sound, .refl _⟩
  | cons event rest ih =>
    obtain ⟨absent, distinct⟩ := List.nodup_cons.mp distinct
    obtain ⟨registered, able⟩ := ready event (List.mem_cons_self ..)
    obtain ⟨handed, found⟩ := Option.isSome_iff_exists.mp able
    have named : event ≠ .none := by
      rintro rfl
      simp at registered
    have apart (other : Event) (member : other ∈ rest) : other ≠ event := fun same => absent (same ▸ member)
    have less := without_released registered
    have later (other : Event) (member : other ∈ rest) :
        (ctx.released event).handover other = ctx.handover other := handover_released ctx (apart other member) named
    obtain ⟨soundAfter, moved⟩ := ih distinct (released_sound sound registered) fun other member => by
      have before := ready other (List.mem_cons_of_mem _ member)
      rw [less.events, later other member]
      simpa [apart other member] using before
    refine ⟨soundAfter, ?_⟩
    have own : handed.registration = (ctx.slot event).registration := by
      obtain ⟨scheduler, known, rfl⟩ := Option.map_eq_some_iff.mp found
      simp [Handed.registration, EventContext.registration, known]
    rw [List.filterMap_cons_some found, List.map_cons, own, List.cons_append,
      ← List.filterMap_congr later]
    exact less.held.trans (moved.cons _)

/-- New contexts hold nothing. -/
theorem fresh_idle (numbers : List Nat) :
    (numbers.map fun i : Nat => FdContext.fresh i).flatMap held = ([] : List (Registration S F C)) ∧
      ∀ ctx ∈ numbers.map fun i : Nat => (FdContext.fresh i : FdContext S (F × Nat) (C × Nat)), ctx.Sound := by
  have none (i : Nat) : (FdContext.fresh i : FdContext S (F × Nat) (C × Nat)).held = [] := by
    simp [fresh, held, chosen]
  refine ⟨by simp [List.flatMap_eq_nil_iff, none], fun ctx member event => ?_⟩
  obtain ⟨i, -, rfl⟩ := List.mem_map.mp member
  cases event <;> simp [fresh, slot]

theorem nodup_chosen (mask : Mask) : (chosen mask).Nodup :=
  List.Nodup.filter _ (by decide)

/-- A section keeps the context sound and moves registrations without losing or
doubling any: what it held and registers is what it holds, hands over or drops. -/
theorem Effect.moves {ctx : FdContext S (F × Nat) (C × Nat)} {pending : Nat} {op : Op S (F × Nat) (C × Nat)}
    {out : Section S (F × Nat) (C × Nat) Bool} (effect : ctx.Effect pending op out) (sound : ctx.Sound) :
    out.ctx.Sound ∧ (out.handed = [] ∨ op.kind.consumes = true) ∧
      (out.ctx.held ++ (out.handed.map Handed.registration ++ if out.returned then op.drops ctx else [])).Perm
        (ctx.held ++ if out.returned then op.registers else []) := by
  cases effect with
  | refused => exact ⟨sound, .inl rfl, by simp⟩
  | @added caller fd event cb named unregistered clear =>
    have slots := slot_setContext { ctx with events := ctx.events ||| event.mask } (caller.slot cb) named
    have more := without_added named unregistered (caller.slot cb)
    refine ⟨fun other => ?_, .inl rfl, ?_⟩
    · by_cases same : other = event
      · subst same
        rw [if_pos more.registered, slots, if_pos rfl]
        exact EventContext.filled_slot caller cb
      · have before := sound other
        rw [more.events, more.slots other same] at before
        simpa [same] using before
    · have grown := more.held
      rw [slots, if_pos rfl] at grown
      simpa [Op.registers, Op.drops] using grown.trans (List.perm_append_singleton _ _).symm
  | @deleted fd event registered =>
    obtain ⟨less, cleared⟩ := without_deleted registered
    refine ⟨less.sound sound cleared, .inl rfl, ?_⟩
    simpa [Op.registers, Op.drops] using (List.perm_append_singleton _ _).trans less.held.symm
  | @triggered op mask returned consumes ready =>
    obtain ⟨soundAfter, moved⟩ := releasedAll_moves (nodup_chosen mask) sound ready
    refine ⟨soundAfter, .inr consumes, ?_⟩
    have neither : op.registers = [] ∧ op.drops ctx = [] := by
      cases op <;> first | exact ⟨rfl, rfl⟩ | cases consumes
    simpa [neither] using List.perm_append_comm.trans moved.symm

end FdContext

/-! ## All contexts -/

namespace Ledger

/-- What is registered in any context. -/
def held (ledger : Ledger S F C) : List (Registration S F C) :=
  ledger.registry.contexts.flatMap FdContext.held

/-- Each registration made is in exactly one place, once: in its slot, handed to
its scheduler by a section that consumes, or dropped by `delEvent`. -/
structure Conserved (ledger : Ledger S F C) : Prop where
  places : (ledger.held ++ (ledger.handed.map (·.2) ++ ledger.dropped)).Perm ledger.made
  once : (ledger.held ++ (ledger.handed.map (·.2) ++ ledger.dropped)).Nodup
  consumers : ∀ entry ∈ ledger.handed, entry.1.consumes = true

/-- The invariant. The numbers tell registrations apart. -/
structure Kept (ledger : Ledger S F C) : Prop where
  places : (ledger.held ++ (ledger.handed.map (·.2) ++ ledger.dropped)).Perm ledger.made
  numbers : ledger.made.map Registration.number = (List.range ledger.made.length).map some
  consumers : ∀ entry ∈ ledger.handed, entry.1.consumes = true
  sound : ∀ ctx ∈ ledger.registry.contexts, ctx.Sound

theorem Kept.conserved {ledger : Ledger S F C} (kept : ledger.Kept) : ledger.Conserved := by
  have distinct : (ledger.made.map Registration.number).Nodup := by
    rw [kept.numbers]
    exact List.nodup_range.map (Option.some_injective Nat)
  exact ⟨kept.places, kept.places.nodup_iff.mpr distinct.of_map, kept.consumers⟩

theorem number_registers (op : Op S F C) (serial : Nat) : (op.number serial).registers = [] ∨
    ∃ registration, (op.number serial).registers = [registration] ∧ registration.number = some serial := by
  cases op with
  | addEvent caller fd event cb =>
    refine .inr ⟨_, rfl, ?_⟩
    cases cb <;> rfl
  | _ => exact .inl rfl

theorem onContext_eq_some {ledger next : Ledger S F C} {ctl : EpollCall → Bool} {id : Nat}
    {op : Op S (F × Nat) (C × Nat)} (stepped : ledger.onContext ctl id op = some next) :
    ∃ ctx out, ledger.registry.contexts[id]? = some ctx ∧
      ctx.Effect ledger.registry.pendingEventCount op out ∧
      next.registry.contexts = ledger.registry.contexts.set id out.ctx ∧
      next.made = (ledger.made ++ if out.returned then op.registers else []) ∧
      next.handed = (ledger.handed ++ out.handed.map fun handed => (op.kind, handed.registration)) ∧
      next.dropped = ledger.dropped ++ if out.returned then op.drops ctx else [] := by
  unfold onContext at stepped
  split at stepped
  next ctx registry answer found ran =>
    obtain ⟨same, out, known, effect, rfl, rfl⟩ := Registry.within_ok ran
    cases stepped
    obtain rfl := Option.some.inj (found.symm.trans known)
    exact ⟨ctx, out, found, effect, rfl, rfl, rfl, rfl⟩
  next => cases stepped

/-- The bookkeeping of one section: the rest of the contexts and the history
before it take no part. -/
theorem rearranged {A : Type} {before after ctx out rest handed dropped made given gone new : List A}
    (places : (before ++ (handed ++ dropped)).Perm made) (held : before.Perm (ctx ++ rest))
    (holds : after.Perm (out ++ rest)) (moved : (out ++ (given ++ gone)).Perm (ctx ++ new)) :
    (after ++ (handed ++ given ++ (dropped ++ gone))).Perm (made ++ new) := by
  simp only [← Multiset.coe_eq_coe, ← Multiset.coe_add] at *
  calc (after : Multiset A) + (handed + given + (dropped + gone))
      = out + (given + gone) + rest + (handed + dropped) := by rw [holds]; abel
    _ = ctx + rest + (handed + dropped) + new := by rw [moved]; abel
    _ = made + new := by rw [← held, places]

theorem Kept.onContext {ledger next : Ledger S F C} {ctl : EpollCall → Bool} {id : Nat} {op : Op S F C}
    (kept : ledger.Kept) (stepped : ledger.onContext ctl id (op.number ledger.made.length) = some next) :
    next.Kept := by
  obtain ⟨ctx, out, found, effect, contexts, made, handed, dropped⟩ := onContext_eq_some stepped
  obtain ⟨soundAfter, consumes, moved⟩ := effect.moves (kept.sound ctx (List.mem_of_getElem? found))
  obtain ⟨rest, before, after⟩ := flatMap_set_cell FdContext.held found
  refine ⟨?_, ?_, ?_, ?_⟩
  · have holds : next.held.Perm (out.ctx.held ++ rest) := by
      rw [held, contexts]
      exact after out.ctx
    have given : next.handed.map (·.2) = ledger.handed.map (·.2) ++ out.handed.map Handed.registration := by
      simp [handed]
    rw [given, made, dropped]
    exact rearranged kept.places before holds moved
  · rw [made]
    obtain none | ⟨registration, one, numbered⟩ := number_registers op ledger.made.length
    · simpa [none] using kept.numbers
    · cases out.returned with
      | false => simpa using kept.numbers
      | true => simp [one, numbered, kept.numbers, List.range_succ]
  · rw [handed]
    intro entry member
    obtain old | new := List.mem_append.mp member
    · exact kept.consumers entry old
    · obtain ⟨registration, taken, rfl⟩ := List.mem_map.mp new
      obtain none | consumes := consumes
      · rw [none] at taken
        cases taken
      · exact consumes
  · rw [contexts]
    exact forall_set_cell kept.sound soundAfter

theorem Kept.grow {ledger : Ledger S F C} {registry : Registry S (F × Nat) (C × Nat)} {fd : Int} {id : Nat}
    (kept : ledger.Kept) (grown : ledger.registry.grow fd = .ok (registry, id)) :
    { ledger with registry := registry }.Kept := by
  obtain ⟨table, numbers, -, -, rfl, -⟩ := Registry.grow_ok grown
  obtain ⟨none, sound⟩ := FdContext.fresh_idle (S := S) (F := F) (C := C) numbers
  refine ⟨?_, kept.numbers, kept.consumers, ?_⟩
  · have same := kept.places
    simp only [held, List.flatMap_append, none, List.append_nil] at same ⊢
    exact same
  · intro ctx member
    obtain old | new := List.mem_append.mp member
    · exact kept.sound ctx old
    · exact sound ctx new

theorem kept_initial : (⟨.initial, [], [], []⟩ : Ledger S F C).Kept := by
  obtain ⟨none, sound⟩ := FdContext.fresh_idle (S := S) (F := F) (C := C) (List.range 32)
  exact ⟨by simp only [held, Registry.initial, none]; exact .refl _, rfl, by simp, sound⟩

/-- Whatever the sections, their order and the answers of `epoll_ctl`, no
registration is lost without `delEvent` and none is handed over twice. -/
theorem registrations_conserved {ledger : Ledger S F C}
    (reached : (sections S F C).Reaches (fun _ _ => True) ledger) : ledger.Conserved := by
  refine Kept.conserved (reached.invariant (fun s begins => ?_) fun s label next before _ stepped => ?_)
  · rw [show s = ⟨.initial, [], [], []⟩ from begins]
    exact kept_initial
  · cases label with
    | grow fd =>
      simp only [sections, step] at stepped
      split at stepped
      next registry id grown =>
        cases stepped
        exact before.grow grown
      next => cases stepped
    | onContext ctl id op => exact before.onContext stepped

/-- A fiber that waits for input, a callback that waits for output and is
cancelled in vain, a stale report, and a deletion. -/
def reportThenDelete : List (Critical Unit Nat Nat) :=
  [.onContext (fun _ => true) 3 (.addEvent ⟨some (), 1, true⟩ 3 .read none),
    .onContext (fun _ => true) 3 (.addEvent ⟨some (), 2, true⟩ 3 .write (some 7)),
    .onContext (fun _ => false) 3 (.cancelEvent 3 .write),
    .onContext (fun _ => true) 3 (.dispatch EPOLLIN),
    .onContext (fun _ => true) 3 (.dispatch EPOLLIN),
    .onContext (fun _ => true) 5 (.addEvent ⟨some (), 1, true⟩ 5 .read none),
    .onContext (fun _ => true) 3 (.delEvent 3 .write)]

theorem registrations_conserved_reportThenDelete :
    ∃ ledger, (sections Unit Nat Nat).Reaches (fun _ _ => True) ledger ∧
      ledger.handed = [(.dispatch, ⟨some (), some (.fiber (1, 0))⟩)] ∧
      ledger.dropped = [⟨some (), some (.cb (7, 1))⟩] ∧ ledger.held = [⟨some (), some (.fiber (1, 2))⟩] ∧
      ledger.Conserved := by
  obtain ⟨ledger, reached, test⟩ := System.reaches_test (sections Unit Nat Nat) (fun _ _ => True)
    (fun _ _ => true) (fun _ _ _ => trivial) ⟨.initial, [], [], []⟩ rfl reportThenDelete
    (fun ledger => ledger.handed = [(.dispatch, ⟨some (), some (.fiber (1, 0))⟩)] ∧
      ledger.dropped = [⟨some (), some (.cb (7, 1))⟩] ∧ ledger.held = [⟨some (), some (.fiber (1, 2))⟩])
    (by decide)
  obtain ⟨handed, dropped, held⟩ := of_decide_eq_true test
  exact ⟨ledger, reached, handed, dropped, held, registrations_conserved reached⟩

end Ledger
end HpsSf.IOManager
