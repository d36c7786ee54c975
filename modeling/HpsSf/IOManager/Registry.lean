import HpsSf.IOManager.Dispatch

/-! The contexts of an IO manager, the table that finds them, and the calls on them.

A call finds its context under the lock of the table and then runs one section
under the mutex of that context. What a section can do is said once, as an
effect; counting and conservation are both read off from it.
-/

set_option autoImplicit false

namespace HpsSf.IOManager
open Foundation (incr64 decr64 int32)
open Scheduler (Task)

/-- A resize that shrinks the table leaks the contexts it drops: they stay
reachable through `epoll` and through the pointers that calls hold. -/
structure Registry (S F C : Type) where
  /-- Every context created so far. -/
  contexts : List (FdContext S F C)
  /-- `m_fdContexts`, as positions in `contexts`. -/
  fdContexts : List Nat
  pendingEventCount : Nat
  deriving DecidableEq, Repr

inductive Kind where
  | addEvent | delEvent | cancelEvent | cancelAll | dispatch
  deriving DecidableEq, Repr

/-- The three that hand registrations over. -/
def Kind.consumes : Kind → Bool
  | .cancelEvent | .cancelAll | .dispatch => true
  | .addEvent | .delEvent => false

/-- A section under the mutex of one context. -/
inductive Op (S F C : Type) where
  | addEvent (caller : Caller S F) (fd : Int) (event : Event) (cb : Option C)
  | delEvent (fd : Int) (event : Event)
  | cancelEvent (fd : Int) (event : Event)
  | cancelAll (fd : Int)
  | dispatch (reported : Mask)

def Op.kind {S F C : Type} : Op S F C → Kind
  | .addEvent .. => .addEvent
  | .delEvent .. => .delEvent
  | .cancelEvent .. => .cancelEvent
  | .cancelAll _ => .cancelAll
  | .dispatch _ => .dispatch

/-- What a call on the manager gives back, besides the manager itself. -/
structure Answer (S F C : Type) where
  handed : List (Handed S F C)
  returned : Bool
  deriving DecidableEq, Repr

variable {S F C : Type}

/-- Runs one section. `returned` is whether it took place: `addEvent` gives 0,
the others `true`, and dispatch triggers something. -/
def FdContext.run (ctl : EpollCall → Bool) (ctx : FdContext S F C) (pending : Nat) :
    Op S F C → Except Fault (Section S F C Bool)
  | .addEvent caller fd event cb =>
      (ctx.addEvent ctl pending caller fd event cb).map fun out =>
        ⟨out.ctx, out.pending, out.handed, out.returned == 0⟩
  | .delEvent fd event => ctx.delEvent ctl pending fd event
  | .cancelEvent fd event => ctx.cancelEvent ctl pending fd event
  | .cancelAll fd => ctx.cancelAll ctl pending fd
  | .dispatch reported =>
      (ctx.dispatch ctl pending reported).map fun out =>
        ⟨out.ctx, out.pending, out.handed, !out.handed.isEmpty⟩

namespace Registry

/-- `m_fdContexts.resize((int)size)`, and a new context for every empty place. -/
def contextResize (registry : Registry S F C) (size : Nat) : Except Fault (Registry S F C) :=
  if int32 size < 0 then .error .lengthError
  else
    -- A smaller size drops the pointers behind it; their contexts are not deleted.
    let kept := registry.fdContexts.take (int32 size).toNat
    let created := (List.range' kept.length ((int32 size).toNat - kept.length)).map fun i : Nat => FdContext.fresh i
    .ok { registry with
          contexts := registry.contexts ++ created
          fdContexts := kept ++ List.range' registry.contexts.length created.length }

/-- `m_fdContexts[fd]` -/
def entry (registry : Registry S F C) (fd : Int) : Except Fault Nat :=
  if fd < 0 then .error .outOfBounds
  else
    match registry.fdContexts[fd.toNat]? with
    | some id => .ok id
    | none => .error .outOfBounds

/-- The read-locked lookup of every call; `none` when the table is too short. -/
def locate (registry : Registry S F C) (fd : Int) : Except Fault (Option Nat) :=
  if int32 registry.fdContexts.length > fd then (registry.entry fd).map some else .ok none

/-- The write-locked section of `addEvent`: `contextResize(fd * 1.5)` and the access. -/
def grow (registry : Registry S F C) (fd : Int) : Except Fault (Registry S F C × Nat) := do
  -- `fd * 1.5` is not above `fd` for 0 and 1.
  let registry ← registry.contextResize (fd.toNat * 3 / 2)
  let id ← registry.entry fd
  pure (registry, id)

/-- One section on the context with this position. -/
def within (ctl : EpollCall → Bool) (registry : Registry S F C) (id : Nat) (op : Op S F C) :
    Except Fault (Registry S F C × Answer S F C) :=
  match registry.contexts[id]? with
  | none => .error .outOfBounds
  | some ctx => (ctx.run ctl registry.pendingEventCount op).map fun out =>
      ({ registry with contexts := registry.contexts.set id out.ctx, pendingEventCount := out.pending },
        ⟨out.handed, out.returned⟩)

def addEvent (ctl : EpollCall → Bool) (registry : Registry S F C) (caller : Caller S F) (fd : Int)
    (event : Event) (cb : Option C) : Except Fault (Registry S F C × Answer S F C) := do
  match ← registry.locate fd with
  | some id => registry.within ctl id (.addEvent caller fd event cb)
  | none =>
      let (registry, id) ← registry.grow fd
      registry.within ctl id (.addEvent caller fd event cb)

/-- The calls that give `false` when the table is too short. -/
def onKnown (ctl : EpollCall → Bool) (registry : Registry S F C) (fd : Int) (op : Op S F C) :
    Except Fault (Registry S F C × Answer S F C) := do
  match ← registry.locate fd with
  | some id => registry.within ctl id op
  | none => pure (registry, ⟨[], false⟩)

def delEvent (ctl : EpollCall → Bool) (registry : Registry S F C) (fd : Int) (event : Event) :
    Except Fault (Registry S F C × Answer S F C) :=
  registry.onKnown ctl fd (.delEvent fd event)

def cancelEvent (ctl : EpollCall → Bool) (registry : Registry S F C) (fd : Int) (event : Event) :
    Except Fault (Registry S F C × Answer S F C) :=
  registry.onKnown ctl fd (.cancelEvent fd event)

def cancelAll (ctl : EpollCall → Bool) (registry : Registry S F C) (fd : Int) :
    Except Fault (Registry S F C × Answer S F C) :=
  registry.onKnown ctl fd (.cancelAll fd)

/-- `epoll_wait` reports through the pointer that was registered, not through the table. -/
def dispatch (ctl : EpollCall → Bool) (registry : Registry S F C) (id : Nat) (reported : Mask) :
    Except Fault (Registry S F C × Answer S F C) :=
  registry.within ctl id (.dispatch reported)

/-- The constructor calls `contextResize(32)`. -/
def initial : Registry S F C where
  contexts := (List.range 32).map fun i : Nat => FdContext.fresh i
  fdContexts := List.range 32
  pendingEventCount := 0

theorem contextResize_initial : contextResize (⟨[], [], 0⟩ : Registry S F C) 32 = .ok initial := by
  have size : int32 32 = 32 := by decide
  simp [contextResize, initial, size, List.range_eq_range']

end Registry

/-! ## The effect of a section -/

theorem bind_ok {E A B : Type} {first : Except E A} {rest : A → Except E B} {result : B}
    (ran : (first >>= rest) = .ok result) : ∃ value, first = .ok value ∧ rest value = .ok result := by
  cases first with
  | error fault => cases ran
  | ok value => exact ⟨value, rfl, ran⟩

theorem map_ok {E A B : Type} {first : Except E A} {f : A → B} {result : B}
    (ran : first.map f = .ok result) : ∃ value, first = .ok value ∧ result = f value := by
  cases first with
  | error fault => cases ran
  | ok value => exact ⟨value, rfl, (Except.ok.inj ran).symm⟩

/-- The slot that `addEvent` fills. -/
def Caller.slot (caller : Caller S F) : Option C → EventContext S F C
  | some cb => ⟨caller.scheduler, none, some cb⟩
  | none => ⟨caller.scheduler, some caller.fiber, none⟩

namespace FdContext

/-- Every way for a section to end without a fault. -/
inductive Effect (ctx : FdContext S F C) (pending : Nat) : Op S F C → Section S F C Bool → Prop where
  | refused {op : Op S F C} : Effect ctx pending op ⟨ctx, pending, [], false⟩
  | added {caller : Caller S F} {fd : Int} {event : Event} {cb : Option C} : event ≠ .none →
      covers ctx.events event = false → ctx.slot event = .clear →
      Effect ctx pending (.addEvent caller fd event cb)
        ⟨{ ctx with events := ctx.events ||| event.mask }.setContext (caller.slot cb) event,
          incr64 pending, [], true⟩
  | deleted {fd : Int} {event : Event} : covers ctx.events event = true →
      Effect ctx pending (.delEvent fd event)
        ⟨{ ctx with events := ctx.events &&& ~~~event.mask }.setContext .clear event,
          decr64 pending, [], true⟩
  | triggered {op : Op S F C} {mask : Mask} {returned : Bool} : op.kind.consumes = true →
      (∀ event ∈ chosen mask, covers ctx.events event = true ∧ (ctx.handover event).isSome = true) →
      Effect ctx pending op
        ⟨ctx.releasedAll (chosen mask), decr64^[(chosen mask).length] pending,
          (chosen mask).filterMap ctx.handover, returned⟩

variable {ctl : EpollCall → Bool} {ctx : FdContext S F C} {pending : Nat}

theorem getContext_ok {event : Event} {slot : EventContext S F C} (found : ctx.getContext event = .ok slot) :
    event ≠ .none ∧ slot = ctx.slot event := by
  cases event with
  | none => cases found
  | read => exact ⟨by decide, (Except.ok.inj found).symm⟩
  | write => exact ⟨by decide, (Except.ok.inj found).symm⟩

theorem addEvent_ok {caller : Caller S F} {fd : Int} {event : Event} {cb : Option C}
    {out : Section S F C Int} (ran : ctx.addEvent ctl pending caller fd event cb = .ok out) :
    out = ⟨ctx, pending, [], -1⟩ ∨
      event ≠ .none ∧ covers ctx.events event = false ∧ ctx.slot event = .clear ∧
        out = ⟨{ ctx with events := ctx.events ||| event.mask }.setContext (caller.slot cb) event,
          incr64 pending, [], 0⟩ := by
  unfold addEvent at ran
  split at ran
  next => cases ran
  next unregistered =>
    split at ran
    next =>
      obtain ⟨slot, found, filled⟩ := bind_ok ran
      obtain ⟨named, rfl⟩ := getContext_ok found
      have same : ({ ctx with events := ctx.events ||| event.mask } : FdContext S F C).slot event =
          ctx.slot event := by cases event <;> rfl
      rw [same] at filled
      split at filled
      next => cases filled
      next clear =>
        have empty : ctx.slot event = .clear := by
          cases slot : ctx.slot event
          simpa [slot, EventContext.clear, and_assoc] using clear
        refine .inr ⟨named, by simpa using unregistered, empty, ?_⟩
        cases cb with
        | some cb => exact (Except.ok.inj filled).symm
        | none =>
          simp only at filled
          split at filled
          next => exact (Except.ok.inj filled).symm
          next => cases filled
    next =>
      cases ran
      exact .inl rfl

/-- An accepted registration does not return -1. -/
theorem addEvent_returned {caller : Caller S F} {fd : Int} {event : Event} {cb : Option C}
    {out : Section S F C Int} (accepted : ctl (ctx.addCall fd event) = true)
    (added : ctx.addEvent ctl pending caller fd event cb = .ok out) : out.returned = 0 := by
  unfold addEvent at added
  split at added
  next => cases added
  next =>
    obtain ⟨slot, -, filled⟩ := bind_ok added
    split at filled
    next => cases filled
    next =>
      cases cb with
      | some cb => rw [← Except.ok.inj filled]
      | none =>
        simp only at filled
        split at filled
        next => rw [← Except.ok.inj filled]
        next => cases filled

theorem delEvent_ok {fd : Int} {event : Event} {out : Section S F C Bool}
    (ran : ctx.delEvent ctl pending fd event = .ok out) :
    out = ⟨ctx, pending, [], false⟩ ∨
      covers ctx.events event = true ∧
        out = ⟨{ ctx with events := ctx.events &&& ~~~event.mask }.setContext .clear event,
          decr64 pending, [], true⟩ := by
  unfold delEvent at ran
  split at ran
  next registered =>
    split at ran
    next =>
      obtain ⟨slot, -, cleared⟩ := bind_ok ran
      exact .inr ⟨registered, (Except.ok.inj cleared).symm⟩
    next => exact .inl (Except.ok.inj ran).symm
  next => exact .inl (Except.ok.inj ran).symm

theorem chosen_mask {event : Event} (named : event ≠ .none) : chosen event.mask = [event] := by
  cases event with
  | none => exact absurd rfl named
  | read => decide
  | write => decide

theorem cancelEvent_ok {fd : Int} {event : Event} {out : Section S F C Bool}
    (ran : ctx.cancelEvent ctl pending fd event = .ok out) :
    out = ⟨ctx, pending, [], false⟩ ∨
      (∀ other ∈ chosen event.mask, covers ctx.events other = true ∧ (ctx.handover other).isSome = true) ∧
        out = ⟨ctx.releasedAll (chosen event.mask), decr64^[(chosen event.mask).length] pending,
          (chosen event.mask).filterMap ctx.handover, true⟩ := by
  unfold cancelEvent at ran
  split at ran
  next registered =>
    split at ran
    next =>
      obtain ⟨⟨after, handed⟩, triggered, rest⟩ := bind_ok ran
      obtain ⟨-, found, rfl⟩ := triggerEvent_ok_iff.mp triggered
      have named : event ≠ .none := by
        rintro rfl
        simp at registered
      rw [chosen_mask named]
      refine .inr ⟨by simp [registered, found], ?_⟩
      cases rest
      simp [releasedAll, found]
    next => exact .inl (Except.ok.inj ran).symm
  next => exact .inl (Except.ok.inj ran).symm

/-- The second test of `cancelAll` reads the mask after the first trigger, which
leaves WRITE as it was. -/
theorem cancelAll_ok {fd : Int} {out : Section S F C Bool} (ran : ctx.cancelAll ctl pending fd = .ok out) :
    out = ⟨ctx, pending, [], false⟩ ∨
      (∀ event ∈ chosen ctx.events, covers ctx.events event = true ∧ (ctx.handover event).isSome = true) ∧
        out = ⟨ctx.releasedAll (chosen ctx.events), decr64^[(chosen ctx.events).length] pending,
          (chosen ctx.events).filterMap ctx.handover, true⟩ := by
  unfold cancelAll at ran
  split at ran
  next => exact .inl (Except.ok.inj ran).symm
  next =>
    split at ran
    next =>
      obtain ⟨first, read, ran⟩ := bind_ok ran
      obtain ⟨last, write, ran⟩ := bind_ok ran
      have later : covers first.ctx.events .write = covers ctx.events .write := by
        rw [triggerIf_ok_iff] at read
        split at read
        next =>
          obtain ⟨-, handed, -, rfl⟩ := read
          simp
        next => rw [read]
      have both : triggers ctx.events ctx pending = .ok last := by
        simp only [triggers, read, Bind.bind, Except.bind]
        simpa only [triggerIf, later] using write
      obtain ⟨ready, rfl⟩ := triggers_ok_iff.mp both
      split at ran
      next => exact .inr ⟨ready, (Except.ok.inj ran).symm⟩
      next => cases ran
    next => exact .inl (Except.ok.inj ran).symm

theorem dispatch_ok {reported : Mask} {out : Section S F C Unit}
    (ran : ctx.dispatch ctl pending reported = .ok out) :
    out = ⟨ctx, pending, [], ()⟩ ∨
      (∀ event ∈ chosen (realEvents reported),
        covers ctx.events event = true ∧ (ctx.handover event).isSome = true) ∧
      out = ⟨ctx.releasedAll (chosen (realEvents reported)), decr64^[(chosen (realEvents reported)).length] pending,
        (chosen (realEvents reported)).filterMap ctx.handover, ()⟩ := by
  simp only [dispatch] at ran
  split at ran
  next => exact .inl (Except.ok.inj ran).symm
  next =>
    split at ran
    next => exact .inr (triggers_ok_iff.mp ran)
    next => exact .inl (Except.ok.inj ran).symm

theorem effect_of_run {op : Op S F C} {out : Section S F C Bool} (ran : ctx.run ctl pending op = .ok out) :
    ctx.Effect pending op out := by
  cases op with
  | addEvent caller fd event cb =>
    obtain ⟨result, added, rfl⟩ := map_ok ran
    obtain rfl | ⟨named, unregistered, clear, rfl⟩ := addEvent_ok added
    · exact .refused
    · exact .added named unregistered clear
  | delEvent fd event =>
    obtain rfl | ⟨registered, rfl⟩ := delEvent_ok ran
    · exact .refused
    · exact .deleted registered
  | cancelEvent fd event =>
    obtain rfl | ⟨ready, rfl⟩ := cancelEvent_ok ran
    · exact .refused
    · exact .triggered rfl ready
  | cancelAll fd =>
    obtain rfl | ⟨ready, rfl⟩ := cancelAll_ok ran
    · exact .refused
    · exact .triggered rfl ready
  | dispatch reported =>
    obtain ⟨result, dispatched, rfl⟩ := map_ok ran
    obtain rfl | ⟨ready, rfl⟩ := dispatch_ok dispatched
    · exact .refused
    · exact .triggered rfl ready

theorem releasedAll_fd (ctx : FdContext S F C) (events : List Event) : (ctx.releasedAll events).fd = ctx.fd := by
  induction events generalizing ctx with
  | nil => rfl
  | cons first rest ih => rw [releasedAll, List.foldl_cons, ← releasedAll, ih, released, setContext_fd]

theorem Effect.fd {op : Op S F C} {out : Section S F C Bool} (effect : ctx.Effect pending op out) : out.ctx.fd = ctx.fd := by
  cases effect with
  | refused => rfl
  | added => exact setContext_fd _ _ _
  | deleted => exact setContext_fd _ _ _
  | triggered => exact releasedAll_fd _ _

end FdContext

namespace Registry

theorem within_ran {ctl : EpollCall → Bool} {registry next : Registry S F C} {id : Nat} {op : Op S F C}
    {answer : Answer S F C} (ran : registry.within ctl id op = .ok (next, answer)) :
    ∃ ctx out, registry.contexts[id]? = some ctx ∧ ctx.run ctl registry.pendingEventCount op = .ok out ∧
      next = { registry with contexts := registry.contexts.set id out.ctx, pendingEventCount := out.pending } ∧
      answer = ⟨out.handed, out.returned⟩ := by
  unfold within at ran
  split at ran
  next => cases ran
  next ctx found =>
    obtain ⟨out, went, same⟩ := map_ok ran
    cases same
    exact ⟨ctx, out, found, went, rfl, rfl⟩

theorem within_ok {ctl : EpollCall → Bool} {registry next : Registry S F C} {id : Nat} {op : Op S F C}
    {answer : Answer S F C} (ran : registry.within ctl id op = .ok (next, answer)) :
    ∃ ctx out, registry.contexts[id]? = some ctx ∧ ctx.Effect registry.pendingEventCount op out ∧
      next = { registry with contexts := registry.contexts.set id out.ctx, pendingEventCount := out.pending } ∧
      answer = ⟨out.handed, out.returned⟩ := by
  obtain ⟨ctx, out, found, went, after, given⟩ := within_ran ran
  exact ⟨ctx, out, found, FdContext.effect_of_run went, after, given⟩

theorem contextResize_ok {registry next : Registry S F C} {size : Nat}
    (resized : registry.contextResize size = .ok next) :
    ∃ kept fresh, kept = registry.fdContexts.take (int32 size).toNat ∧
      fresh = List.range' kept.length ((int32 size).toNat - kept.length) ∧
      next = { registry with
        contexts := registry.contexts ++ fresh.map fun i : Nat => FdContext.fresh i
        fdContexts := kept ++ List.range' registry.contexts.length fresh.length } := by
  unfold contextResize at resized
  split at resized
  next => cases resized
  next =>
    cases resized
    exact ⟨_, _, rfl, rfl, by simp⟩

/-- A growth keeps the first entries of the table and adds fresh contexts. -/
theorem grow_ok {registry next : Registry S F C} {fd : Int} {id : Nat} (grown : registry.grow fd = .ok (next, id)) :
    ∃ kept fresh, kept = registry.fdContexts.take (int32 (fd.toNat * 3 / 2)).toNat ∧
      fresh = List.range' kept.length ((int32 (fd.toNat * 3 / 2)).toNat - kept.length) ∧
      next = { registry with
        contexts := registry.contexts ++ fresh.map fun i : Nat => FdContext.fresh i
        fdContexts := kept ++ List.range' registry.contexts.length fresh.length } ∧
      next.entry fd = .ok id := by
  obtain ⟨resized, went, rest⟩ := bind_ok grown
  obtain ⟨found, entered, same⟩ := bind_ok rest
  cases same
  obtain ⟨kept, fresh, first, last, after⟩ := contextResize_ok went
  exact ⟨kept, fresh, first, last, after, entered⟩

end Registry
end HpsSf.IOManager
