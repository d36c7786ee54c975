import HpsSf.IOManager.Pending

/-! The epoll set of the kernel beside the contexts of the manager.

The kernel keeps an interest mask for each descriptor that is registered. Each
call makes at most one `epoll_ctl`, chosen from the mask of the context alone,
and the two levels agree after every call. The read end of the pipe behind
`tickle` is the exception: the constructor registers it without a context.
-/

set_option autoImplicit false

namespace HpsSf.IOManager
open Foundation

variable {S F C : Type}

/-- The interest mask of each descriptor in the epoll set. -/
abbrev Kernel := Int → Option Mask

namespace Kernel

/-- ADD wants a descriptor that is not registered (`EEXIST`), MOD and DEL one that is (`ENOENT`). -/
def admits (kernel : Kernel) (call : EpollCall) : Bool :=
  match call.op with
  | .add => (kernel call.fd).isNone
  | .mod | .del => (kernel call.fd).isSome

/-- The entry that a successful call leaves. -/
def entry (call : EpollCall) : Option Mask :=
  match call.op with
  | .add | .mod => some call.events
  | .del => none

def after (kernel : Kernel) (call : EpollCall) : Kernel := Function.update kernel call.fd (entry call)

/-- The entry for a context with this mask. -/
def mirror (events : Mask) : Option Mask := if events = 0 then none else some (EPOLLET ||| events)

end Kernel

/-- The descriptor that a section is given; dispatch takes that of the context. -/
def Op.fd : Op S F C → Option Int
  | .addEvent _ fd _ _ | .delEvent fd _ | .cancelEvent fd _ | .cancelAll fd => some fd
  | .dispatch _ => none

namespace FdContext

/-- The `epoll_ctl` that a section makes, if it comes to that. -/
def epollCall (ctx : FdContext S F C) : Op S F C → Option EpollCall
  | .addEvent _ fd event _ => if covers ctx.events event then none else some (ctx.addCall fd event)
  | .delEvent fd event | .cancelEvent fd event =>
      if covers ctx.events event then some (ctx.dropCall fd event.mask) else none
  | .cancelAll fd => if ctx.events = 0 then none else some ⟨.del, fd, 0⟩
  | .dispatch reported =>
      if ctx.events &&& realEvents reported = 0 then none else some (ctx.dropCall ctx.fd (realEvents reported))

variable {ctl : EpollCall → Bool} {ctx : FdContext S F C} {pending : Nat} {op : Op S F C}

/-- The ways in which a section comes to an `epoll_ctl`. -/
inductive Makes (ctx : FdContext S F C) : Op S F C → EpollCall → Prop where
  | add {caller : Caller S F} {fd : Int} {event : Event} {cb : Option C} :
      ¬ covers ctx.events event = true → Makes ctx (.addEvent caller fd event cb) (ctx.addCall fd event)
  | del {fd : Int} {event : Event} :
      covers ctx.events event = true → Makes ctx (.delEvent fd event) (ctx.dropCall fd event.mask)
  | cancel {fd : Int} {event : Event} :
      covers ctx.events event = true → Makes ctx (.cancelEvent fd event) (ctx.dropCall fd event.mask)
  | cancelAll {fd : Int} : ctx.events ≠ 0 → Makes ctx (.cancelAll fd) ⟨.del, fd, 0⟩
  | dispatch {reported : Mask} : ctx.events &&& realEvents reported ≠ 0 →
      Makes ctx (.dispatch reported) (ctx.dropCall ctx.fd (realEvents reported))

theorem epollCall_makes {call : EpollCall} (made : ctx.epollCall op = some call) : ctx.Makes op call := by
  cases op with
  | addEvent caller fd event cb =>
    simp only [epollCall] at made
    split at made <;> cases made
    next unregistered => exact .add unregistered
  | delEvent fd event =>
    simp only [epollCall] at made
    split at made <;> cases made
    next registered => exact .del registered
  | cancelEvent fd event =>
    simp only [epollCall] at made
    split at made <;> cases made
    next registered => exact .cancel registered
  | cancelAll fd =>
    simp only [epollCall] at made
    split at made <;> cases made
    next some => exact .cancelAll some
  | dispatch reported =>
    simp only [epollCall] at made
    split at made <;> cases made
    next due => exact .dispatch due

/-- The section reads the answer to this call and to no other. -/
theorem run_congr {other : EpollCall → Bool} (same : ∀ call, ctx.epollCall op = some call → ctl call = other call) :
    ctx.run ctl pending op = ctx.run other pending op := by
  cases op with
  | addEvent caller fd event cb =>
    simp only [run, addEvent]
    by_cases registered : covers ctx.events event
    · simp [registered]
    · simp [registered, same (ctx.addCall fd event) (by simp [epollCall, registered])]
  | delEvent fd event =>
    simp only [run, delEvent]
    by_cases registered : covers ctx.events event
    · simp [registered, same (ctx.dropCall fd event.mask) (by simp [epollCall, registered])]
    · simp [registered]
  | cancelEvent fd event =>
    simp only [run, cancelEvent]
    by_cases registered : covers ctx.events event
    · simp [registered, same (ctx.dropCall fd event.mask) (by simp [epollCall, registered])]
    · simp [registered]
  | cancelAll fd =>
    simp only [run, cancelAll]
    by_cases none : ctx.events = 0
    · simp [none]
    · rw [if_neg none, if_neg none, same ⟨.del, fd, 0⟩ (by rw [epollCall, if_neg none])]
  | dispatch reported =>
    simp only [run, dispatch]
    by_cases none : ctx.events &&& realEvents reported = 0
    · simp [none]
    · rw [if_neg none, if_neg none, same (ctx.dropCall ctx.fd (realEvents reported)) (by rw [epollCall, if_neg none])]

/-- A refused `epoll_ctl` leaves everything as it was and reports failure. -/
theorem run_refused {call : EpollCall} (made : ctx.epollCall op = some call) (refused : ctl call = false) :
    ctx.run ctl pending op = .ok ⟨ctx, pending, [], false⟩ := by
  cases epollCall_makes made with
  | add unregistered => simp [run, addEvent, unregistered, refused, Pure.pure, Except.pure, Except.map]
  | del registered => simp [run, delEvent, registered, refused, Pure.pure, Except.pure]
  | cancel registered => simp [run, cancelEvent, registered, refused, Pure.pure, Except.pure]
  | cancelAll some =>
    rw [run, cancelAll, if_neg some, refused]
    rfl
  | dispatch due =>
    simp only [run, dispatch, if_neg due, refused]
    rfl

/-- Without an `epoll_ctl` there is nothing to do, or an assertion fails. -/
theorem run_idle {out : Section S F C Bool} (none : ctx.epollCall op = none) (ran : ctx.run ctl pending op = .ok out) :
    out = ⟨ctx, pending, [], false⟩ := by
  cases op with
  | addEvent caller fd event cb =>
    simp only [epollCall] at none
    split at none <;> cases none
    next registered =>
      simp [run, addEvent, registered, Except.map] at ran
  | delEvent fd event =>
    simp only [epollCall] at none
    split at none <;> cases none
    next unregistered => simpa [run, delEvent, unregistered, Pure.pure, Except.pure, eq_comm] using ran
  | cancelEvent fd event =>
    simp only [epollCall] at none
    split at none <;> cases none
    next unregistered => simpa [run, cancelEvent, unregistered, Pure.pure, Except.pure, eq_comm] using ran
  | cancelAll fd =>
    simp only [epollCall] at none
    split at none <;> cases none
    next nothing =>
      rw [run, cancelAll, if_pos nothing] at ran
      exact (Except.ok.inj ran).symm
  | dispatch reported =>
    simp only [epollCall] at none
    split at none <;> cases none
    next nothing =>
      simp only [run, dispatch, if_pos nothing] at ran
      exact (Except.ok.inj ran).symm

/-- The call is chosen by whether the context has a mask already. -/
theorem epollCall_op {call : EpollCall} (made : ctx.epollCall op = some call) :
    call.op = .add ↔ ctx.events = 0 := by
  have some_event {event : Event} (registered : covers ctx.events event = true) : ctx.events ≠ 0 := by
    intro none
    simp [none] at registered
  have dropped (fd : Int) (mask : Mask) : (ctx.dropCall fd mask).op ≠ .add := by
    unfold dropCall
    split <;> exact nofun
  cases epollCall_makes made with
  | add unregistered =>
    by_cases none : ctx.events = 0
    · exact iff_of_true (by rw [addCall, if_pos none]) none
    · exact iff_of_false (by rw [addCall, if_neg none]; exact nofun) none
  | del registered => exact iff_of_false (dropped _ _) (some_event registered)
  | cancel registered => exact iff_of_false (dropped _ _) (some_event registered)
  | cancelAll some => exact iff_of_false nofun some
  | dispatch due =>
    refine iff_of_false (dropped _ _) fun none => due ?_
    rw [none]
    exact BitVec.zero_and

/-- The descriptor of the call. -/
theorem epollCall_fd {call : EpollCall} (made : ctx.epollCall op = some call) :
    call.fd = op.fd.getD ctx.fd := by
  cases epollCall_makes made <;> rfl

/-- Triggering what is chosen takes the whole mask of the report away. -/
theorem releasedAll_realEvents (ctx : FdContext S F C) (reported : Mask) :
    (ctx.releasedAll (chosen (realEvents reported))).events = ctx.events &&& ~~~realEvents reported := by
  obtain ⟨read, write, same⟩ := realEvents_eq reported
  rw [same]
  cases read <;> cases write
  · exact BitVec.and_allOnes.symm
  · exact released_events ctx .write
  · exact released_events ctx .read
  · rw [show chosen _ = [.read, .write] by decide, releasedAll, List.foldl_cons, List.foldl_cons, List.foldl_nil,
      released_events, released_events, BitVec.and_assoc]
    rfl

/-- After an accepted call the entry of the kernel mirrors the new mask. -/
theorem run_accepted {call : EpollCall} {out : Section S F C Bool} (made : ctx.epollCall op = some call)
    (accepted : ctl call = true) (ran : ctx.run ctl pending op = .ok out) :
    Kernel.entry call = Kernel.mirror out.ctx.events := by
  have dropped (fd : Int) (mask : Mask) :
      Kernel.entry (ctx.dropCall fd mask) = Kernel.mirror (ctx.events &&& ~~~mask) := by
    by_cases none : ctx.events &&& ~~~mask = 0
    · rw [Kernel.entry, dropCall, if_pos none, Kernel.mirror, if_pos none]
    · rw [Kernel.entry, dropCall, if_neg none, Kernel.mirror, if_neg none]
  cases epollCall_makes made with
  | @add caller fd event cb unregistered =>
    obtain ⟨result, added, rfl⟩ := map_ok ran
    obtain rfl | ⟨named, unregistered, -, rfl⟩ := addEvent_ok added
    · exact nomatch (addEvent_returned accepted added : (-1 : Int) = 0)
    · have some : ctx.events ||| event.mask ≠ 0 := by
        intro none
        have registered : covers (ctx.events ||| event.mask) event = true := by simp [named]
        simp [none] at registered
      rw [setContext_events, Kernel.mirror, if_neg some, ← BitVec.or_assoc]
      by_cases none : ctx.events = 0
      · rw [Kernel.entry, addCall, if_pos none]
      · rw [Kernel.entry, addCall, if_neg none]
  | del registered =>
    rw [run, delEvent, if_pos registered, if_pos accepted] at ran
    obtain ⟨slot, -, cleared⟩ := bind_ok ran
    rw [dropped, ← Except.ok.inj cleared, setContext_events]
  | cancel registered =>
    rw [run, cancelEvent, if_pos registered, if_pos accepted] at ran
    obtain ⟨⟨after, handed⟩, triggered, rest⟩ := bind_ok ran
    obtain ⟨-, -, rfl⟩ := triggerEvent_ok_iff.mp triggered
    rw [dropped, ← Except.ok.inj rest, released_events]
  | cancelAll some =>
    rw [run, cancelAll, if_neg some, if_pos accepted] at ran
    obtain ⟨first, -, ran⟩ := bind_ok ran
    obtain ⟨last, -, ran⟩ := bind_ok ran
    split at ran
    next none =>
      rw [← Except.ok.inj ran]
      exact (if_pos none).symm
    next => cases ran
  | dispatch due =>
    obtain ⟨result, dispatched, rfl⟩ := map_ok ran
    simp only [dispatch, if_neg due, accepted] at dispatched
    obtain ⟨-, rfl⟩ := triggers_ok_iff.mp dispatched
    rw [dropped, releasedAll_realEvents]

theorem mask_plain (event : Event) : event.mask &&& EPOLLET = 0 := by cases event <;> decide

section Plain

variable {rest : Mask}

theorem plain_releasedAll {ctx : FdContext S F C} (plain : ctx.events &&& rest = 0) (events : List Event) :
    (ctx.releasedAll events).events &&& rest = 0 := by
  induction events generalizing ctx with
  | nil => exact plain
  | cons first later ih =>
    rw [releasedAll, List.foldl_cons, ← releasedAll]
    refine ih ?_
    rw [released_events, BitVec.and_assoc, BitVec.and_comm (~~~first.mask), ← BitVec.and_assoc, plain]
    exact BitVec.zero_and

/-- A mask gets no bits but those of the events. -/
theorem Effect.plain {out : Section S F C Bool} (effect : ctx.Effect pending op out)
    (apart : ∀ event : Event, event.mask &&& rest = 0) (plain : ctx.events &&& rest = 0) : out.ctx.events &&& rest = 0 := by
  cases effect with
  | refused => exact plain
  | @added caller fd event cb named =>
    rw [setContext_events, BitVec.and_or_distrib_right, plain, apart event]
    exact BitVec.zero_or
  | deleted registered =>
    rw [setContext_events, BitVec.and_assoc, BitVec.and_comm (~~~_), ← BitVec.and_assoc, plain]
    exact BitVec.zero_and
  | triggered => exact plain_releasedAll plain _

end Plain

end FdContext

/-! ## Calls -/

def Call.op : Call S F C → Op S F C
  | .addEvent caller fd event cb => .addEvent caller fd event cb
  | .delEvent fd event => .delEvent fd event
  | .cancelEvent fd event => .cancelEvent fd event
  | .cancelAll fd => .cancelAll fd
  | .dispatch _ reported => .dispatch reported

/-- The part of a call before it locks a context, if it finds one. -/
def Call.finds (registry : Registry S F C) : Call S F C → Except Fault (Registry S F C × Option Nat)
  | .addEvent _ fd _ _ => do
      match ← registry.locate fd with
      | some id => pure (registry, some id)
      | none =>
          let (registry, id) ← registry.grow fd
          pure (registry, some id)
  | .delEvent fd _ | .cancelEvent fd _ | .cancelAll fd => do
      let found ← registry.locate fd
      pure (registry, found)
  | .dispatch id _ => pure (registry, some id)

theorem Call.on_eq (ctl : EpollCall → Bool) (registry : Registry S F C) (call : Call S F C) :
    call.on ctl registry = call.finds registry >>= fun found =>
      match found.2 with
      | some id => found.1.within ctl id call.op
      | none => pure (found.1, ⟨[], false⟩) := by
  have onKnown (fd : Int) (op : Op S F C) : registry.onKnown ctl fd op =
      (registry.locate fd >>= fun found => pure (registry, found)) >>= fun found : Registry S F C × Option Nat =>
        match found.2 with
        | some id => found.1.within ctl id op
        | none => pure (found.1, ⟨[], false⟩) := by
    unfold Registry.onKnown
    cases registry.locate fd with
    | error fault => rfl
    | ok found => cases found <;> rfl
  cases call with
  | addEvent caller fd event cb =>
    simp only [on, Registry.addEvent, finds]
    cases registry.locate fd with
    | error fault => rfl
    | ok found =>
      cases found with
      | some id => rfl
      | none =>
        cases registry.grow fd with
        | error fault => rfl
        | ok grown => rfl
  | delEvent fd event => exact onKnown fd (.delEvent fd event)
  | cancelEvent fd event => exact onKnown fd (.cancelEvent fd event)
  | cancelAll fd => exact onKnown fd (.cancelAll fd)
  | dispatch id reported => rfl

/-- The `epoll_ctl` of a call. -/
def Call.epollCall (registry : Registry S F C) (call : Call S F C) : Option EpollCall :=
  match call.finds registry with
  | .ok (found, some id) => (found.contexts[id]?).bind fun ctx => ctx.epollCall call.op
  | _ => none

namespace Registry

/-- `*m_fdContexts[fd]`; a descriptor behind the end of the table gets a fresh context. -/
def context (registry : Registry S F C) (fd : Int) : FdContext S F C :=
  if fd < 0 then .fresh fd
  else ((registry.fdContexts[fd.toNat]?).bind fun id => registry.contexts[id]?).getD (.fresh fd)

theorem Whole.context_eq {registry : Registry S F C} (whole : registry.Whole) (fd : Int) :
    registry.context fd = if fd < 0 then .fresh fd else (registry.contexts[fd.toNat]?).getD (.fresh fd) := by
  unfold context
  rw [whole.table]
  by_cases inside : fd.toNat < registry.contexts.length
  · rw [List.getElem?_range inside, Option.bind_some]
  · rw [List.getElem?_eq_none (by simpa using inside), List.getElem?_eq_none (by omega), Option.bind_none]

theorem Whole.context_of_place {registry : Registry S F C} (whole : registry.Whole) {id : Nat} {ctx : FdContext S F C}
    (found : registry.contexts[id]? = some ctx) : registry.context id = ctx := by
  rw [whole.context_eq, if_neg (by omega), Int.toNat_natCast, found, Option.getD_some]

/-- A section replaces the context of one descriptor. -/
theorem Whole.context_set {registry : Registry S F C} (whole : registry.Whole) {id : Nat}
    (inside : id < registry.contexts.length) (ctx : FdContext S F C) (pending : Nat) :
    ({ registry with contexts := registry.contexts.set id ctx, pendingEventCount := pending } :
      Registry S F C).context = Function.update registry.context (id : Int) ctx := by
  funext fd
  have after : ({ registry with contexts := registry.contexts.set id ctx, pendingEventCount := pending } :
      Registry S F C).Whole := ⟨by simpa using whole.table, by simpa using whole.small⟩
  rw [after.context_eq, Function.update_apply, whole.context_eq]
  by_cases same : fd = id
  · subst same
    rw [if_neg (by omega), if_pos rfl, Int.toNat_natCast, List.getElem?_set_self inside, Option.getD_some]
  · rw [if_neg same]
    by_cases negative : fd < 0
    · rw [if_pos negative, if_pos negative]
    · rw [if_neg negative, if_neg negative, List.getElem?_set_ne (by omega)]

/-- New contexts are what the descriptors had before. -/
theorem Whole.context_grow {registry next : Registry S F C} (whole : registry.Whole) (grown : next.Whole) {more : Nat}
    (contexts : next.contexts = registry.contexts ++
      (List.range' registry.contexts.length more).map fun i : Nat => FdContext.fresh i) :
    next.context = registry.context := by
  funext fd
  rw [grown.context_eq, whole.context_eq, contexts]
  by_cases negative : fd < 0
  · rw [if_pos negative, if_pos negative]
  rw [if_neg negative, if_neg negative, List.getElem?_append]
  split
  next => rfl
  next beyond =>
    rw [List.getElem?_eq_none (by omega : registry.contexts.length ≤ fd.toNat), Option.getD_none, List.getElem?_map]
    by_cases inside : fd.toNat - registry.contexts.length < more
    · rw [List.getElem?_range' inside, Option.map_some, Option.getD_some]
      congr 1
      omega
    · rw [List.getElem?_eq_none (by simpa using inside), Option.map_none, Option.getD_none]

end Registry

/-- Finding a context, also in a table that has to grow, changes no context. -/
theorem Call.finds_ok {registry found : Registry S F C} {call : Call S F C} {place : Option Nat}
    (whole : registry.Whole) (range : ∀ fd, call.fd = some fd → 0 ≤ fd ∧ fd < 2 ^ 30)
    (finds : call.finds registry = .ok (found, place)) :
    found.Whole ∧ found.context = registry.context ∧ found.pendingEventCount = registry.pendingEventCount ∧
      ∀ id fd, place = some id → call.fd = some fd → (id : Int) = fd := by
  have known (fd : Int) (named : call.fd = some fd)
      (finds : (registry.locate fd >>= fun located => pure (registry, located)) = Except.ok (found, place)) :
      found.Whole ∧ found.context = registry.context ∧ found.pendingEventCount = registry.pendingEventCount ∧
        ∀ id fd, place = some id → call.fd = some fd → (id : Int) = fd := by
    obtain ⟨located, at_fd, same⟩ := bind_ok finds
    cases same
    refine ⟨whole, rfl, rfl, fun id other here also => ?_⟩
    cases named.symm.trans also
    exact (whole.locate_ok (here ▸ at_fd)).1
  cases call with
  | addEvent caller fd event cb =>
    obtain ⟨located, at_fd, rest⟩ := bind_ok finds
    cases located with
    | some id => exact known fd rfl (by rw [at_fd]; exact rest)
    | none =>
      obtain ⟨⟨grown, id⟩, went, same⟩ := bind_ok rest
      cases same
      obtain ⟨after, here, -, pending, more, contexts⟩ := whole.grow_ok (range fd rfl) at_fd went
      refine ⟨after, whole.context_grow after contexts, pending, fun other fd' same named => ?_⟩
      cases same
      cases named
      exact here
  | delEvent fd event => exact known fd rfl finds
  | cancelEvent fd event => exact known fd rfl finds
  | cancelAll fd => exact known fd rfl finds
  | dispatch id reported =>
    cases finds
    exact ⟨whole, rfl, rfl, nofun⟩

theorem Call.op_fd (call : Call S F C) : call.op.fd = call.fd := by
  cases call <;> rfl

/-! ## Both levels -/

structure Polled (S F C : Type) where
  registry : Registry S F C
  kernel : Kernel

namespace Polled

/-- How `epoll_ctl` answers: `accepts` stands for every other reason to fail. -/
def ctl (s : Polled S F C) (accepts : EpollCall → Bool) (call : EpollCall) : Bool :=
  s.kernel.admits call && accepts call

def step (s : Polled S F C) (label : (EpollCall → Bool) × Call S F C) : Option (Polled S F C) :=
  match label.2.on (s.ctl label.1) s.registry with
  | .error _ => none
  | .ok (registry, _) =>
      some ⟨registry,
        match label.2.epollCall s.registry with
        | some call => if s.ctl label.1 call then s.kernel.after call else s.kernel
        | none => s.kernel⟩

end Polled

/-- Calls one after another. `tickle` is the read end of the pipe, which the
constructor adds to the epoll set. -/
def polled (S F C : Type) (tickle : Int) : System (Polled S F C) ((EpollCall → Bool) × Call S F C) where
  start s := s = ⟨.initial, fun fd => if fd = tickle then some (EPOLLIN ||| EPOLLET) else none⟩
  step := Polled.step

namespace Polled

/-- The invariant. -/
structure Mirrored (tickle : Int) (s : Polled S F C) : Prop where
  whole : s.registry.Whole
  numbered : ∀ fd, (s.registry.context fd).fd = fd
  plain : ∀ fd, (s.registry.context fd).events &&& EPOLLET = 0
  kernel : ∀ fd, fd ≠ tickle → s.kernel fd = Kernel.mirror (s.registry.context fd).events
  pipe : s.kernel tickle = some (EPOLLIN ||| EPOLLET)
  idle : (s.registry.context tickle).events = 0

/-- A context that is replaced by itself. -/
theorem Mirrored.same {tickle : Int} {s next : Polled S F C} (mirrored : s.Mirrored tickle)
    (whole : next.registry.Whole) (contexts : next.registry.context = s.registry.context)
    (kernel : next.kernel = s.kernel) : next.Mirrored tickle where
  whole := whole
  numbered := by rw [contexts]; exact mirrored.numbered
  plain := by rw [contexts]; exact mirrored.plain
  kernel := by rw [contexts, kernel]; exact mirrored.kernel
  pipe := by rw [kernel]; exact mirrored.pipe
  idle := by rw [contexts]; exact mirrored.idle

/-- One context and its entry in the kernel change together. -/
theorem Mirrored.update {tickle : Int} {s next : Polled S F C} {id : Int} {ctx : FdContext S F C} {made : EpollCall}
    (mirrored : s.Mirrored tickle) (whole : next.registry.Whole)
    (contexts : next.registry.context = Function.update s.registry.context id ctx)
    (kernel : next.kernel = s.kernel.after made) (here : made.fd = id) (other : id ≠ tickle)
    (entry : Kernel.entry made = Kernel.mirror ctx.events) (numbered : ctx.fd = id)
    (plain : ctx.events &&& EPOLLET = 0) : next.Mirrored tickle where
  whole := whole
  numbered fd := by
    rw [contexts, Function.update_apply]
    split
    next same => rw [same, numbered]
    next => exact mirrored.numbered fd
  plain fd := by
    rw [contexts, Function.update_apply]
    split
    next => exact plain
    next => exact mirrored.plain fd
  kernel fd outside := by
    rw [contexts, kernel, Kernel.after, here, entry, Function.update_apply, Function.update_apply]
    split
    next => rfl
    next => exact mirrored.kernel fd outside
  pipe := by rw [kernel, Kernel.after, here, Function.update_of_ne other.symm, mirrored.pipe]
  idle := by rw [contexts, Function.update_of_ne other.symm, mirrored.idle]

/-- The `epoll_ctl` of a call names the descriptor of the context it works on. -/
theorem Mirrored.place {tickle : Int} {s : Polled S F C} {call : Call S F C} {made : EpollCall}
    {found : Registry S F C} {id : Nat} {ctx : FdContext S F C}
    (mirrored : s.Mirrored tickle) (range : ∀ fd, call.fd = some fd → 0 ≤ fd ∧ fd < 2 ^ 30)
    (finds : call.finds s.registry = .ok (found, some id)) (at_id : found.contexts[id]? = some ctx)
    (chosen : ctx.epollCall call.op = some made) : made.fd = id ∧ s.registry.context id = ctx := by
  obtain ⟨whole, contexts, -, here⟩ := call.finds_ok mirrored.whole range finds
  have same : s.registry.context id = ctx := by rw [← contexts, whole.context_of_place at_id]
  refine ⟨?_, same⟩
  rw [FdContext.epollCall_fd chosen, Call.op_fd]
  cases named : call.fd with
  | some fd => exact (here id fd rfl named).symm
  | none =>
    rw [Option.getD_none, ← same]
    exact mirrored.numbered id

theorem epollCall_ok {registry : Registry S F C} {call : Call S F C} {made : EpollCall}
    (calls : call.epollCall registry = some made) :
    ∃ found id ctx, call.finds registry = .ok (found, some id) ∧ found.contexts[id]? = some ctx ∧
      ctx.epollCall call.op = some made := by
  unfold Call.epollCall at calls
  split at calls
  next found id finds =>
    obtain ⟨ctx, place, chosen⟩ := Option.bind_eq_some_iff.mp calls
    exact ⟨found, id, ctx, finds, place, chosen⟩
  next => cases calls

/-- The op is right for every descriptor but that of the pipe, and for that one
the call is refused. -/
theorem Mirrored.admits_iff {tickle : Int} {s : Polled S F C} {call : Call S F C} {made : EpollCall}
    (mirrored : s.Mirrored tickle) (range : ∀ fd, call.fd = some fd → 0 ≤ fd ∧ fd < 2 ^ 30)
    (calls : call.epollCall s.registry = some made) : s.kernel.admits made = true ↔ made.fd ≠ tickle := by
  obtain ⟨found, id, ctx, finds, place, chosen⟩ := epollCall_ok calls
  obtain ⟨here, same⟩ := mirrored.place range finds place chosen
  have op := FdContext.epollCall_op chosen
  have isSome (fd : Int) (other : fd ≠ tickle) :
      (s.kernel fd).isSome = true ↔ (s.registry.context fd).events ≠ 0 := by
    rw [mirrored.kernel fd other, Kernel.mirror]
    split
    next none => simp [none]
    next some => simpa using some
  by_cases pipe : made.fd = tickle
  · have adds : made.op = .add := op.mpr (by rw [← same, ← here, pipe]; exact mirrored.idle)
    simp [Kernel.admits, adds, pipe, mirrored.pipe]
  · refine iff_of_true ?_ pipe
    have known := isSome made.fd pipe
    rw [here, same] at known
    cases chosen : made.op with
    | add =>
      simp only [Kernel.admits, chosen, here, Option.isNone_iff_eq_none]
      simpa [op.mp chosen] using known
    | mod =>
      simp only [Kernel.admits, chosen, here]
      exact known.mpr fun none => nomatch chosen.symm.trans (op.mpr none)
    | del =>
      simp only [Kernel.admits, chosen, here]
      exact known.mpr fun none => nomatch chosen.symm.trans (op.mpr none)

/-- A refused call leaves every context, the counter and the kernel as they were. -/
theorem Mirrored.refused {tickle : Int} {s : Polled S F C} {call : Call S F C} {made : EpollCall}
    (mirrored : s.Mirrored tickle) (range : ∀ fd, call.fd = some fd → 0 ≤ fd ∧ fd < 2 ^ 30)
    (calls : call.epollCall s.registry = some made) {accepts : EpollCall → Bool}
    (refuses : s.ctl accepts made = false) :
    ∃ registry, call.on (s.ctl accepts) s.registry = .ok (registry, ⟨[], false⟩) ∧
      s.step (accepts, call) = some ⟨registry, s.kernel⟩ ∧
      registry.context = s.registry.context ∧ registry.pendingEventCount = s.registry.pendingEventCount := by
  obtain ⟨found, id, ctx, finds, place, chosen⟩ := epollCall_ok calls
  obtain ⟨-, contexts, pending, -⟩ := call.finds_ok mirrored.whole range finds
  obtain ⟨inside, rfl⟩ := List.getElem?_eq_some_iff.mp place
  have within : found.within (s.ctl accepts) id call.op = .ok (found, ⟨[], false⟩) := by
    rw [Registry.within, place]
    simp only [FdContext.run_refused chosen refuses]
    simp [Except.map]
  have on : call.on (s.ctl accepts) s.registry = .ok (found, ⟨[], false⟩) := by
    rw [Call.on_eq, finds]
    exact within
  refine ⟨found, on, ?_, contexts, pending⟩
  rw [step]
  simp [on, calls, refuses]

theorem Mirrored.step {tickle : Int} {s next : Polled S F C} {accepts : EpollCall → Bool} {call : Call S F C}
    (mirrored : s.Mirrored tickle) (range : ∀ fd, call.fd = some fd → 0 ≤ fd ∧ fd < 2 ^ 30)
    (stepped : s.step (accepts, call) = some next) : next.Mirrored tickle := by
  unfold Polled.step at stepped
  split at stepped
  next => cases stepped
  next registry answer ran =>
    rw [Call.on_eq] at ran
    obtain ⟨⟨found, place⟩, finds, rest⟩ := bind_ok ran
    obtain ⟨whole, contexts, -, -⟩ := call.finds_ok mirrored.whole range finds
    cases place with
    | none =>
      -- The table is too short for the descriptor.
      have none : call.epollCall s.registry = none := by rw [Call.epollCall, finds]
      cases rest
      simp only [none] at stepped
      cases stepped
      exact mirrored.same whole contexts rfl
    | some id =>
      obtain ⟨ctx, out, at_id, went, rfl, -⟩ := Registry.within_ran rest
      have inside := (List.getElem?_eq_some_iff.mp at_id).1
      have calls : call.epollCall s.registry = ctx.epollCall call.op := by
        rw [Call.epollCall, finds]
        simp only [at_id, Option.bind_some]
      have wholeAfter : ({ found with
          contexts := found.contexts.set id out.ctx, pendingEventCount := out.pending } : Registry S F C).Whole :=
        ⟨by simpa using whole.table, by simpa using whole.small⟩
      have after := whole.context_set inside out.ctx out.pending
      have before : s.registry.context id = ctx := by rw [← contexts, whole.context_of_place at_id]
      -- Without an accepted call the context is replaced by itself.
      have unchanged (same : out.ctx = ctx) : Function.update found.context (id : Int) out.ctx = s.registry.context := by
        rw [contexts, same, ← before, Function.update_eq_self]
      cases made : ctx.epollCall call.op with
      | none =>
        rw [calls, made] at stepped
        cases stepped
        rw [FdContext.run_idle made went] at after unchanged wholeAfter ⊢
        exact mirrored.same wholeAfter (after.trans (unchanged rfl)) rfl
      | some ctlCall =>
        rw [calls, made] at stepped
        cases answer : s.ctl accepts ctlCall with
        | false =>
          simp only [answer] at stepped
          cases stepped
          obtain rfl := Except.ok.inj ((FdContext.run_refused made answer).symm.trans went)
          exact mirrored.same wholeAfter (after.trans (unchanged rfl)) rfl
        | true =>
          simp only [answer, if_true] at stepped
          cases stepped
          obtain ⟨admitted, -⟩ := Bool.and_eq_true_iff.mp answer
          obtain ⟨here, -⟩ := mirrored.place range finds at_id made
          have other := (mirrored.admits_iff range (calls.trans made)).mp admitted
          have effect := FdContext.effect_of_run went
          refine mirrored.update wholeAfter (after.trans (by rw [contexts])) rfl here (here ▸ other)
            (FdContext.run_accepted made answer went) ?_ (effect.plain FdContext.mask_plain ?_)
          · rw [effect.fd, ← before, mirrored.numbered]
          · rw [← before, mirrored.plain]

theorem mirrored_start (tickle : Int) : (⟨.initial, fun fd => if fd = tickle then some (EPOLLIN ||| EPOLLET) else none⟩ :
    Polled S F C).Mirrored tickle := by
  have whole : (Registry.initial : Registry S F C).Whole := Registry.counted_initial.toWhole
  have fresh (fd : Int) : (Registry.initial : Registry S F C).context fd = .fresh fd := by
    rw [whole.context_eq]
    split
    next => rfl
    next nonnegative =>
      rw [Registry.initial]
      by_cases inside : fd.toNat < 32
      · rw [List.getElem?_map, List.getElem?_range inside, Option.map_some, Option.getD_some]
        congr 1
        omega
      · rw [List.getElem?_eq_none (by rw [List.length_map, List.length_range]; omega), Option.getD_none]
  refine ⟨whole, fun fd => ?_, fun fd => ?_, fun fd other => ?_, if_pos rfl, ?_⟩
  · rw [fresh, FdContext.fresh]
  · rw [fresh]
    exact BitVec.zero_and
  · rw [fresh]
    exact if_neg other
  · rw [fresh, FdContext.fresh]

/-- The two levels between calls: the kernel holds the mask of every descriptor
but that of the pipe, so no call is answered with `EEXIST` or `ENOENT`, and a
call whose `epoll_ctl` fails changes nothing on either level. -/
structure Agrees (tickle : Int) (s : Polled S F C) : Prop where
  masks : ∀ fd, fd ≠ tickle → (s.kernel fd).map (· &&& ~~~EPOLLET) =
    if (s.registry.context fd).events = 0 then none else some (s.registry.context fd).events
  pipe : s.kernel tickle = some (EPOLLIN ||| EPOLLET) ∧ (s.registry.context tickle).events = 0
  right : ∀ accepts call made, InRange s.registry (accepts, call) → call.epollCall s.registry = some made →
    made.fd ≠ tickle → s.kernel.admits made = true
  refused : ∀ accepts call made, InRange s.registry (accepts, call) → call.epollCall s.registry = some made →
    s.ctl accepts made = false → ∃ registry, call.on (s.ctl accepts) s.registry = .ok (registry, ⟨[], false⟩) ∧
      s.step (accepts, call) = some ⟨registry, s.kernel⟩ ∧
      registry.context = s.registry.context ∧ registry.pendingEventCount = s.registry.pendingEventCount

theorem Mirrored.agrees {tickle : Int} {s : Polled S F C} (mirrored : s.Mirrored tickle) : s.Agrees tickle where
  masks fd other := by
    have plain := mirrored.plain fd
    rw [mirrored.kernel fd other, Kernel.mirror]
    split
    next => rfl
    next =>
      rw [Option.map_some, BitVec.and_or_distrib_right]
      congr 1
      rw [show EPOLLET &&& ~~~EPOLLET = 0#32 by decide, BitVec.zero_or]
      calc (s.registry.context fd).events &&& ~~~EPOLLET
          = (s.registry.context fd).events &&& EPOLLET ||| (s.registry.context fd).events &&& ~~~EPOLLET := by
            rw [plain]; exact BitVec.zero_or.symm
        _ = (s.registry.context fd).events &&& (EPOLLET ||| ~~~EPOLLET) := BitVec.and_or_distrib_left.symm
        _ = (s.registry.context fd).events := by
            rw [show EPOLLET ||| ~~~EPOLLET = BitVec.allOnes 32 by decide, BitVec.and_allOnes]
  pipe := ⟨mirrored.pipe, mirrored.idle⟩
  right accepts call made range calls other := (mirrored.admits_iff range calls).mpr other
  refused accepts call made range calls refuses := mirrored.refused range calls refuses

/-- After any sequence of calls, and whatever `epoll_ctl` answers. -/
theorem kernel_agrees {tickle : Int} {s : Polled S F C}
    (reached : (polled S F C tickle).Reaches (fun s label => InRange s.registry label) s) : s.Agrees tickle := by
  refine Mirrored.agrees (reached.invariant (fun s begins => ?_) fun s label next before range stepped => ?_)
  · rw [show s = _ from begins]
    exact mirrored_start tickle
  · exact before.step range stepped

/-- Two events of one descriptor, one report, a refused deletion and a growth. -/
def readThenReport : List ((EpollCall → Bool) × Call Unit Nat Nat) :=
  [(fun _ => true, .addEvent ⟨some (), 1, true⟩ 3 .read none),
    (fun _ => true, .addEvent ⟨some (), 2, true⟩ 3 .write (some 7)),
    (fun _ => true, .dispatch 3 EPOLLIN),
    (fun _ => false, .delEvent 3 .write),
    (fun _ => true, .addEvent ⟨some (), 1, true⟩ 40 .read none)]

theorem kernel_agrees_readThenReport :
    ∃ s, (polled Unit Nat Nat 5).Reaches (fun s label => InRange s.registry label) s ∧
      s.kernel 3 = some (EPOLLET ||| Event.write.mask) ∧ s.kernel 40 = some (EPOLLET ||| Event.read.mask) ∧
      s.Agrees 5 := by
  obtain ⟨s, reached, test⟩ := System.reaches_test (polled Unit Nat Nat 5) (fun s label => InRange s.registry label)
    (fun s label => Registry.inRangeTest s.registry label)
    (fun _ _ passed fd named => by simpa [Registry.inRangeTest, named] using passed)
    ⟨.initial, fun fd => if fd = 5 then some (EPOLLIN ||| EPOLLET) else none⟩ rfl readThenReport
    (fun s => s.kernel 3 = some (EPOLLET ||| Event.write.mask) ∧ s.kernel 40 = some (EPOLLET ||| Event.read.mask))
    (by decide)
  obtain ⟨write, read⟩ := of_decide_eq_true test
  exact ⟨s, reached, write, read, kernel_agrees reached⟩

/-- The read end of the pipe is in the epoll set without an event in a context,
and adding an event to it is answered with `EEXIST`. -/
theorem pipe_disagrees :
    ∃ s, (polled Unit Nat Nat 5).Reaches (fun s label => InRange s.registry label) s ∧
      s.kernel 5 = some (EPOLLIN ||| EPOLLET) ∧ (s.registry.context 5).events = 0 ∧
      ∃ made, (Call.addEvent ⟨some (), 1, true⟩ 5 .read none).epollCall s.registry = some made ∧
        s.kernel.admits made = false := by
  refine ⟨_, .start rfl, by decide, by decide, ⟨.add, 5, EPOLLET ||| Event.read.mask⟩, by decide, by decide⟩

end Polled
end HpsSf.IOManager
