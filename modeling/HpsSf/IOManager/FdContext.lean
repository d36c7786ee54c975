import HpsSf.Foundation.Word
import HpsSf.Scheduler.Queue

/-! The context of a file descriptor and the sections that run under its mutex.

Each function is what one call does between locking and unlocking `fd_ctx->mutex`.
Whether `epoll_ctl` succeeds is an input, and the calls of `schedule` that a
section makes are an output. A failed assertion or a null dereference is a fault.
-/

set_option autoImplicit false

namespace HpsSf.IOManager
open Foundation (incr64 decr64)
open Scheduler (Task)

/-- `hps_Event` and the `events` field of `epoll_event`. -/
abbrev Mask := BitVec 32

def EPOLLIN : Mask := 0x1
def EPOLLOUT : Mask := 0x4
def EPOLLERR : Mask := 0x8
def EPOLLHUP : Mask := 0x10
def EPOLLET : Mask := 0x80000000

inductive Event where
  | none | read | write
  deriving DecidableEq, Repr

def Event.mask : Event → Mask
  | .none => 0x0
  | .read => 0x1
  | .write => 0x4

/-- `mask & event` as a condition. -/
def covers (mask : Mask) (event : Event) : Bool := mask &&& event.mask != 0

structure EventContext (S F C : Type) where
  scheduler : Option S
  fiber : Option F
  cb : Option C
  deriving DecidableEq, Repr

structure FdContext (S F C : Type) where
  read : EventContext S F C
  write : EventContext S F C
  fd : Int
  events : Mask
  deriving DecidableEq, Repr

inductive Fault where
  /-- `default` of `getContext`. -/
  | unknownEvent
  /-- `HPS_ASSERT(events & event)` of `triggerEvent`. -/
  | notRegistered
  /-- The scheduler that `triggerEvent` calls is null. -/
  | nullScheduler
  /-- `HPS_ASSERT(!(fd_ctx -> events & event))` of `addEvent`. -/
  | alreadyRegistered
  /-- The event context is not clear in `addEvent`. -/
  | slotTaken
  /-- The calling fiber of `addEvent` is not in state EXEC. -/
  | callerNotExecuting
  /-- `HPS_ASSERT(fd_ctx -> events == 0)` of `cancelAll`. -/
  | eventsLeft
  /-- An index outside of `m_fdContexts`. -/
  | outOfBounds
  /-- `resize` to a negative size. -/
  | lengthError
  deriving DecidableEq, Repr

inductive EpollOp where
  | add | mod | del
  deriving DecidableEq, Repr

/-- One call of `epoll_ctl`. -/
structure EpollCall where
  op : EpollOp
  fd : Int
  events : Mask
  deriving DecidableEq, Repr

/-- One call of `schedule` through an event context; a null task makes no entry. -/
structure Handed (S F C : Type) where
  scheduler : S
  task : Option (Task F C)
  deriving DecidableEq, Repr

/-- What a section leaves behind. -/
structure Section (S F C R : Type) where
  ctx : FdContext S F C
  pending : Nat
  handed : List (Handed S F C)
  returned : R
  deriving DecidableEq, Repr

/-- `hps_Scheduler::GetThis()` and `hps_Fiber::GetThis()` of the calling thread. -/
structure Caller (S F : Type) where
  scheduler : Option S
  fiber : F
  executing : Bool

/-- `real_events`: an error or a hang-up is reported to readers and writers. -/
def realEvents (reported : Mask) : Mask :=
  let reported := if reported &&& (EPOLLERR ||| EPOLLHUP) != 0 then reported ||| EPOLLIN ||| EPOLLOUT else reported
  (if reported &&& EPOLLIN != 0 then Event.read.mask else 0) |||
    if reported &&& EPOLLOUT != 0 then Event.write.mask else 0

variable {S F C : Type}

def EventContext.clear : EventContext S F C := ⟨none, none, none⟩

namespace FdContext

def fresh (fd : Int) : FdContext S F C := ⟨.clear, .clear, fd, 0⟩

/-- `none` is the failed assertion of the default case. -/
def getContext (ctx : FdContext S F C) : Event → Except Fault (EventContext S F C)
  | .read => .ok ctx.read
  | .write => .ok ctx.write
  | .none => .error .unknownEvent

def setContext (ctx : FdContext S F C) (slot : EventContext S F C) : Event → FdContext S F C
  | .read => { ctx with read := slot }
  | .write => { ctx with write := slot }
  | .none => ctx

/-- The content of the slot is swapped out into the entry it becomes. -/
def triggerEvent (ctx : FdContext S F C) (event : Event) :
    Except Fault (FdContext S F C × Handed S F C) :=
  if covers ctx.events event then do
    let ctx := { ctx with events := ctx.events &&& ~~~event.mask }
    let slot ← ctx.getContext event
    match slot.scheduler with
    | none => .error .nullScheduler
    | some scheduler =>
        match slot.cb with
        -- The callback goes first; a fiber in the same slot would stay behind.
        | some cb =>
            pure (ctx.setContext { slot with cb := none, scheduler := none } event,
              ⟨scheduler, some (.cb cb)⟩)
        | none =>
            pure (ctx.setContext { slot with fiber := none, scheduler := none } event,
              ⟨scheduler, slot.fiber.map .fiber⟩)
  else .error .notRegistered

def addCall (ctx : FdContext S F C) (fd : Int) (event : Event) : EpollCall :=
  ⟨if ctx.events = 0 then .add else .mod, fd, EPOLLET ||| ctx.events ||| event.mask⟩

def addEvent (ctl : EpollCall → Bool) (ctx : FdContext S F C) (pending : Nat) (caller : Caller S F)
    (fd : Int) (event : Event) (cb : Option C) : Except Fault (Section S F C Int) :=
  if covers ctx.events event then .error .alreadyRegistered
  else if ctl (ctx.addCall fd event) then do
    let ctx := { ctx with events := ctx.events ||| event.mask }
    let slot ← ctx.getContext event
    -- The bit is in the mask already when the assertion on the slot fails.
    if slot.scheduler.isSome || slot.fiber.isSome || slot.cb.isSome then .error .slotTaken
    else
      match cb with
      | some cb => pure ⟨ctx.setContext ⟨caller.scheduler, none, some cb⟩ event, incr64 pending, [], 0⟩
      | none =>
          -- Without a callback the calling fiber itself is to be resumed.
          if caller.executing then
            pure ⟨ctx.setContext ⟨caller.scheduler, some caller.fiber, none⟩ event, incr64 pending, [], 0⟩
          else .error .callerNotExecuting
  -- `epoll_ctl` failed: nothing has been written yet.
  else pure ⟨ctx, pending, [], -1⟩

/-- The call that takes events out of the interest mask. -/
def dropCall (ctx : FdContext S F C) (fd : Int) (dropped : Mask) : EpollCall :=
  ⟨if ctx.events &&& ~~~dropped = 0 then .del else .mod, fd, EPOLLET ||| ctx.events &&& ~~~dropped⟩

def delEvent (ctl : EpollCall → Bool) (ctx : FdContext S F C) (pending : Nat) (fd : Int) (event : Event) :
    Except Fault (Section S F C Bool) :=
  if covers ctx.events event then
    if ctl (ctx.dropCall fd event.mask) then do
      let ctx := { ctx with events := ctx.events &&& ~~~event.mask }
      -- `resetContext` clears the slot without a call of `schedule`.
      let _ ← ctx.getContext event
      pure ⟨ctx.setContext .clear event, decr64 pending, [], true⟩
    else pure ⟨ctx, pending, [], false⟩
  else pure ⟨ctx, pending, [], false⟩

def cancelEvent (ctl : EpollCall → Bool) (ctx : FdContext S F C) (pending : Nat) (fd : Int) (event : Event) :
    Except Fault (Section S F C Bool) :=
  if covers ctx.events event then
    if ctl (ctx.dropCall fd event.mask) then do
      let (ctx, handed) ← ctx.triggerEvent event
      pure ⟨ctx, decr64 pending, [handed], true⟩
    else pure ⟨ctx, pending, [], false⟩
  else pure ⟨ctx, pending, [], false⟩

/-- `if (mask & event) { triggerEvent(event); m_pendingEventCount --; }` -/
def triggerIf (mask : Mask) (event : Event) (before : Section S F C Unit) :
    Except Fault (Section S F C Unit) :=
  if covers mask event then do
    let (ctx, handed) ← before.ctx.triggerEvent event
    pure ⟨ctx, decr64 before.pending, before.handed ++ [handed], ()⟩
  else pure before

def cancelAll (ctl : EpollCall → Bool) (ctx : FdContext S F C) (pending : Nat) (fd : Int) :
    Except Fault (Section S F C Bool) :=
  if ctx.events = 0 then pure ⟨ctx, pending, [], false⟩
  else if ctl ⟨.del, fd, 0⟩ then do
    let first ← triggerIf ctx.events .read ⟨ctx, pending, [], ()⟩
    -- The mask has lost the bit for reading by now.
    let last ← triggerIf first.ctx.events .write first
    if last.ctx.events = 0 then pure ⟨last.ctx, last.pending, last.handed, true⟩
    else .error .eventsLeft
  else pure ⟨ctx, pending, [], false⟩

/-- The body of the loop of `idle` over the reported events. It looks at
`real_events` alone when it triggers, not at what is registered. -/
def dispatch (ctl : EpollCall → Bool) (ctx : FdContext S F C) (pending : Nat) (reported : Mask) :
    Except Fault (Section S F C Unit) :=
  let real := realEvents reported
  if ctx.events &&& real = 0 then pure ⟨ctx, pending, [], ()⟩
  else if ctl (ctx.dropCall ctx.fd real) then do
    let first ← triggerIf real .read ⟨ctx, pending, [], ()⟩
    -- `real` may name an event that nobody has registered.
    triggerIf real .write first
  else pure ⟨ctx, pending, [], ()⟩

end FdContext
end HpsSf.IOManager
