import HpsSf.IOManager.Registry
import HpsSf.Scheduler.Machine
import HpsSf.Timer.Manager

/-! The IO manager as one transition system: its workers, timers and contexts.

The idle fiber of a worker is the loop of `hps_IOManager::idle`, one step for
each lock it takes and each counter it reads. A section that hands events over
stays open until each has been scheduled and counted down, one step each.
-/

set_option autoImplicit false

namespace HpsSf.IOManager
open Foundation
open Scheduler (Task)

/-- Where the idle fiber of a worker is. Outside of it, where it will go on. -/
inductive Loop where
  /-- `getNextTimer()` of `stopping()`. -/
  | top
  /-- `m_pendingEventCount == 0` of `stopping()`. -/
  | counting
  /-- `hps_Scheduler::stopping()`. -/
  | judging
  /-- `getNextTimer()` after `stopping()` was true. -/
  | rechecking
  /-- `epoll_wait`. -/
  | polling
  | collecting (reports : List (Nat × Mask))
  | submitting (cbs : List (Option Unit)) (reports : List (Nat × Mask))
  /-- The loop over the reports; at its end, `swapOut`. -/
  | reporting (reports : List (Nat × Mask))
  /-- Behind the `break`. -/
  | finished
  deriving DecidableEq, Repr

/-- The schedulers an event may belong to; zero is this manager. -/
abbrev SchedulerId := Nat

/-- What is left of a section whose mutex is still held: the head of `todo` is to
be scheduled, or has been and is to be counted down. -/
structure Open (n : Nat) where
  owner : Option (Fin n)
  id : Nat
  todo : List (Handed SchedulerId FiberId Unit)
  scheduled : Bool
  deriving DecidableEq

structure State (n : Nat) where
  core : Scheduler.State n
  timers : TimerManager Unit
  registry : Registry SchedulerId FiberId Unit
  sections : List (Open n)
  loop : Fin n → Loop

/-- What a step of the idle fiber reads from outside. -/
inductive Input where
  | proceed
  | clock (now : Nat)
  | reports (reports : List (Nat × Mask))
  | expire (shape : SearchTree.Shape Addr) (now : Nat)
  | answer (ctl : EpollCall → Bool)

inductive Label (n : Nat) where
  /-- A step of the scheduler, of a fiber's body, or a call of `schedule`. -/
  | core (label : Scheduler.Label n)
  | timer (caller : Option (Fin n)) (label : TimerManager.Label Unit)
  | grow (caller : Option (Fin n)) (fd : Int)
  | onContext (caller : Option (Fin n)) (ctl : EpollCall → Bool) (id : Nat) (op : Op SchedulerId FiberId Unit)
  /-- The next part of an open section. -/
  | goOn (place : Nat)
  | idle (w : Fin n) (input : Input)

variable {n : Nat}

/-- What a timer's or an event's content is for `schedule`. -/
def entryOf : Option (Task FiberId Unit) → Scheduler.Call
  | some (.fiber f) => .fiber f
  | some (.cb _) => .callback
  | none => .empty

namespace State

/-- After the constructor. -/
def initial (n : Nat) : State n := ⟨.initial n, .initial, .initial, [], fun _ => .top⟩

def setLoop (s : State n) (w : Fin n) (loop : Loop) : State n :=
  { s with loop := Function.update s.loop w loop }

/-- The thread is not inside a section. -/
def free (s : State n) : Option (Fin n) → Bool
  | some w => s.sections.all fun o => o.owner != some w
  | none => true

/-- `stopping()` before `hps_Scheduler::stopping()`, and the wait of `getNextTimer`. -/
def noTimer (s : State n) (now : Nat) : Bool := (s.timers.getNextTimer now).1 == 2 ^ 64 - 1

/-- A thread calls `addEvent` for itself: a worker with the fiber it runs. -/
def callsAs (s : State n) : Option (Fin n) → Op SchedulerId FiberId Unit → Bool
  | some w, .addEvent caller _ _ _ =>
      match (s.core.worker w).pc with
      | .task _ branch =>
          caller.scheduler == some 0 && (s.core.worker w).fiberOf branch == some caller.fiber &&
            caller.executing == ((s.core.heap caller.fiber).state == .exec)
      | _ => false
  | _, .dispatch _ => false
  | _, _ => true

/-- `schedule` on the scheduler of an event. -/
def hand (s : State n) (handed : Handed SchedulerId FiberId Unit) : State n :=
  if handed.scheduler = 0 then { s with core := s.core.accept (-1) (entryOf handed.task) } else s

/-- A section up to its first call of `schedule`. -/
def enter (s : State n) (owner : Option (Fin n)) (ctl : EpollCall → Bool) (id : Nat)
    (op : Op SchedulerId FiberId Unit) : Option (State n) :=
  match s.registry.contexts[id]? with
  | some ctx =>
      -- The mutex of the context is free.
      if s.sections.all fun o => o.id != id then
        match ctx.run ctl s.registry.pendingEventCount op with
        | .ok out =>
            some { s with
              -- With nothing to hand over the section ends in this step.
              registry := { s.registry with
                contexts := s.registry.contexts.set id out.ctx
                pendingEventCount := if out.handed.isEmpty then out.pending else s.registry.pendingEventCount }
              sections := if out.handed.isEmpty then s.sections else s.sections ++ [⟨owner, id, out.handed, false⟩] }
        | .error _ => none
      else none
  | none => none

def goOn (s : State n) (place : Nat) : Option (State n) :=
  match s.sections[place]? with
  | some ⟨owner, id, handed :: rest, false⟩ =>
      some { s.hand handed with sections := s.sections.set place ⟨owner, id, handed :: rest, true⟩ }
  | some ⟨owner, id, _ :: rest, true⟩ =>
      some { s with
        registry := { s.registry with pendingEventCount := decr64 s.registry.pendingEventCount }
        sections := if rest.isEmpty then s.sections.eraseIdx place
          else s.sections.set place ⟨owner, id, rest, false⟩ }
  | _ => none

/-- One step of the loop of `idle`. -/
def idle (tid : Fin n → Int) (s : State n) (w : Fin n) : Loop → Input → Option (State n)
  | .top, .clock now =>
      some { s.setLoop w (if s.noTimer now then .counting else .polling) with
        timers := (s.timers.getNextTimer now).2 }
  | .counting, .proceed =>
      some (s.setLoop w (if s.registry.pendingEventCount = 0 then .judging else .polling))
  | .judging, .proceed => some (s.setLoop w (if s.core.verdict then .rechecking else .polling))
  | .rechecking, .clock now =>
      some { s.setLoop w (if s.noTimer now then .finished else .polling) with
        timers := (s.timers.getNextTimer now).2 }
  | .polling, .reports reports =>
      -- `epoll_wait` fills at most 64 events, each for a descriptor that has a context.
      if reports.length ≤ 64 && reports.all fun report => report.1 < s.registry.contexts.length then
        some (s.setLoop w (.collecting reports))
      else none
  | .collecting reports, .expire shape now =>
      some { s.setLoop w (.submitting (s.timers.listExpiredCb shape now).1 reports) with
        timers := (s.timers.listExpiredCb shape now).2 }
  | .submitting cbs reports, .proceed =>
      some { s.setLoop w (.reporting reports) with
        core := (cbs.map fun cb => entryOf (cb.map .cb)).foldl (fun core fc => core.accept (-1) fc) s.core }
  | .reporting ((id, reported) :: rest), .answer ctl =>
      (s.enter (some w) ctl id (.dispatch reported)).map fun s => s.setLoop w (.reporting rest)
  | .reporting [], .proceed =>
      (Scheduler.step tid s.core (.idle w false)).map fun core => { s.setLoop w .top with core := core }
  | .finished, .proceed =>
      (Scheduler.step tid s.core (.idle w true)).map fun core => { s with core := core }
  | _, _ => none

end State

/-- The thread that takes a step of the scheduler. -/
def actor : Scheduler.Label n → Option (Fin n)
  | .schedule caller _ _ | .scheduleAll caller _ | .newFiber caller => caller
  | .setAutoStop | .setStopping => none
  | .scan w | .branch w | .task w _ | .idle w _ => some w

/-- The operations on timers that are open to callers, and the end of their last pointer. -/
def onTimers : TimerManager.Label Unit → Bool
  | .getNextTimer _ | .listExpiredCb _ _ => false
  | _ => true

/-- `new` fails long before there are that many contexts. -/
def addressable : Nat := 2 ^ 62

def step (tid : Fin n → Int) (s : State n) : Label n → Option (State n)
  -- The idle fiber moves by the loop of this class alone.
  | .core (.idle _ _) => none
  | .core label =>
      if s.free (actor label) then (Scheduler.step tid s.core label).map fun core => { s with core := core } else none
  | .timer caller label =>
      if s.core.mayCall caller && s.free caller && onTimers label then
        (s.timers.step label).map fun timers => { s with timers := timers }
      else none
  | .grow caller fd =>
      if s.core.mayCall caller && s.free caller then
        match s.registry.grow fd with
        | .ok (registry, _) => if registry.contexts.length < addressable then some { s with registry := registry } else none
        | .error _ => none
      else none
  | .onContext caller ctl id op =>
      if s.core.mayCall caller && s.free caller && s.callsAs caller op then s.enter caller ctl id op else none
  | .goOn place => s.goOn place
  | .idle w input =>
      if (s.core.worker w).pc = .idle && s.free (some w) then s.idle tid w (s.loop w) input else none

def machine (tid : Fin n → Int) : System (State n) (Label n) where
  start s := s = State.initial n
  step := step tid

end HpsSf.IOManager
