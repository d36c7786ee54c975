import HpsSf.IOManager.Machine
import HpsSf.IOManager.Pending
import HpsSf.Scheduler.Places
import HpsSf.Scheduler.Stopping
import Mathlib.Algebra.Order.BigOperators.Group.List

/-! What is left when the last worker of an IO manager has left `run`.

`stopping()` reads the timers, the counter of pending events and the state of the
scheduler one after another. The idle loop reads the timers once more, but not the
counter: an event registered in between is abandoned, and so is what a fiber adds
that was between the decrement of the active count and its requeue.
-/

set_option autoImplicit false

namespace HpsSf.IOManager
open Foundation
open Scheduler (Quiet Requeuing)

variable {n : Nat} {tid : Fin n → Int} {s next : State n}

/-! ## Inversion of a step -/

theorem step_core {label : Scheduler.Label n} (stepped : step tid s (.core label) = some next) :
    (∀ w ended, label ≠ .idle w ended) ∧
      ∃ core, Scheduler.step tid s.core label = some core ∧ next = { s with core := core } := by
  cases label with
  | idle w ended => cases stepped
  | _ =>
    refine ⟨nofun, ?_⟩
    simp only [step] at stepped
    split at stepped
    next =>
      obtain ⟨core, went, same⟩ := Option.map_eq_some_iff.mp stepped
      exact ⟨core, went, same.symm⟩
    next => cases stepped

theorem step_timer {caller : Option (Fin n)} {label : TimerManager.Label Unit}
    (stepped : step tid s (.timer caller label) = some next) :
    s.core.mayCall caller = true ∧
      ∃ timers, s.timers.step label = some timers ∧ next = { s with timers := timers } := by
  simp only [step] at stepped
  split at stepped
  next able =>
    simp only [Bool.and_eq_true] at able
    obtain ⟨timers, went, same⟩ := Option.map_eq_some_iff.mp stepped
    exact ⟨able.1.1, timers, went, same.symm⟩
  next => cases stepped

theorem step_grow {caller : Option (Fin n)} {fd : Int} (stepped : step tid s (.grow caller fd) = some next) :
    ∃ registry id, s.registry.grow fd = .ok (registry, id) ∧ registry.contexts.length < addressable ∧
      next = { s with registry := registry } := by
  simp only [step] at stepped
  split at stepped
  next =>
    split at stepped
    next registry id grown =>
      split at stepped
      next few => exact ⟨registry, id, grown, few, (Option.some.inj stepped).symm⟩
      next => cases stepped
    next => cases stepped
  next => cases stepped

theorem step_onContext {caller : Option (Fin n)} {ctl : EpollCall → Bool} {id : Nat}
    {op : Op SchedulerId FiberId Unit} (stepped : step tid s (.onContext caller ctl id op) = some next) :
    s.core.mayCall caller = true ∧ s.callsAs caller op = true ∧ s.enter caller ctl id op = some next := by
  simp only [step] at stepped
  split at stepped
  next able =>
    simp only [Bool.and_eq_true] at able
    exact ⟨able.1.1, able.2, stepped⟩
  next => cases stepped

theorem step_idle {w : Fin n} {input : Input} (stepped : step tid s (.idle w input) = some next) :
    (s.core.worker w).pc = .idle ∧ s.idle tid w (s.loop w) input = some next := by
  simp only [step] at stepped
  split at stepped
  next able => exact ⟨of_decide_eq_true (Bool.and_eq_true_iff.mp able).1, stepped⟩
  next => cases stepped

theorem enter_eq_some {owner : Option (Fin n)} {ctl : EpollCall → Bool} {id : Nat}
    {op : Op SchedulerId FiberId Unit} (entered : s.enter owner ctl id op = some next) :
    ∃ ctx out, s.registry.contexts[id]? = some ctx ∧ (∀ o ∈ s.sections, o.id ≠ id) ∧
      ctx.Effect s.registry.pendingEventCount op out ∧
      next = { s with
        registry := { s.registry with
          contexts := s.registry.contexts.set id out.ctx
          pendingEventCount := if out.handed.isEmpty then out.pending else s.registry.pendingEventCount }
        sections := if out.handed.isEmpty then s.sections else s.sections ++ [⟨owner, id, out.handed, false⟩] } := by
  unfold State.enter at entered
  split at entered
  next ctx found =>
    split at entered
    next unlocked =>
      split at entered
      next out ran =>
        refine ⟨ctx, out, found, fun o member => ?_, FdContext.effect_of_run ran, (Option.some.inj entered).symm⟩
        simpa using List.all_eq_true.mp unlocked o member
      next => cases entered
    next => cases entered
  next => cases entered

theorem goOn_eq_some {place : Nat} (went : s.goOn place = some next) :
    ∃ owner id handed rest, (s.sections[place]? = some ⟨owner, id, handed :: rest, false⟩ ∧
        next = { s.hand handed with sections := s.sections.set place ⟨owner, id, handed :: rest, true⟩ }) ∨
      (s.sections[place]? = some ⟨owner, id, handed :: rest, true⟩ ∧
        next = { s with
          registry := { s.registry with pendingEventCount := decr64 s.registry.pendingEventCount }
          sections := if rest.isEmpty then s.sections.eraseIdx place
            else s.sections.set place ⟨owner, id, rest, false⟩ }) := by
  unfold State.goOn at went
  split at went
  next owner id handed rest found => exact ⟨owner, id, handed, rest, .inl ⟨found, (Option.some.inj went).symm⟩⟩
  next owner id handed rest found => exact ⟨owner, id, handed, rest, .inr ⟨found, (Option.some.inj went).symm⟩⟩
  next => cases went

/-- The turns of the idle loop, each with the part of it that comes next. -/
inductive IdleTurn (tid : Fin n → Int) (s : State n) (w : Fin n) : Loop → Input → State n → Prop where
  | timers (now : Nat) : IdleTurn tid s w .top (.clock now)
      { s.setLoop w (if s.noTimer now then .counting else .polling) with timers := (s.timers.getNextTimer now).2 }
  | count : IdleTurn tid s w .counting .proceed
      (s.setLoop w (if s.registry.pendingEventCount = 0 then .judging else .polling))
  | judge : IdleTurn tid s w .judging .proceed (s.setLoop w (if s.core.verdict then .rechecking else .polling))
  | recheck (now : Nat) : IdleTurn tid s w .rechecking (.clock now)
      { s.setLoop w (if s.noTimer now then .finished else .polling) with timers := (s.timers.getNextTimer now).2 }
  | poll (reports : List (Nat × Mask)) : IdleTurn tid s w .polling (.reports reports) (s.setLoop w (.collecting reports))
  | expire (reports : List (Nat × Mask)) (shape : SearchTree.Shape Addr) (now : Nat) :
      IdleTurn tid s w (.collecting reports) (.expire shape now)
        { s.setLoop w (.submitting (s.timers.listExpiredCb shape now).1 reports) with
          timers := (s.timers.listExpiredCb shape now).2 }
  | submit (cbs : List (Option Unit)) (reports : List (Nat × Mask)) : IdleTurn tid s w (.submitting cbs reports) .proceed
      { s.setLoop w (.reporting reports) with
        core := (cbs.map fun cb => entryOf (cb.map .cb)).foldl (fun core fc => core.accept (-1) fc) s.core }
  | report {id : Nat} {reported : Mask} {rest : List (Nat × Mask)} {ctl : EpollCall → Bool} {entered : State n} :
      s.enter (some w) ctl id (.dispatch reported) = some entered →
      IdleTurn tid s w (.reporting ((id, reported) :: rest)) (.answer ctl) (entered.setLoop w (.reporting rest))
  | again {core : Scheduler.State n} : Scheduler.step tid s.core (.idle w false) = some core →
      IdleTurn tid s w (.reporting []) .proceed { s.setLoop w .top with core := core }
  | leave {core : Scheduler.State n} : Scheduler.step tid s.core (.idle w true) = some core →
      IdleTurn tid s w .finished .proceed { s with core := core }

theorem turn_of_idle {w : Fin n} {input : Input} (went : s.idle tid w (s.loop w) input = some next) :
    ∃ loop, s.loop w = loop ∧ IdleTurn tid s w loop input next := by
  refine ⟨s.loop w, rfl, ?_⟩
  generalize s.loop w = loop at went ⊢
  unfold State.idle at went
  split at went
  case h_5 =>
    split at went <;> cases went
    exact .poll _
  case h_8 =>
    obtain ⟨entered, inside, rfl⟩ := Option.map_eq_some_iff.mp went
    exact .report inside
  case h_9 =>
    obtain ⟨core, left, rfl⟩ := Option.map_eq_some_iff.mp went
    exact .again left
  case h_10 =>
    obtain ⟨core, left, rfl⟩ := Option.map_eq_some_iff.mp went
    exact .leave left
  case h_11 => cases went
  all_goals
    cases went
    constructor

/-! ## The scheduler and the timers -/

/-- A batch of calls of `schedule` by the loop or by a section. -/
abbrev acceptAll (core : Scheduler.State n) (fcs : List Scheduler.Call) : Scheduler.State n :=
  fcs.foldl (fun core fc => core.accept (-1) fc) core

/-- The scheduler takes a step of its own or gets a batch. -/
theorem step_scheduler {label : Label n} (stepped : step tid s label = some next) :
    (∃ own, Scheduler.step tid s.core own = some next.core) ∨ ∃ fcs, next.core = acceptAll s.core fcs := by
  have same : s.core = acceptAll s.core [] := rfl
  cases label with
  | core label =>
    obtain ⟨-, core, went, rfl⟩ := step_core stepped
    exact .inl ⟨label, went⟩
  | timer caller label =>
    obtain ⟨-, timers, -, rfl⟩ := step_timer stepped
    exact .inr ⟨[], same⟩
  | grow caller fd =>
    obtain ⟨registry, id, -, -, rfl⟩ := step_grow stepped
    exact .inr ⟨[], same⟩
  | onContext caller ctl id op =>
    obtain ⟨ctx, out, -, -, -, rfl⟩ := enter_eq_some (step_onContext stepped).2.2
    exact .inr ⟨[], same⟩
  | goOn place =>
    obtain ⟨owner, id, handed, rest, ⟨-, rfl⟩ | ⟨-, rfl⟩⟩ := goOn_eq_some stepped
    · simp only [State.hand]
      split
      · exact .inr ⟨[entryOf handed.task], rfl⟩
      · exact .inr ⟨[], same⟩
    · exact .inr ⟨[], same⟩
  | idle w input =>
    obtain ⟨loop, -, turn⟩ := turn_of_idle (step_idle stepped).2
    cases turn with
    | submit cbs reports => exact .inr ⟨_, rfl⟩
    | report inside =>
      obtain ⟨ctx, out, -, -, -, rfl⟩ := enter_eq_some inside
      exact .inr ⟨[], same⟩
    | again left => exact .inl ⟨_, left⟩
    | leave left => exact .inl ⟨_, left⟩
    | _ => exact .inr ⟨[], same⟩

theorem step_timers {label : Label n} (stepped : step tid s label = some next) :
    next.timers = s.timers ∨ ∃ own, s.timers.step own = some next.timers := by
  cases label with
  | core label =>
    obtain ⟨-, core, -, rfl⟩ := step_core stepped
    exact .inl rfl
  | timer caller label =>
    obtain ⟨-, timers, went, rfl⟩ := step_timer stepped
    exact .inr ⟨label, went⟩
  | grow caller fd =>
    obtain ⟨registry, id, -, -, rfl⟩ := step_grow stepped
    exact .inl rfl
  | onContext caller ctl id op =>
    obtain ⟨ctx, out, -, -, -, rfl⟩ := enter_eq_some (step_onContext stepped).2.2
    exact .inl rfl
  | goOn place =>
    obtain ⟨owner, id, handed, rest, ⟨-, rfl⟩ | ⟨-, rfl⟩⟩ := goOn_eq_some stepped
    · simp only [State.hand]
      split <;> exact .inl rfl
    · exact .inl rfl
  | idle w input =>
    obtain ⟨loop, -, turn⟩ := turn_of_idle (step_idle stepped).2
    cases turn with
    | timers now => exact .inr ⟨.getNextTimer now, rfl⟩
    | recheck now => exact .inr ⟨.getNextTimer now, rfl⟩
    | expire reports shape now => exact .inr ⟨.listExpiredCb shape now, rfl⟩
    | report inside =>
      obtain ⟨ctx, out, -, -, -, rfl⟩ := enter_eq_some inside
      exact .inl rfl
    | _ => exact .inl rfl

/-- A worker is in the idle fiber only while that has not ended, and leaves `run` only after. -/
def Awake (core : Scheduler.State n) : Prop :=
  ∀ w, ((core.worker w).pc = .idle → (core.worker w).idleOver = false) ∧
    ((core.worker w).pc = .exited → (core.worker w).idleOver = true)

theorem Awake.update {core after : Scheduler.State n} (awake : Awake core) (w : Fin n) (self : Scheduler.Worker)
    (worker : after.worker = Function.update core.worker w self)
    (idle : self.pc = .idle → self.idleOver = false) (exited : self.pc = .exited → self.idleOver = true) :
    Awake after := by
  intro v
  rw [worker]
  by_cases same : v = w
  · subst same
    simpa using ⟨idle, exited⟩
  · simpa [same] using awake v

theorem Awake.step {core after : Scheduler.State n} {label : Scheduler.Label n} (awake : Awake core)
    (stepped : Scheduler.step tid core label = some after) : Awake after := by
  cases label with
  | schedule caller fc thread =>
    obtain ⟨-, -, rfl⟩ := Scheduler.step_schedule stepped
    intro v
    rw [Scheduler.accept_worker]
    exact awake v
  | scheduleAll caller fcs =>
    obtain ⟨-, -, rfl⟩ := Scheduler.step_scheduleAll stepped
    intro v
    rw [Scheduler.acceptAll_worker]
    exact awake v
  | newFiber caller =>
    cases Scheduler.step_newFiber stepped
    exact awake
  | setAutoStop =>
    cases stepped
    exact awake
  | setStopping =>
    cases stepped
    exact awake
  | scan w =>
    obtain ⟨-, ⟨ft, left, -, rfl⟩ | ⟨-, rfl⟩⟩ := Scheduler.step_scan stepped
    · exact awake.update w _ rfl (by simp) (by simp)
    · exact awake.update w _ rfl (by simp) (by simp)
  | branch w =>
    obtain ⟨f, thread, -, rfl⟩ | ⟨c, thread, f, -, -, -, rfl⟩ | ⟨c, thread, -, -, rfl⟩ |
      ⟨-, ⟨rfl, ended⟩ | ⟨rfl, more⟩⟩ := Scheduler.step_branch stepped
    case inr.inr.inr.inl => exact awake.update w _ rfl (by simp) fun _ => ended
    case inr.inr.inr.inr => exact awake.update w _ rfl (fun _ => more) (by simp)
    all_goals exact awake.update w _ rfl (by simp) (by simp)
  | task w act =>
    obtain ⟨stage, branch, f, effect, -, -, advanced, rfl⟩ := Scheduler.step_task stepped
    obtain ⟨later, pc, -, -⟩ | ⟨pc, -⟩ := Scheduler.advance_pc advanced
    all_goals
      refine awake.update w _ rfl (fun wrong => ?_) fun wrong => ?_
      all_goals
        rw [Scheduler.Worker.after, pc] at wrong
        cases wrong
  | idle w ended =>
    obtain ⟨-, rfl⟩ := Scheduler.step_idle stepped
    exact awake.update w _ rfl (by simp) (by simp)

/-! ## The counter of pending events -/

/-- Registrations that have left their slot and are still to be counted down. -/
def State.owed (s : State n) : Nat := (s.sections.map fun o => o.todo.length).sum

/-- The counter follows the registered events and those that open sections owe,
and these are few enough for it not to wrap. -/
structure Level (s : State n) : Prop where
  level : s.registry.pendingEventCount = wrap64 (s.registry.total + s.owed)
  todo : ∀ o ∈ s.sections, 0 < o.todo.length ∧ o.todo.length ≤ 2
  apart : (s.sections.map Open.id).Nodup
  inside : ∀ o ∈ s.sections, o.id < s.registry.contexts.length
  few : s.registry.contexts.length < addressable

/-- What a section hands over leaves the slots at once, and the counter later. -/
theorem owes {S F C : Type} {ctx : FdContext S F C} {pending : Nat} {op : Op S F C} {out : Section S F C Bool}
    (effect : ctx.Effect pending op out) (rest : Nat) (level : pending = wrap64 (rest + bits ctx.events)) :
    (if out.handed.isEmpty then out.pending else pending) =
        wrap64 (rest + bits out.ctx.events + out.handed.length) ∧ out.handed.length ≤ 2 := by
  have counts := effect.counts rest level
  cases effect with
  | refused => simpa using counts
  | added named unregistered clear => simpa using counts
  | deleted registered => simpa using counts
  | @triggered op mask returned _ ready =>
    have length : ((FdContext.chosen mask).filterMap ctx.handover).length = (FdContext.chosen mask).length := by
      rw [List.filterMap_length_eq_length]
      exact fun event member => (ready event member).2
    have few : (FdContext.chosen mask).length ≤ 2 := List.length_filter_le _ _
    simp only [length]
    refine ⟨?_, few⟩
    split
    next none =>
      rw [List.isEmpty_iff_length_eq_zero, length] at none
      simpa only [none, Nat.add_zero] using counts
    next => rw [level, FdContext.bits_releasedAll fun event member => (ready event member).1, Nat.add_assoc]

theorem Level.enter {owner : Option (Fin n)} {ctl : EpollCall → Bool} {id : Nat}
    {op : Op SchedulerId FiberId Unit} (level : Level s) (entered : s.enter owner ctl id op = some next) :
    Level next := by
  obtain ⟨ctx, out, found, unlocked, effect, rfl⟩ := enter_eq_some entered
  obtain ⟨rest, whole, replaced⟩ := sum_set_cell (fun ctx : FdContext SchedulerId FiberId Unit => bits ctx.events) found
  have before := level.level
  rw [Registry.total, whole, Nat.add_right_comm] at before
  obtain ⟨counted, few⟩ := owes effect (rest + s.owed) before
  have inside : id < s.registry.contexts.length := (List.getElem?_eq_some_iff.mp found).1
  have total : ((s.registry.contexts.set id out.ctx).map fun ctx => bits ctx.events).sum = rest + bits out.ctx.events :=
    replaced out.ctx
  cases handed : out.handed with
  | nil =>
    rw [handed] at counted
    refine ⟨?_, level.todo, level.apart, fun o member => ?_, ?_⟩
    · simp only [List.isEmpty_nil, if_true, List.length_nil, Nat.add_zero] at counted ⊢
      rw [counted]
      simp only [Registry.total, State.owed, total]
      congr 1
      omega
    · simpa using level.inside o member
    · simpa using level.few
  | cons first others =>
    rw [handed] at counted few
    refine ⟨?_, ?_, ?_, ?_, ?_⟩
    · simp only [List.isEmpty_cons, Bool.false_eq_true, if_false] at counted ⊢
      rw [counted]
      simp only [Registry.total, State.owed, total, List.map_append, List.sum_append, List.map_cons, List.map_nil,
        List.sum_cons, List.sum_nil]
      congr 1
      omega
    · simp only [List.isEmpty_cons, Bool.false_eq_true, if_false]
      intro o member
      obtain old | new := List.mem_append.mp member
      · exact level.todo o old
      · rw [List.mem_singleton.mp new]
        exact ⟨Nat.succ_pos _, few⟩
    · simp only [List.isEmpty_cons, Bool.false_eq_true, if_false, List.map_append, List.map_cons, List.map_nil]
      refine List.nodup_append.mpr ⟨level.apart, List.nodup_singleton id, ?_⟩
      intro old member new same
      obtain ⟨o, known, rfl⟩ := List.mem_map.mp member
      rw [List.mem_singleton.mp same]
      exact unlocked o known
    · simp only [List.isEmpty_cons, Bool.false_eq_true, if_false, List.length_set]
      intro o member
      obtain old | new := List.mem_append.mp member
      · exact level.inside o old
      · rw [List.mem_singleton.mp new]
        exact inside
    · simpa using level.few

/-- Only the counter and the open sections change, and there are no new sections. -/
theorem Level.narrow (level : Level s) {owed pending : Nat}
    (registry : next.registry = { s.registry with pendingEventCount := pending })
    (ids : (next.sections.map Open.id).Sublist (s.sections.map Open.id))
    (todo : ∀ o ∈ next.sections, 0 < o.todo.length ∧ o.todo.length ≤ 2) (left : next.owed = owed)
    (counted : pending = wrap64 (s.registry.total + owed)) : Level next := by
  have contexts : next.registry.contexts = s.registry.contexts := by rw [registry]
  have total : next.registry.total = s.registry.total := by rw [Registry.total, contexts, Registry.total]
  refine ⟨by rw [total, left, registry]; exact counted, todo, level.apart.sublist ids, fun o member => ?_,
    by rw [contexts]; exact level.few⟩
  obtain ⟨old, known, same⟩ := List.mem_map.mp (ids.subset (List.mem_map_of_mem member))
  rw [contexts, ← same]
  exact level.inside old known

theorem Level.goOn {place : Nat} (level : Level s) (went : s.goOn place = some next) : Level next := by
  obtain ⟨owner, id, handed, rest, ⟨found, rfl⟩ | ⟨found, rfl⟩⟩ := goOn_eq_some went
  all_goals
    obtain ⟨before, after, whole, erased, replaced⟩ := split_at_cell found
    have others (o : Open n) (member : o ∈ before ∨ o ∈ after) : 0 < o.todo.length ∧ o.todo.length ≤ 2 := by
      refine level.todo o ?_
      rw [whole, List.mem_append, List.mem_cons]
      exact member.imp_right .inr
    have here : (handed :: rest).length ≤ 2 := (level.todo _ (List.mem_of_getElem? found)).2
  · have same : (s.hand handed).registry = s.registry := by
      unfold State.hand
      split <;> rfl
    refine level.narrow same ?_ (fun o member => ?_) ?_ level.level
    · simp only [replaced]
      simp [whole]
    · simp only [replaced, List.mem_append, List.mem_cons] at member
      obtain first | rfl | last := member
      · exact others o (.inl first)
      · exact ⟨Nat.succ_pos _, here⟩
      · exact others o (.inr last)
    · simp only [State.owed, replaced]
      simp [whole]
  · have owed : s.owed = (before.map fun o => o.todo.length).sum + rest.length +
        (after.map fun o => o.todo.length).sum + 1 := by
      rw [State.owed, whole]
      simp only [List.map_append, List.map_cons, List.sum_append, List.sum_cons, List.length_cons]
      omega
    have lowered := level.level
    rw [owed, ← Nat.add_assoc] at lowered
    have counted : decr64 s.registry.pendingEventCount = wrap64 (s.registry.total +
        ((before.map fun o => o.todo.length).sum + rest.length + (after.map fun o => o.todo.length).sum)) := by
      rw [lowered, decr64_wrap64]
    cases rest with
    | nil =>
      refine level.narrow rfl ?_ (fun o member => ?_) ?_ counted
      · simp only [List.isEmpty_nil, if_true, erased]
        simp [whole]
      · simp only [List.isEmpty_nil, if_true, erased] at member
        exact others o (List.mem_append.mp member)
      · simp only [List.isEmpty_nil, if_true, State.owed, erased]
        simp
    | cons second tail =>
      refine level.narrow rfl ?_ (fun o member => ?_) ?_ counted
      · simp only [List.isEmpty_cons, Bool.false_eq_true, if_false, replaced]
        simp [whole]
      · simp only [List.isEmpty_cons, Bool.false_eq_true, if_false, replaced, List.mem_append, List.mem_cons] at member
        obtain first | rfl | last := member
        · exact others o (.inl first)
        · exact ⟨Nat.succ_pos _, Nat.le_of_succ_le here⟩
        · exact others o (.inr last)
      · simp only [List.isEmpty_cons, Bool.false_eq_true, if_false, State.owed, replaced]
        simp [Nat.add_assoc]

theorem Level.clear (level : Level s) (zero : s.registry.pendingEventCount = 0) :
    s.registry.total = 0 ∧ s.sections = [] := by
  have places : s.sections.length ≤ s.registry.contexts.length := by
    have within : s.sections.map Open.id ⊆ List.range s.registry.contexts.length := fun id member => by
      obtain ⟨o, known, rfl⟩ := List.mem_map.mp member
      exact List.mem_range.mpr (level.inside o known)
    simpa using (List.subperm_of_subset level.apart within).length_le
  have owed : s.owed ≤ 2 * s.sections.length := by
    have bounded := List.sum_le_card_nsmul (s.sections.map fun o => o.todo.length) 2 fun length member => by
      obtain ⟨o, known, rfl⟩ := List.mem_map.mp member
      exact (level.todo o known).2
    simpa [State.owed, Nat.mul_comm] using bounded
  have registered := s.registry.total_le
  have few := level.few
  have none : s.registry.total + s.owed = 0 := by
    have small : s.registry.total + s.owed < 2 ^ 64 := by
      unfold addressable at few
      omega
    rw [← wrap64_of_lt small, ← level.level, zero]
  refine ⟨by omega, List.eq_nil_iff_forall_not_mem.mpr fun o member => ?_⟩
  have debt : o.todo.length ≤ s.owed := List.single_le_sum (fun _ _ => Nat.zero_le _) _ (List.mem_map_of_mem member)
  have positive := (level.todo o member).1
  omega

theorem Level.step {label : Label n} (level : Level s) (stepped : step tid s label = some next) : Level next := by
  have kept {next : State n} (registry : next.registry = s.registry) (sections : next.sections = s.sections) :
      Level next := by
    refine ⟨?_, ?_, ?_, ?_, ?_⟩
    · rw [registry, State.owed, sections]
      exact level.level
    · rw [sections]
      exact level.todo
    · rw [sections]
      exact level.apart
    · rw [registry, sections]
      exact level.inside
    · rw [registry]
      exact level.few
  cases label with
  | core label =>
    obtain ⟨-, core, -, rfl⟩ := step_core stepped
    exact kept rfl rfl
  | timer caller label =>
    obtain ⟨-, timers, -, rfl⟩ := step_timer stepped
    exact kept rfl rfl
  | grow caller fd =>
    obtain ⟨registry, id, grown, few, rfl⟩ := step_grow stepped
    have total := Registry.grow_total grown
    obtain ⟨table, fresh, -, -, rfl, -⟩ := Registry.grow_ok grown
    refine ⟨?_, level.todo, level.apart, fun o member => ?_, few⟩
    · rw [total]
      exact level.level
    · have before := level.inside o member
      simp only [List.length_append]
      omega
  | onContext caller ctl id op => exact level.enter (step_onContext stepped).2.2
  | goOn place => exact level.goOn stepped
  | idle w input =>
    obtain ⟨loop, -, turn⟩ := turn_of_idle (step_idle stepped).2
    cases turn with
    | report inside =>
      have after := level.enter inside
      exact ⟨after.level, after.todo, after.apart, after.inside, after.few⟩
    | _ => exact kept rfl rfl

/-- What holds in every state, whatever the callers do. -/
structure Sound (s : State n) : Prop where
  counted : Scheduler.Counted s.core
  awake : Awake s.core
  bounded : s.timers.Bounded
  level : Level s

theorem sound_initial : Sound (State.initial n) := by
  refine ⟨Scheduler.counted_initial, fun w => ⟨nofun, nofun⟩, fun a timer found => (nomatch found), ?_⟩
  have total : (Registry.initial : Registry SchedulerId FiberId Unit).total = 0 :=
    Registry.contextResize_total Registry.contextResize_initial
  refine ⟨?_, fun o member => (List.not_mem_nil member).elim, List.nodup_nil,
    fun o member => (List.not_mem_nil member).elim, ?_⟩
  · simp only [State.initial, total]
    rfl
  · simp [State.initial, Registry.initial, addressable]

theorem Sound.step {label : Label n} (sound : Sound s) (stepped : step tid s label = some next) : Sound next := by
  refine ⟨?_, ?_, ?_, sound.level.step stepped⟩
  · obtain ⟨own, went⟩ | ⟨fcs, same⟩ := step_scheduler stepped
    · exact Scheduler.step_counted sound.counted went
    · rw [same]
      exact sound.counted.of_same (fun w => by rw [Scheduler.acceptAll_worker]) (Scheduler.acceptAll_active _ _)
  · obtain ⟨own, went⟩ | ⟨fcs, same⟩ := step_scheduler stepped
    · exact sound.awake.step went
    · intro w
      rw [same, Scheduler.acceptAll_worker]
      exact sound.awake w
  · obtain same | ⟨own, went⟩ := step_timers stepped
    · rw [same]
      exact sound.bounded
    · exact (TimerManager.step_keeps sound.bounded went).1

/-! ## The end of the idle loops -/

/-- A thread that is no worker adds work. -/
def Label.adds : Label n → Bool
  | .core label => label.outside
  | .timer none (.addTimer ..) => true
  | .onContext none _ _ (.addEvent ..) => true
  | _ => false

/-- Nothing is added from outside once `stop()` has been called, and the clock is not at zero. -/
structure Closed (s : State n) (label : Label n) : Prop where
  adds : label.adds = true → s.core.autoStop = false
  clock : ∀ w now, label = .idle w (.clock now) → 0 < now

/-- Besides, whenever the scheduler's verdict comes out true, the counter is still
zero and no worker is back from a fiber that it has yet to put back. -/
structure Orderly (s : State n) (label : Label n) : Prop extends Closed s label where
  verdict : ∀ w, label = .idle w .proceed → s.loop w = .judging → s.core.verdict = true →
    s.registry.pendingEventCount = 0 ∧ ∀ v, ¬ Requeuing s.core v

/-- The loop of the worker has had the verdict. -/
def Leaving (s : State n) (w : Fin n) : Prop :=
  (s.core.worker w).idleOver = true ∨ s.loop w = .rechecking ∨ s.loop w = .finished

/-- The loop of the worker has ended. -/
def Finished (s : State n) (w : Fin n) : Prop :=
  (s.core.worker w).idleOver = true ∨ s.loop w = .finished

theorem Finished.leaving {w : Fin n} (finished : Finished s w) : Leaving s w :=
  finished.imp_right .inr

/-- Once every loop has had the verdict nothing is left but timers, and once every
loop has ended no timer is. -/
structure Drained (s : State n) : Prop where
  quiet : (∀ w, Leaving s w) → Quiet s.core
  pending : (∀ w, Leaving s w) → s.registry.pendingEventCount = 0
  timers : (∀ w, Finished s w) → s.timers.timers = []

/-- Only the idle loop of a worker changes who is leaving. -/
theorem step_idleOver {core after : Scheduler.State n} {label : Scheduler.Label n}
    (other : ∀ w ended, label ≠ .idle w ended) (stepped : Scheduler.step tid core label = some after) (v : Fin n) :
    (after.worker v).idleOver = (core.worker v).idleOver := by
  have update {w : Fin n} {self : Scheduler.Worker} (kept : self.idleOver = (core.worker w).idleOver) :
      (Function.update core.worker w self v).idleOver = (core.worker v).idleOver := by
    by_cases same : v = w
    · subst same
      simpa using kept
    · simp [same]
  cases label with
  | schedule caller fc thread =>
    obtain ⟨-, -, rfl⟩ := Scheduler.step_schedule stepped
    rw [Scheduler.accept_worker]
  | scheduleAll caller fcs =>
    obtain ⟨-, -, rfl⟩ := Scheduler.step_scheduleAll stepped
    rw [Scheduler.acceptAll_worker]
  | newFiber caller =>
    cases Scheduler.step_newFiber stepped
    rfl
  | setAutoStop =>
    cases stepped
    rfl
  | setStopping =>
    cases stepped
    rfl
  | scan w =>
    obtain ⟨-, ⟨ft, left, -, rfl⟩ | ⟨-, rfl⟩⟩ := Scheduler.step_scan stepped
    all_goals exact update rfl
  | branch w =>
    obtain ⟨f, thread, -, rfl⟩ | ⟨c, thread, f, -, -, -, rfl⟩ | ⟨c, thread, -, -, rfl⟩ |
      ⟨-, ⟨rfl, -⟩ | ⟨rfl, -⟩⟩ := Scheduler.step_branch stepped
    all_goals exact update rfl
  | task w act =>
    obtain ⟨stage, branch, f, effect, -, -, -, rfl⟩ := Scheduler.step_task stepped
    exact update rfl
  | idle w ended => exact absurd rfl (other w ended)

/-- While every loop has had the verdict, no section is open, no event is
registered and nothing can be added. -/
theorem Drained.still (drained : Drained s) (level : Level s) (leaving : ∀ w, Leaving s w) :
    Quiet s.core ∧ s.core.autoStop = true ∧ s.registry.total = 0 ∧ s.sections = [] :=
  have quiet := drained.quiet leaving
  ⟨quiet, ((Scheduler.verdict_eq_true_iff _).mp quiet.verdict).1, level.clear (drained.pending leaving)⟩

/-- A section on contexts without events, called by no worker and not to add
one, does nothing. -/
theorem enter_idle {ctl : EpollCall → Bool} {id : Nat} {op : Op SchedulerId FiberId Unit}
    (vacant : s.registry.total = 0) (silent : Label.adds (.onContext (n := n) none ctl id op) = false)
    (entered : s.enter none ctl id op = some next) :
    next.registry.pendingEventCount = s.registry.pendingEventCount := by
  obtain ⟨ctx, out, found, -, effect, rfl⟩ := enter_eq_some entered
  have clear := (Registry.total_eq_zero_iff s.registry).mp vacant ctx (List.mem_of_getElem? found)
  cases effect with
  | refused => simp
  | added => cases silent
  | deleted registered =>
    rw [clear] at registered
    cases registered
  | @triggered op mask returned _ ready =>
    have nothing : FdContext.chosen mask = [] := by
      refine List.eq_nil_iff_forall_not_mem.mpr fun event member => ?_
      have registered := (ready event member).1
      rw [clear] at registered
      cases registered
    simp [nothing]

/-- A worker whose loop goes on keeps the others from being the last. -/
theorem Drained.busy {w : Fin n} (busy : ¬ Leaving next w) : Drained next :=
  ⟨fun leaving => absurd (leaving w) busy, fun leaving => absurd (leaving w) busy,
    fun finished => absurd (finished w).leaving busy⟩

theorem Drained.idle (small : n < 2 ^ 64) {w : Fin n} {input : Input} (sound : Sound s) (drained : Drained s)
    (orderly : Orderly s (.idle w input)) (idling : (s.core.worker w).pc = .idle)
    (went : s.idle tid w (s.loop w) input = some next) : Drained next := by
  have awake := (sound.awake w).1 idling
  have busy (loop : Loop) (on : loop ≠ .rechecking ∧ loop ≠ .finished) {after : State n}
      (workers : after.core.worker = s.core.worker) (loops : after.loop = Function.update s.loop w loop) :
      Drained after := by
    refine Drained.busy (w := w) ?_
    rintro (ended | had | had)
    · rw [workers, awake] at ended
      cases ended
    · rw [loops, Function.update_self] at had
      exact on.1 had
    · rw [loops, Function.update_self] at had
      exact on.2 had
  obtain ⟨current, loop, turn⟩ := turn_of_idle went
  cases turn with
  | timers now => exact busy _ (by split <;> decide) rfl rfl
  | count => exact busy _ (by split <;> decide) rfl rfl
  | judge =>
    cases verdict : s.core.verdict with
    | false => exact busy .polling ⟨nofun, nofun⟩ rfl rfl
    | true =>
      obtain ⟨pending, settled⟩ := orderly.verdict w rfl loop verdict
      have inactive : Scheduler.activeWorkers s.core = 0 := by
        have zero := ((Scheduler.verdict_eq_true_iff _).mp verdict).2.2.2
        rwa [sound.counted, wrap64_of_lt (Nat.lt_of_le_of_lt (Scheduler.activeWorkers_le _) small)] at zero
      refine ⟨fun _ => ⟨verdict, (Scheduler.activeWorkers_eq_zero_iff _).mp inactive, settled⟩, fun _ => pending,
        fun finished => ?_⟩
      obtain ended | ended := finished w
      · rw [show (s.core.worker w).idleOver = true from ended] at awake
        cases awake
      · simp [State.setLoop] at ended
  | recheck now =>
    cases empty : s.noTimer now with
    | false => exact busy .polling ⟨nofun, nofun⟩ rfl rfl
    | true =>
      have before (v : Fin n) (leaving : (s.core.worker v).idleOver = true ∨
          Function.update s.loop w .finished v = .rechecking ∨ Function.update s.loop w .finished v = .finished) :
          Leaving s v := by
        by_cases same : v = w
        · exact .inr (.inl (same ▸ loop))
        · simpa [Leaving, same] using leaving
      refine ⟨fun leaving => drained.quiet fun v => before v (leaving v),
        fun leaving => drained.pending fun v => before v (leaving v), fun _ => ?_⟩
      exact sound.bounded.getNextTimer_never (orderly.clock w now rfl) (eq_of_beq empty)
  | poll reports => exact busy (.collecting reports) ⟨nofun, nofun⟩ rfl rfl
  | expire reports shape now => exact busy (.submitting _ reports) ⟨nofun, nofun⟩ rfl rfl
  | submit cbs reports => exact busy (.reporting reports) ⟨nofun, nofun⟩ (Scheduler.acceptAll_worker _ _) rfl
  | @report id reported rest ctl entered inside =>
    obtain ⟨ctx, out, -, -, -, rfl⟩ := enter_eq_some inside
    exact busy (.reporting rest) ⟨nofun, nofun⟩ rfl rfl
  | again left =>
    obtain ⟨-, rfl⟩ := Scheduler.step_idle left
    refine Drained.busy (w := w) ?_
    simp [Leaving, State.setLoop, Scheduler.State.setWorker, awake]
  | @leave core left =>
    have before (v : Fin n) (ended : (core.worker v).idleOver = true) : (s.core.worker v).idleOver = true ∨ v = w := by
      obtain ⟨-, rfl⟩ := Scheduler.step_idle left
      by_cases same : v = w
      · exact .inr same
      · exact .inl (by simpa [Scheduler.State.setWorker, same] using ended)
    have leavingBefore (leaving : ∀ v, Leaving { s with core := core } v) (v : Fin n) : Leaving s v := by
      obtain ended | had := leaving v
      · exact (before v ended).imp_right fun same => .inr (by rw [same, loop])
      · exact .inr had
    refine ⟨fun leaving => Scheduler.step_quiet (drained.quiet (leavingBefore leaving)) (fun outside => by cases outside) left,
      fun leaving => drained.pending (leavingBefore leaving), fun finished => drained.timers fun v => ?_⟩
    obtain ended | had := finished v
    · exact (before v ended).imp_right fun same => by rw [same, loop]
    · exact .inr had

theorem Drained.step (small : n < 2 ^ 64) {label : Label n} (sound : Sound s) (drained : Drained s)
    (orderly : Orderly s label) (stepped : step tid s label = some next) : Drained next := by
  cases label with
  | core label =>
    obtain ⟨other, core, went, rfl⟩ := step_core stepped
    have before (w : Fin n) (leaving : Leaving { s with core := core } w) : Leaving s w :=
      leaving.imp_left fun ended => (step_idleOver other went w).symm.trans ended
    refine ⟨fun leaving => ?_, fun leaving => drained.pending fun w => before w (leaving w), fun finished => ?_⟩
    · exact Scheduler.step_quiet (drained.quiet fun w => before w (leaving w)) orderly.adds went
    · exact drained.timers fun w => (finished w).imp_left fun ended => (step_idleOver other went w).symm.trans ended
  | timer caller label =>
    obtain ⟨able, timers, went, rfl⟩ := step_timer stepped
    refine ⟨drained.quiet, drained.pending, fun finished => ?_⟩
    obtain ⟨quiet, stopped, -, -⟩ := drained.still sound.level fun w => (finished w).leaving
    refine (TimerManager.step_keeps sound.bounded went).2 (drained.timers finished) ?_
    rintro shape now a ms cb recurring rfl
    cases quiet.no_calls able
    have running := orderly.adds rfl
    rw [stopped] at running
    cases running
  | grow caller fd =>
    obtain ⟨registry, id, grown, -, rfl⟩ := step_grow stepped
    obtain ⟨table, fresh, -, -, rfl, -⟩ := Registry.grow_ok grown
    exact ⟨drained.quiet, drained.pending, drained.timers⟩
  | onContext caller ctl id op =>
    obtain ⟨able, -, entered⟩ := step_onContext stepped
    have parts : next.core = s.core ∧ next.loop = s.loop ∧ next.timers = s.timers := by
      obtain ⟨ctx, out, -, -, -, rfl⟩ := enter_eq_some entered
      exact ⟨rfl, rfl, rfl⟩
    obtain ⟨core, loop, timers⟩ := parts
    have before (w : Fin n) (leaving : Leaving next w) : Leaving s w := by rwa [Leaving, core, loop] at leaving
    refine ⟨fun leaving => ?_, fun leaving => ?_, fun finished => ?_⟩
    · rw [core]
      exact drained.quiet fun w => before w (leaving w)
    · obtain ⟨quiet, stopped, vacant, -⟩ := drained.still sound.level fun w => before w (leaving w)
      cases quiet.no_calls able
      have silent : Label.adds (.onContext (n := n) none ctl id op) = false := by
        rw [← Bool.not_eq_true]
        intro adds
        have running := orderly.adds adds
        rw [stopped] at running
        cases running
      rw [enter_idle vacant silent entered]
      exact drained.pending fun w => before w (leaving w)
    · rw [timers]
      exact drained.timers fun w => by
        have ended := finished w
        rwa [Finished, core, loop] at ended
  | goOn place =>
    obtain ⟨owner, id, handed, rest, went⟩ := goOn_eq_some stepped
    have parts : (∀ w, next.core.worker w = s.core.worker w) ∧ next.loop = s.loop ∧ s.sections ≠ [] := by
      obtain ⟨found, rfl⟩ | ⟨found, rfl⟩ := went
      · refine ⟨fun w => ?_, ?_, fun none => ?_⟩
        · simp only [State.hand]
          split
          next => rw [Scheduler.accept_worker]
          next => rfl
        · simp only [State.hand]
          split <;> rfl
        · rw [none] at found
          cases found
      · refine ⟨fun w => rfl, rfl, fun none => ?_⟩
        rw [none] at found
        cases found
    obtain ⟨workers, loop, some⟩ := parts
    have held (leaving : ∀ w, Leaving next w) : False :=
      some (drained.still sound.level fun w => by
        have had := leaving w
        rwa [Leaving, workers, loop] at had).2.2.2
    exact ⟨fun leaving => (held leaving).elim, fun leaving => (held leaving).elim,
      fun finished => (held fun w => (finished w).leaving).elim⟩
  | idle w input =>
    obtain ⟨idling, went⟩ := step_idle stepped
    exact drained.idle small sound orderly idling went

theorem sound_of_reaches {allowed : State n → Label n → Prop} (reached : (machine tid).Reaches allowed s) :
    Sound s :=
  reached.invariant (fun s begins => by rw [show s = State.initial n from begins]; exact sound_initial)
    fun _ _ _ sound _ stepped => sound.step stepped

theorem drained_of_reaches (some : 0 < n) (small : n < 2 ^ 64) (reached : (machine tid).Reaches Orderly s) :
    Drained s := by
  refine reached.invariant_of (Q := Sound) (fun _ => sound_of_reaches) (fun s begins => ?_)
    fun _ _ _ sound drained orderly stepped => drained.step small sound orderly stepped
  rw [show s = State.initial n from begins]
  refine Drained.busy (w := ⟨0, some⟩) ?_
  simp [Leaving, State.initial, Scheduler.State.initial]

/-- In an orderly run nothing is left in the queue, in the timers or in the
contexts when the last worker has left. -/
theorem nothing_abandoned (some : 0 < n) (small : n < 2 ^ 64) (reached : (machine tid).Reaches Orderly s)
    (left : ∀ w, (s.core.worker w).pc = .exited) :
    s.core.fibers = [] ∧ s.timers.timers = [] ∧ s.registry.pendingEventCount = 0 ∧
      ∀ ctx ∈ s.registry.contexts, ∀ event, covers ctx.events event = false := by
  have sound := sound_of_reaches reached
  have drained := drained_of_reaches some small reached
  have finished (w : Fin n) : Finished s w := .inl ((sound.awake w).2 (left w))
  obtain ⟨quiet, -, vacant, -⟩ := drained.still sound.level fun w => (finished w).leaving
  exact ⟨((Scheduler.verdict_eq_true_iff _).mp quiet.verdict).2.2.1, drained.timers finished,
    drained.pending fun w => (finished w).leaving, (Registry.total_eq_zero_iff _).mp vacant⟩

/-- A test of `Closed` for replays. -/
def closedTest (s : State n) (label : Label n) : Bool :=
  (!label.adds || !s.core.autoStop) &&
    match label with
    | .idle _ (.clock now) => 0 < now
    | _ => true

theorem closed_of_test {label : Label n} (passed : closedTest s label = true) : Closed s label := by
  obtain ⟨adds, clock⟩ := Bool.and_eq_true_iff.mp passed
  refine ⟨fun added => by simpa [added] using adds, fun w now same => ?_⟩
  subst same
  exact of_decide_eq_true clock

/-- A test of `Orderly` for replays: no worker is behind the decrement at all. -/
def orderlyTest (s : State n) (label : Label n) : Bool :=
  closedTest s label &&
    match label with
    | .idle w .proceed =>
        !(s.loop w == .judging && s.core.verdict) || s.registry.pendingEventCount == 0 &&
          decide (∀ v, (s.core.worker v).pc = .idle)
    | _ => true

theorem orderly_of_test {label : Label n} (passed : orderlyTest s label = true) : Orderly s label := by
  obtain ⟨closed, verdict⟩ := Bool.and_eq_true_iff.mp passed
  refine ⟨closed_of_test closed, fun w same judging true => ?_⟩
  subst same
  simp only [judging, true, beq_self_eq_true, Bool.and_self, Bool.not_true, Bool.false_or, Bool.and_eq_true,
    beq_iff_eq, decide_eq_true_eq] at verdict
  refine ⟨verdict.1, fun v => ?_⟩
  rintro ⟨branch, f, -, ⟨settling, -⟩ | requeuing⟩
  · cases (verdict.2 v).symm.trans settling
  · cases (verdict.2 v).symm.trans requeuing

/-- A timer and an event from outside, both served, and then `stop()`. -/
def servedThenStopped : List (Label 1) :=
  [.timer none (.addTimer .spine 1 9 1 (some ()) false),
   .onContext none (fun _ => true) 3 (.addEvent ⟨some 0, 0, true⟩ 3 .read (some ())),
   .core (.scan 0), .core (.branch 0), .idle 0 (.clock 1), .idle 0 (.reports [(3, EPOLLIN)]),
   .idle 0 (.expire .spine 2), .idle 0 .proceed, .idle 0 (.answer fun _ => true), .goOn 0, .goOn 0,
   .idle 0 .proceed] ++
  (List.replicate 2 [.core (.scan 0), .core (.branch 0), .core (.task 0 .proceed), .core (.task 0 .proceed),
    .core (.task 0 .returns), .core (.task 0 .proceed), .core (.task 0 .proceed), .core (.task 0 .proceed),
    .core (.task 0 .proceed)]).flatten ++
  [.core .setAutoStop, .core .setStopping, .core (.scan 0), .core (.branch 0), .idle 0 (.clock 3), .idle 0 .proceed,
   .idle 0 .proceed, .idle 0 (.clock 3), .idle 0 .proceed, .core (.scan 0), .core (.branch 0)]

theorem nothing_abandoned_servedThenStopped :
    ∃ s, (machine fun _ : Fin 1 => 1).Reaches Orderly s ∧ s.core.finished = [0, 1] ∧
      s.core.fibers = [] ∧ s.timers.timers = [] ∧ s.registry.pendingEventCount = 0 ∧
        ∀ ctx ∈ s.registry.contexts, ∀ event, covers ctx.events event = false := by
  obtain ⟨s, reached, test⟩ := System.reaches_test (machine fun _ : Fin 1 => 1) Orderly orderlyTest
    (fun _ _ => orderly_of_test) (State.initial 1) rfl servedThenStopped
    (fun s => s.core.finished = [0, 1] ∧ ∀ w, (s.core.worker w).pc = .exited) (by decide)
  obtain ⟨finished, left⟩ := of_decide_eq_true test
  exact ⟨s, reached, finished, nothing_abandoned (by decide) (by decide) reached left⟩

/-- The worker has read that no event is pending; then one is registered, and
`stop()` is called. The worker leaves, and the event stays. -/
def stoppedInBetween : List (Label 1) :=
  [.core (.scan 0), .core (.branch 0), .idle 0 (.clock 1), .idle 0 .proceed,
   .onContext none (fun _ => true) 3 (.addEvent ⟨none, 0, true⟩ 3 .read (some ())), .core .setAutoStop, .core .setStopping, .idle 0 .proceed, .idle 0 (.clock 1), .idle 0 .proceed,
   .core (.scan 0), .core (.branch 0)]

theorem event_abandoned :
    ∃ s, (machine fun _ : Fin 1 => 1).Reaches Closed s ∧ (∀ w, (s.core.worker w).pc = .exited) ∧
      s.registry.pendingEventCount = 1 := by
  obtain ⟨s, reached, test⟩ := System.reaches_test (machine fun _ : Fin 1 => 1) Closed closedTest
    (fun _ _ => closed_of_test) (State.initial 1) rfl stoppedInBetween
    (fun s => (∀ w, (s.core.worker w).pc = .exited) ∧ s.registry.pendingEventCount = 1) (by decide)
  obtain ⟨left, pending⟩ := of_decide_eq_true test
  exact ⟨s, reached, left, pending⟩

end HpsSf.IOManager
