import HpsSf.Scheduler.Lifetime

/-! Suspended fibers that nothing points to.

A fiber in a yield has pointers to itself on its stack. When the last other one is
gone nobody can schedule it, and it stays as it is.
-/

set_option autoImplicit false

namespace HpsSf.Scheduler.Owned
open Foundation Foundation.Shared

variable {n : Nat} {tid : Fin n → Int} {next : State n} {o : Owned n} {label : Label n} {f : FiberId} {w : Fin n}

/-- Neither `run` nor user code has a pointer to the fiber, which exists. -/
structure Lost (f : FiberId) (o : Owned n) : Prop where
  made : f < o.state.nextFiber
  unowned : owned f o.state = 0
  unhandled : o.handles f = 0

theorem Lost.owns (lost : Lost f o) (w : Fin n) : (o.state.worker w).owns f = 0 :=
  Nat.le_zero.mp (lost.unowned ▸ owns_le_owned o.state f w)

theorem Lost.unnamed (lost : Lost f o) (caller : Option (Fin n)) : o.names caller f = false := by
  have nobody (w : Fin n) : (o.state.worker w).within f = false := by
    rw [Worker.within, beq_eq_false_iff_ne]
    exact fun on => absurd (lost.owns w) (Nat.ne_of_gt (Worker.owns_pos on))
  cases caller <;> simp [names, lost.unhandled, nobody]

/-- A worker that points to no more than before, with the queue. -/
theorem Lost.update (lost : Lost f o) {self : Worker}
    (worker : next.worker = Function.update o.state.worker w self)
    (pointers : queued f next.fibers + self.owns f ≤ queued f o.state.fibers + (o.state.worker w).owns f) :
    owned f next = 0 := by
  have change := owned_update next worker f
  have unowned := lost.unowned
  omega

theorem Lost.step (lost : Lost f o) (permits : o.permits label = true)
    (stepped : step tid o.state label = some next) :
    owned f next = 0 ∧ next.heap f = o.state.heap f := by
  cases label with
  | schedule caller fc thread =>
    obtain ⟨-, -, rfl⟩ := step_schedule stepped
    refine ⟨?_, congrFun (accept_heap o.state thread fc) f⟩
    rw [owned_accept, lost.unowned]
    cases fc with
    | fiber g =>
      have other : g ≠ f := by
        rintro rfl
        cases (lost.unnamed caller).symm.trans permits
      simp [Call.wakes, other]
    | callback | empty => rfl
  | scheduleAll caller fcs =>
    obtain ⟨-, -, rfl⟩ := step_scheduleAll stepped
    have given := given_of_permits permits f
    rw [lost.unhandled] at given
    refine ⟨?_, congrFun (acceptAll_heap o.state fcs) f⟩
    rw [owned_acceptAll, lost.unowned, Nat.le_zero.mp given]
  | newFiber caller =>
    have made := step_newFiber stepped
    have old := Nat.ne_of_lt lost.made
    exact ⟨(owned_of_same (by rw [made]; rfl) (by rw [made]; rfl) f).trans lost.unowned,
      by simp [made, State.setFiber, old]⟩
  | setAutoStop | setStopping =>
    cases stepped
    exact ⟨lost.unowned, rfl⟩
  | scan w =>
    obtain ⟨pc, ⟨ft, left, picked, state⟩ | ⟨-, state⟩⟩ := step_scan stepped
    · have moved := queued_pick picked f
      refine ⟨lost.update (w := w) (by rw [state]; rfl) ?_, by rw [state]; rfl⟩
      simp only [state, Worker.owns, Worker.refs, Pc.refs, pc, reduceCtorEq, if_false]
      omega
    · refine ⟨lost.update (w := w) (by rw [state]; rfl) ?_, by rw [state]; rfl⟩
      simp [state, State.setWorker, Worker.owns, Worker.refs, Pc.refs, pc]
  | branch w =>
    have none := lost.owns w
    obtain ⟨g, thread, pc, state⟩ | ⟨c, thread, g, pc, spare, -, state⟩ | ⟨c, thread, pc, spare, state⟩ |
      ⟨pc, ⟨state, -⟩ | ⟨state, -⟩⟩ := step_branch stepped
    case inr.inl =>
      have other : f ≠ g := by
        rintro rfl
        simp [Worker.owns, Worker.refs, pc, spare] at none
      refine ⟨lost.update (w := w) (by rw [state]; rfl) ?_, by simp [state, State.setWorker, State.setFiber, other]⟩
      simp [state, State.setWorker, State.setFiber, Worker.owns, Worker.refs, Pc.refs, pc]
    case inr.inr.inl =>
      have old := Nat.ne_of_lt lost.made
      refine ⟨lost.update (w := w) (by rw [state]; rfl) ?_, by simp [state, State.setWorker, State.setFiber, old]⟩
      simp [state, State.setWorker, State.setFiber, Worker.owns, Worker.refs, Pc.refs, pc, spare, old.symm]
    all_goals
      refine ⟨lost.update (w := w) (by rw [state]; rfl) ?_, by rw [state]; rfl⟩
      simp [state, State.setWorker, Worker.owns, Worker.refs, Pc.refs, pc]
  | task w act =>
    obtain ⟨stage, branch, g, effect, running, on, advanced, rfl⟩ := step_task stepped
    have other : f ≠ g := by
      rintro rfl
      have here : (o.state.worker w).stageOf f = some stage := by rw [Worker.stageOf_task running on, if_pos rfl]
      exact absurd (lost.owns w) (Nat.ne_of_gt (Worker.owns_pos here))
    exact ⟨(owned_apply_of_ne (tid w) running on advanced other).1.trans lost.unowned, Function.update_of_ne other ..⟩
  | idle w ended =>
    obtain ⟨pc, state⟩ := step_idle stepped
    refine ⟨lost.update (w := w) (by rw [state]; rfl) ?_, by rw [state]; rfl⟩
    simp [state, State.setWorker, Worker.owns, Worker.refs, Pc.refs, pc]

/-- What nothing points to is not pointed to again, and not touched. -/
theorem Lost.attempt (lost : Lost f o) {move : Move n} {after : Owned n}
    (attempted : o.attempt tid move = some (.ok after)) :
    Lost f after ∧ after.state.heap f = o.state.heap f := by
  cases move with
  | run label =>
    simp only [Owned.attempt] at attempted
    split at attempted
    next permits =>
      split at attempted
      next => cases attempted
      next =>
        obtain ⟨next, stepped, counted⟩ := Option.map_eq_some_iff.mp attempted
        obtain ⟨unowned, fiber⟩ := lost.step permits stepped
        obtain ⟨rfl, handles⟩ := count_ok (f := f) counted
        have made := Nat.lt_of_lt_of_le lost.made (step_nextFiber stepped)
        exact ⟨⟨made, unowned, Nat.le_zero.mp (lost.unhandled ▸ handles lost.made)⟩, fiber⟩
    next => cases attempted
  | copy caller g =>
    simp only [Owned.attempt] at attempted
    split at attempted
    next named =>
      have other : f ≠ g := by
        rintro rfl
        cases (lost.unnamed caller).symm.trans named
      obtain ⟨-, -, same⟩ := eq_ok_of_bind (Option.some.inj attempted)
      cases same
      exact ⟨⟨lost.made, lost.unowned, by simp [other, lost.unhandled]⟩, rfl⟩
    next => cases attempted
  | drop g =>
    simp only [Owned.attempt] at attempted
    split at attempted
    next held =>
      have other : f ≠ g := by
        rintro rfl
        exact absurd lost.unhandled (Nat.ne_of_gt held)
      obtain ⟨_, -, same⟩ := eq_ok_of_bind (Option.some.inj attempted)
      cases same
      exact ⟨⟨lost.made, lost.unowned, by simp [other, lost.unhandled]⟩, rfl⟩
    next => cases attempted

end HpsSf.Scheduler.Owned
