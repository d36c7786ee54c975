import HpsSf.Scheduler.Ownership

/-! When fibers are destroyed.

Over whole runs the number of pointers to a fiber is what the queue, the workers,
user code and the fiber's own stack have, so that none of them is left with a
pointer to a fiber that is gone.
-/

set_option autoImplicit false

namespace HpsSf.Scheduler
open Foundation Foundation.Shared

variable {n : Nat} {s next : State n} {f : FiberId} {w : Fin n}

theorem Worker.upcoming_owns {worker : Worker} (next : worker.upcoming = some f) :
    0 < worker.owns f ∧ worker.stageOf f = none := by
  unfold Worker.upcoming at next
  split at next
  next g thread pc =>
    cases next
    simp [Worker.owns, Worker.refs, Pc.refs, Worker.stageOf, pc]
  next pc => simp [Worker.owns, Worker.refs, Pc.refs, Worker.stageOf, pc, next]
  next => cases next

namespace Owned

variable {tid : Fin n → Int} {o : Owned n} {label : Label n}

structure Sound (o : Owned n) : Prop where
  kept : ∀ f, Kept o.state f (o.uses f) (o.handles f)
  unmade : ∀ f, o.state.nextFiber ≤ f →
    owned f o.state = 0 ∧ o.handles f = 0 ∧ (o.state.heap f).context = .fresh
  recycles : ∀ w stage branch, (o.state.worker w).pc = .task stage branch → stage = .recycle → branch = .callback

theorem owned_initial (n : Nat) (f : FiberId) : owned f (State.initial n) = 0 := by
  have none : tally (fun w => ((State.initial n).worker w).owns f) = 0 := (tally_eq_zero_iff _).mpr fun _ => rfl
  rw [owned, none]
  rfl

theorem sound_initial (n : Nat) : (initial n).Sound where
  kept f := .off (fun _ => rfl) rfl (by rw [initial, owned_initial]; rfl)
  unmade f _ := ⟨owned_initial n f, rfl, rfl⟩
  recycles _ _ _ pc := by cases pc

theorem Sound.accessed (sound : o.Sound) (member : f ∈ accessed tid o.state label) : 0 < o.uses f := by
  refine (sound.kept f).alive (.inl ?_)
  have pointed (w : Fin n) (owns : 0 < (o.state.worker w).owns f) : 0 < owned f o.state :=
    Nat.lt_of_lt_of_le owns (owns_le_owned o.state f w)
  cases label with
  | scan w =>
    simp only [Owned.accessed] at member
    split at member
    next =>
      obtain ⟨it, looked, read⟩ := List.mem_filterMap.mp member
      have queue : it ∈ o.state.fibers := List.mem_of_mem_take looked
      have named : it.task = .fiber f := by
        unfold readBy at read
        split at read
        next => cases read
        next =>
          split at read
          next g same => exact same.trans (congrArg Task.fiber (Option.some.inj read))
          next => cases read
      have present : 0 < queued f o.state.fibers := List.countP_pos_iff.mpr ⟨it, queue, by simp [named]⟩
      rw [owned]
      omega
    next => cases member
  | branch w => exact pointed w (Worker.upcoming_owns (Option.mem_toList.mp member)).1
  | task w act =>
    simp only [Owned.accessed] at member
    split at member
    next stage branch running =>
      have on := Option.mem_toList.mp member
      exact pointed w (Worker.owns_pos (by rw [Worker.stageOf_task running on, if_pos rfl]))
    next => cases member
  | _ => cases member

/-- Nothing but the records of workers that are on no fiber has changed, and entries for pointers of workers. -/
theorem Sound.still (sound : o.Sound) (fibers : ∀ f, owned f next = owned f o.state)
    (workers : ∀ w f, (next.worker w).stageOf f = (o.state.worker w).stageOf f)
    (heap : next.heap = o.state.heap) (made : next.nextFiber = o.state.nextFiber)
    (pc : ∀ w stage branch, (next.worker w).pc = .task stage branch → (o.state.worker w).pc = .task stage branch) :
    Sound { o with state := next } where
  kept f := (sound.kept f).transfer (fun w => workers w f) (congrFun heap f) (by rw [fibers])
  unmade f new := by
    rw [fibers, heap]
    exact sound.unmade f (made ▸ new)
  recycles w stage branch running := sound.recycles w stage branch (pc w stage branch running)

/-- A worker that is on no fiber, before or after. -/
theorem Sound.turns_off (sound : o.Sound) {self : Worker}
    (worker : next.worker = Function.update o.state.worker w self)
    (before : ∀ stage branch, (o.state.worker w).pc ≠ .task stage branch)
    (after : ∀ stage branch, self.pc ≠ .task stage branch)
    (pointers : ∀ f, queued f next.fibers + self.owns f = queued f o.state.fibers + (o.state.worker w).owns f)
    (heap : next.heap = o.state.heap) (made : next.nextFiber = o.state.nextFiber) :
    Sound { o with state := next } := by
  have off {worker : Worker} (elsewhere : ∀ stage branch, worker.pc ≠ .task stage branch) (f : FiberId) :
      worker.stageOf f = none := by
    unfold Worker.stageOf
    split
    next stage branch pc => exact absurd pc (elsewhere stage branch)
    next => rfl
  refine sound.still (fun f => ?_) (fun v f => ?_) heap made fun v stage branch running => ?_
  · have change := owned_update next worker f
    have same := pointers f
    omega
  · rw [worker]
    by_cases mover : v = w
    · subst mover
      rw [Function.update_self, off after, off before]
    · rw [Function.update_of_ne mover]
  · rw [worker] at running
    by_cases mover : v = w
    · subst mover
      rw [Function.update_self] at running
      exact absurd running (after stage branch)
    · rwa [Function.update_of_ne mover] at running

theorem Sound.schedule (sound : o.Sound) {caller : Option (Fin n)} {fc : Call} {thread : Int}
    (known : o.state.knows fc = true) :
    ∃ after, o.count (o.state.accept thread fc) (.schedule caller fc thread) = .ok after ∧ after.Sound := by
  have grown (f : FiberId) := owned_accept o.state thread fc f
  cases fc with
  | fiber g =>
    have older : g < o.state.nextFiber := of_decide_eq_true known
    refine ⟨_, rfl, fun f => ?_, fun f new => ?_, sound.recycles⟩
    · have more := grown f
      rw [Call.wakes] at more
      have kept : Kept (o.state.accept thread (.fiber g)) f (retain o.uses g f) (o.handles f) := by
        refine (sound.kept f).transfer ?_ ?_ ?_
        · exact fun _ => rfl
        · rfl
        by_cases same : g = f
        · subst same
          rw [if_pos rfl] at more
          rw [retain_self]
          omega
        · rw [if_neg same] at more
          rw [retain_of_ne (Ne.symm same)]
          omega
      exact kept
    · have other : g ≠ f := Nat.ne_of_lt (Nat.lt_of_lt_of_le older new)
      have more := grown f
      rw [Call.wakes, if_neg other] at more
      exact ⟨more.trans (sound.unmade f new).1, (sound.unmade f new).2⟩
  | callback => exact ⟨_, rfl, sound.still grown (fun _ _ => rfl) rfl rfl fun _ _ _ running => running⟩
  | empty => exact ⟨_, rfl, sound.still grown (fun _ _ => rfl) rfl rfl fun _ _ _ running => running⟩

/-- User code has all the pointers of a batch. -/
theorem given_of_permits {caller : Option (Fin n)} {fcs : List Call}
    (permits : o.permits (.scheduleAll caller fcs) = true) (f : FiberId) :
    fcs.count (.fiber f) ≤ o.handles f := by
  by_cases member : Call.fiber f ∈ fcs
  · exact of_decide_eq_true (List.all_eq_true.mp permits _ member)
  · rw [List.count_eq_zero_of_not_mem member]
    exact Nat.zero_le _

theorem Sound.scheduleAll (sound : o.Sound) {caller : Option (Fin n)} {fcs : List Call}
    (permits : o.permits (.scheduleAll caller fcs) = true) :
    ∃ after, o.count (fcs.foldl (fun s fc => s.accept (-1) fc) o.state) (.scheduleAll caller fcs) = .ok after ∧
      after.Sound := by
  have given (f : FiberId) := given_of_permits permits f
  have grown (f : FiberId) := owned_acceptAll o.state fcs f
  refine ⟨_, rfl, fun f => ?_, fun f new => ?_, fun w stage branch running => ?_⟩
  · refine (sound.kept f).transfer (fun w => ?_) (congrFun (acceptAll_heap o.state fcs) f) ?_
    · rw [acceptAll_worker]
    · have more := grown f
      have enough := given f
      simp only
      omega
  · simp only [acceptAll_nextFiber] at new
    obtain ⟨unowned, unhandled, context⟩ := sound.unmade f new
    have none : fcs.count (.fiber f) = 0 := Nat.le_zero.mp (unhandled ▸ given f)
    simp only [acceptAll_heap]
    exact ⟨by rw [grown, unowned, none], by rw [unhandled, none], context⟩
  · simp only [acceptAll_worker] at running
    exact sound.recycles w stage branch running

/-- A fiber that is made has one pointer to it. -/
theorem Sound.unborn (sound : o.Sound) : (∀ w, (o.state.worker w).stageOf o.state.nextFiber = none) ∧
    owned o.state.nextFiber o.state = 0 ∧ o.handles o.state.nextFiber = 0 := by
  obtain ⟨unowned, unhandled, -⟩ := sound.unmade _ (Nat.le_refl o.state.nextFiber)
  refine ⟨fun w => ?_, unowned, unhandled⟩
  by_contra on
  obtain ⟨stage, on⟩ := Option.ne_none_iff_exists'.mp on
  have pointed := Nat.lt_of_lt_of_le (Worker.owns_pos on) (owns_le_owned o.state _ w)
  omega

theorem Sound.newFiber (sound : o.Sound) {caller : Option (Fin n)}
    (stepped : step tid o.state (.newFiber caller) = some next) :
    ∃ after, o.count next (.newFiber caller) = .ok after ∧ after.Sound := by
  have made := step_newFiber stepped
  have heap : next.heap = Function.update o.state.heap o.state.nextFiber (Fiber.create none false) := by rw [made]; rfl
  have workers : next.worker = o.state.worker := by rw [made]; rfl
  have pointers (f : FiberId) : owned f next = owned f o.state := owned_of_same workers (by rw [made]; rfl) f
  have later : next.nextFiber = o.state.nextFiber + 1 := by rw [made]
  obtain ⟨nobody, unowned, -⟩ := sound.unborn
  refine ⟨_, rfl, fun f => ?_, fun f new => ?_, by rw [workers]; exact sound.recycles⟩
  · by_cases same : f = o.state.nextFiber
    · subst same
      refine .off (by rw [workers]; exact nobody) ?_ ?_
      · simp [heap, Settled, Fiber.create]
      · simp [heap, pointers, unowned, Fiber.create, frames]
    · refine (sound.kept f).transfer (by simp [workers]) (by simp [heap, same]) ?_
      simp [pointers, same]
  · have other : f ≠ o.state.nextFiber := by
      rintro rfl
      simp [later] at new
    have older : o.state.nextFiber ≤ f := Nat.le_trans (by rw [later]; exact Nat.le_succ _) new
    simpa [pointers, heap, other] using sound.unmade f older

/-- A worker that is on no fiber begins with one that no other is on. -/
theorem Sound.begins (sound : o.Sound) (self : Worker) (branch : Branch) (fiber : Fiber)
    {g : FiberId} (before : (o.state.worker w).upcoming = some g)
    (alone : ∀ v, v ≠ w → (o.state.worker v).stageOf g = none)
    (worker : next.worker = Function.update o.state.worker w self)
    (heap : next.heap = Function.update o.state.heap g fiber)
    (fibers : next.fibers = o.state.fibers) (made : next.nextFiber = o.state.nextFiber)
    (enters : self.pc = .task .enter branch) (on : self.fiberOf branch = some g)
    (pointers : ∀ f, self.owns f = (o.state.worker w).owns f)
    (ready : Settled (o.state.heap g) → Settled fiber ∧ frames fiber.context = frames (o.state.heap g).context) :
    Sound { o with state := next } := by
  have owned (f : FiberId) : owned f next = owned f o.state := by
    have change := owned_update next worker f
    rw [fibers, pointers] at change
    omega
  have others (v : Fin n) (other : v ≠ w) : next.worker v = o.state.worker v := by
    rw [worker, Function.update_of_ne other]
  have own : next.worker w = self := by rw [worker, Function.update_self]
  obtain ⟨owns, off⟩ := Worker.upcoming_owns before
  have older : g < o.state.nextFiber := by
    by_contra new
    have := (sound.unmade g (Nat.not_lt.mp new)).1
    have := owns_le_owned o.state g w
    omega
  refine ⟨fun f => ?_, fun f new => ?_, fun v stage branch' running => ?_⟩
  · by_cases same : f = g
    · subst same
      have kept := sound.kept f
      cases kept with
      | on v stage here =>
        by_cases mover : v = w
        · subst mover
          cases off.symm.trans here
        · cases (alone v mover).symm.trans here
      | off nobody settled counted =>
        obtain ⟨settles, same⟩ := ready settled
        refine .on w .enter ?_ (fun v other => ?_) ?_ ?_
        · rw [own, Worker.stageOf_task enters on, if_pos rfl]
        · rw [others v other, alone v other]
        · simp only [heap, Function.update_self]
          exact settles
        · simpa [heap, owned, Stage.frames, same] using counted
    · refine (sound.kept f).transfer (fun v => ?_) (by simp [heap, same]) (by rw [owned])
      by_cases mover : v = w
      · subst mover
        rw [own, Worker.stageOf_task enters on, if_neg (Ne.symm same)]
        have idle : ∀ stage branch, (o.state.worker v).pc ≠ .task stage branch := fun stage branch running => by
          simp [Worker.upcoming, running] at before
        unfold Worker.stageOf
        split
        next stage branch running => exact absurd running (idle stage branch)
        next => rfl
      · rw [others v mover]
  · have other : f ≠ g := by
      rintro rfl
      exact absurd older (Nat.not_lt.mpr (made ▸ new))
    simpa [owned, heap, other] using sound.unmade f (made ▸ new)
  · by_cases mover : v = w
    · subst mover
      rw [show (Owned.state { o with state := next }).worker v = self from own, enters] at running
      cases running
      exact fun impossible => by cases impossible
    · rw [show (Owned.state { o with state := next }).worker v = o.state.worker v from others v mover] at running
      exact sound.recycles v stage branch' running

/-- A worker makes the fiber of its callback. -/
theorem Sound.makes (sound : o.Sound) (self : Worker) (c : Callback)
    (off : ∀ stage branch, (o.state.worker w).pc ≠ .task stage branch)
    (worker : next.worker = Function.update o.state.worker w self)
    (heap : next.heap = Function.update o.state.heap o.state.nextFiber (Fiber.create (some c) true))
    (fibers : next.fibers = o.state.fibers) (made : next.nextFiber = o.state.nextFiber + 1)
    (enters : self.pc = .task .enter .callback) (on : self.cbFiber = some o.state.nextFiber)
    (pointers : ∀ f, self.owns f = (o.state.worker w).owns f + if f = o.state.nextFiber then 1 else 0) :
    Sound { o with state := next, uses := Function.update o.uses o.state.nextFiber 1 } := by
  have owned (f : FiberId) : owned f next = owned f o.state + if f = o.state.nextFiber then 1 else 0 := by
    have change := owned_update next worker f
    rw [fibers, pointers] at change
    omega
  have others (v : Fin n) (other : v ≠ w) : next.worker v = o.state.worker v := by
    rw [worker, Function.update_of_ne other]
  have own : next.worker w = self := by rw [worker, Function.update_self]
  have stageOf (f : FiberId) : self.stageOf f = if o.state.nextFiber = f then some .enter else none :=
    Worker.stageOf_task enters on
  obtain ⟨nobody, unowned, unhandled⟩ := sound.unborn
  refine ⟨fun f => ?_, fun f new => ?_, fun v stage branch running => ?_⟩
  · by_cases same : f = o.state.nextFiber
    · subst same
      refine .on w .enter ?_ (fun v other => ?_) ?_ ?_
      · rw [own, stageOf, if_pos rfl]
      · rw [others v other, nobody v]
      · simp only [heap, Function.update_self]
        rfl
      · simp [heap, owned, unowned, unhandled, Stage.frames, frames, Fiber.create]
    · refine (sound.kept f).transfer (fun v => ?_) (by simp [heap, same]) (by simp [owned, same])
      by_cases mover : v = w
      · subst mover
        rw [own, stageOf, if_neg (Ne.symm same)]
        unfold Worker.stageOf
        split
        next stage branch running => exact absurd running (off stage branch)
        next => rfl
      · rw [others v mover]
  · have other : f ≠ o.state.nextFiber := by
      rintro rfl
      simp [made] at new
    have older : o.state.nextFiber ≤ f := Nat.le_trans (by rw [made]; exact Nat.le_succ _) new
    simpa [owned, heap, other] using sound.unmade f older
  · by_cases mover : v = w
    · subst mover
      rw [show (Owned.state { o with state := next }).worker v = self from own, enters] at running
      cases running
      exact fun impossible => by cases impossible
    · rw [show (Owned.state { o with state := next }).worker v = o.state.worker v from others v mover] at running
      exact sound.recycles v stage branch running

/-- With `run` the pointer to the fiber for callbacks goes. -/
theorem Sound.exits (sound : o.Sound) (pc : (o.state.worker w).pc = .branch none) {self : Worker}
    (worker : next.worker = Function.update o.state.worker w self) (exited : self.pc = .exited)
    (heap : next.heap = o.state.heap) (fibers : next.fibers = o.state.fibers)
    (made : next.nextFiber = o.state.nextFiber) :
    ∃ after, o.returns next w = .ok after ∧ after.Sound := by
  have gone (f : FiberId) :
      owned f next + (if (o.state.worker w).cbFiber = some f then 1 else 0) = owned f o.state := by
    have change := owned_update next worker f
    have before : (o.state.worker w).owns f = if (o.state.worker w).cbFiber = some f then 1 else 0 := by
      simp [Worker.owns, Worker.refs, Pc.refs, pc]
    have after : self.owns f = 0 := if_pos exited
    rw [fibers] at change
    omega
  have off (v : Fin n) (f : FiberId) : (next.worker v).stageOf f = (o.state.worker v).stageOf f := by
    rw [worker]
    by_cases mover : v = w
    · subst mover
      simp [Worker.stageOf, pc, exited]
    · rw [Function.update_of_ne mover]
  have kept (v : Fin n) (stage : Stage) (branch : Branch) (running : (next.worker v).pc = .task stage branch) :
      (o.state.worker v).pc = .task stage branch := by
    rw [worker] at running
    by_cases mover : v = w
    · subst mover
      simp [exited] at running
    · rwa [Function.update_of_ne mover] at running
  unfold Owned.returns
  cases spare : (o.state.worker w).cbFiber with
  | none => exact ⟨_, rfl, sound.still (fun f => by simpa [spare] using gone f) off heap made kept⟩
  | some g =>
    have own : (o.state.worker w).owns g = 1 := by simp [Worker.owns, Worker.refs, Pc.refs, pc, spare]
    have present := owns_le_owned o.state g w
    have alive := (sound.kept g).alive (.inl (by omega))
    -- nobody can be on `g` with this pointer alone: the worker that leaves is on no fiber, and another
    -- one has a pointer of its own
    have elsewhere (v : Fin n) (stage : Stage) (on : (o.state.worker v).stageOf g = some stage) :
        1 < owned g o.state ∨ 0 < o.handles g := by
      have distinct : v ≠ w := by
        rintro rfl
        simp [Worker.stageOf, pc] at on
      have both := owns_add_le o.state g distinct
      have pointed := Worker.owns_pos on
      omega
    have released := release_ok (fun f => (next.heap f).state.resettable) alive fun last => by
      rw [heap]
      exact (sound.kept g).resettable last elsewhere
    simp only [released]
    refine ⟨_, rfl, fun f => ?_, fun f new => ?_, fun v stage branch running => ?_⟩
    · have less := gone f
      refine (sound.kept f).transfer (fun v => off v f) (congrFun heap f) ?_
      by_cases same : f = g
      · subst same
        rw [if_pos spare] at less
        simp only [Function.update_self]
        omega
      · rw [if_neg (by simpa [spare] using Ne.symm same)] at less
        simp only [Function.update_of_ne same]
        omega
    · have less := gone f
      obtain ⟨unowned, rest⟩ := sound.unmade f (made ▸ new)
      exact ⟨Nat.le_zero.mp (Nat.le_trans (Nat.le_add_right ..) (Nat.le_of_eq (less.trans unowned))), heap ▸ rest⟩
    · exact sound.recycles v stage branch (kept v stage branch running)

/-- The three-way choice of `run`. -/
theorem Sound.branch (sound : o.Sound) (alone : Alone o (.run (.branch w)))
    (stepped : step tid o.state (.branch w) = some next) :
    ∃ after, o.count next (.branch w) = .ok after ∧ after.Sound := by
  obtain ⟨g, thread, pc, state⟩ | ⟨c, thread, g, pc, spare, able, state⟩ | ⟨c, thread, pc, spare, state⟩ |
    ⟨pc, ⟨state, ended⟩ | ⟨state, more⟩⟩ := step_branch stepped
  · have before : (o.state.worker w).upcoming = some g := by simp [Worker.upcoming, pc]
    refine ⟨{ o with state := next }, by simp [Owned.count, pc], ?_⟩
    refine sound.begins { o.state.worker w with pc := .task .enter (.fiber g) } (.fiber g) (o.state.heap g) before
      (alone g before) (by rw [state]; rfl) (by simp [state, State.setWorker]) (by rw [state]; rfl) (by rw [state]; rfl)
      rfl rfl (fun f => ?_) fun settled => ⟨settled, rfl⟩
    simp [Worker.owns, Worker.refs, Pc.refs, pc]
  · have before : (o.state.worker w).upcoming = some g := by simp [Worker.upcoming, pc, spare]
    refine ⟨{ o with state := next }, by simp [Owned.count, pc, spare], ?_⟩
    refine sound.begins { o.state.worker w with pc := .task .enter .callback } .callback
      ⟨.init, .fresh, some c, (o.state.heap g).pooled⟩ before (alone g before) (by rw [state]; rfl) (by rw [state]; rfl)
      (by rw [state]; rfl) (by rw [state]; rfl) rfl spare (fun f => ?_) fun settled => ⟨rfl, ?_⟩
    · simp [Worker.owns, Worker.refs, Pc.refs, pc]
    · unfold Settled at settled
      split at settled
      next context => simp [context]
      next => rcases settled with same | same <;> simp [same, Fiber.State.resettable] at able
      next context => simp [context, frames]
  · refine ⟨{ o with state := next, uses := Function.update o.uses o.state.nextFiber 1 }, ?_, ?_⟩
    · rw [Owned.count]
      simp only [pc, spare]
    refine sound.makes { o.state.worker w with pc := .task .enter .callback, cbFiber := some o.state.nextFiber } c
      (w := w) (by simp [pc]) (by rw [state]; rfl) (by rw [state]; rfl) (by rw [state]; rfl) (by rw [state]) rfl rfl
      fun f => ?_
    simp [Worker.owns, Worker.refs, Pc.refs, pc, spare, eq_comm]
  · simp only [Owned.count, pc, if_pos ended]
    exact sound.exits pc (by rw [state]; rfl) rfl (by rw [state]; rfl) (by rw [state]; rfl) (by rw [state]; rfl)
  · refine ⟨{ o with state := next }, by simp [Owned.count, pc, more], ?_⟩
    refine sound.turns_off (w := w) (by rw [state]; rfl) (by simp [pc]) (by simp) (fun f => ?_) (by rw [state]; rfl)
      (by rw [state]; rfl)
    simp [state, State.setWorker, Worker.owns, Worker.refs, Pc.refs, pc]

theorem Sound.task (sound : o.Sound) {act : Act} (stepped : step tid o.state (.task w act) = some next) :
    ∃ after, o.count next (.task w act) = .ok after ∧ after.Sound := by
  obtain ⟨stage, branch, g, effect, running, on, advanced, state⟩ := step_task stepped
  have heap : next.heap g = effect.fiber := by simp [state, State.apply]
  obtain ⟨now, turned, kept⟩ := ((sound.kept g).standing running on).turns (fun f => (next.heap f).state.resettable)
    (tid w) advanced (by simp only [heap]) (sound.recycles w stage branch running)
  refine ⟨{ o with state := next, uses := Function.update o.uses g now }, ?_, fun f => ?_, fun f new => ?_,
    fun v later other goes => ?_⟩
  · simp [Owned.count, running, on, turned]
  -- a task touches the count of its own fiber only
  · by_cases same : f = g
    · subst same
      simpa [state] using kept
    · obtain ⟨pointers, workers⟩ := owned_apply_of_ne (tid w) running on advanced same
      refine (sound.kept f).transfer (by simpa [state] using workers) (by simp [state, State.apply, same]) ?_
      simp [state, pointers, same]
  · have older : o.state.nextFiber ≤ f := by simpa [state, State.apply] using new
    have other : f ≠ g := by
      rintro rfl
      -- a fiber that is not made yet has no pointers, and the worker that is on `g` has one
      have here : (o.state.worker w).stageOf f = some stage := by rw [Worker.stageOf_task running on, if_pos rfl]
      have pointed := Nat.lt_of_lt_of_le (Worker.owns_pos here) (owns_le_owned o.state f w)
      have := (sound.unmade f older).1
      omega
    obtain ⟨pointers, -⟩ := owned_apply_of_ne (tid w) running on advanced other
    have fiber : next.heap f = o.state.heap f := by simp [state, State.apply, other]
    have fewer : owned f next = owned f o.state := by rw [state, pointers]
    simpa only [fiber, fewer] using sound.unmade f older
  · by_cases mover : v = w
    · subst mover
      rintro rfl
      simp only [state, State.apply, Function.update_self, after_pc] at goes
      exact advance_recycle advanced goes
    · simp only [state, State.apply, Function.update_of_ne mover] at goes
      exact sound.recycles v later other goes

theorem Sound.scan (sound : o.Sound) (stepped : step tid o.state (.scan w) = some next) :
    Sound { o with state := next } := by
  obtain ⟨pc, ⟨ft, left, picked, state⟩ | ⟨-, state⟩⟩ := step_scan stepped
  · refine sound.turns_off (w := w) (by rw [state]; rfl) (by simp [pc]) (by simp) (fun f => ?_) (by rw [state]; rfl)
      (by rw [state]; rfl)
    have moved := queued_pick picked f
    simp only [state, Worker.owns, Worker.refs, Pc.refs, pc, reduceCtorEq, if_false]
    omega
  · refine sound.turns_off (w := w) (by rw [state]; rfl) (by simp [pc]) (by simp) (fun f => ?_) (by rw [state]; rfl)
      (by rw [state]; rfl)
    simp [state, State.setWorker, Worker.owns, Worker.refs, Pc.refs, pc]

theorem Sound.idle (sound : o.Sound) {ended : Bool}
    (stepped : step tid o.state (.idle w ended) = some next) :
    Sound { o with state := next } := by
  obtain ⟨pc, state⟩ := step_idle stepped
  refine sound.turns_off (w := w) (by rw [state]; rfl) (by simp [pc]) (by simp) (fun f => ?_) (by rw [state]; rfl)
    (by rw [state]; rfl)
  simp [state, State.setWorker, Worker.owns, Worker.refs, Pc.refs, pc]

/-- Behind any step of the workers the pointers are counted right, and nothing has failed. -/
theorem Sound.count (sound : o.Sound) (permits : o.permits label = true)
    (alone : Alone o (.run label)) (stepped : step tid o.state label = some next) :
    ∃ after, o.count next label = .ok after ∧ after.Sound := by
  cases label with
  | schedule caller fc thread =>
    obtain ⟨-, known, state⟩ := step_schedule stepped
    rw [state]
    exact sound.schedule known
  | scheduleAll caller fcs =>
    obtain ⟨-, -, state⟩ := step_scheduleAll stepped
    rw [state]
    exact sound.scheduleAll permits
  | newFiber caller => exact sound.newFiber stepped
  | setAutoStop | setStopping =>
    cases stepped
    exact ⟨_, rfl, sound.still (fun f => owned_of_same rfl rfl f) (fun _ _ => rfl) rfl rfl fun _ _ _ running => running⟩
  | scan w => exact ⟨_, rfl, sound.scan stepped⟩
  | branch w => exact sound.branch alone stepped
  | task w act => exact sound.task stepped
  | idle w ended => exact ⟨_, rfl, sound.idle stepped⟩

/-- User code copies or drops pointers to a fiber. -/
theorem Sound.handled (sound : o.Sound) {k handles : Nat} (older : f < o.state.nextFiber)
    (balance : k + o.handles f = o.uses f + handles) :
    Sound { o with uses := Function.update o.uses f k, handles := Function.update o.handles f handles } where
  kept g := by
    by_cases same : g = f
    · subst same
      refine (sound.kept g).transfer (fun _ => rfl) rfl ?_
      simp only [Function.update_self]
      omega
    · simpa only [Function.update_of_ne same] using sound.kept g
  unmade g new := by
    have other : g ≠ f := Nat.ne_of_gt (Nat.lt_of_lt_of_le older new)
    simpa only [Function.update_of_ne other] using sound.unmade g new
  recycles := sound.recycles

/-- A move that is possible goes through. -/
theorem Sound.attempt (sound : o.Sound) {move : Move n} (alone : Alone o move)
    {result : Except (Fault FiberId) (Owned n)} (attempted : o.attempt tid move = some result) :
    ∃ after, result = .ok after ∧ after.Sound := by
  have pointed (g : FiberId) (present : 0 < owned g o.state ∨ 0 < o.handles g) : g < o.state.nextFiber := by
    by_contra new
    obtain ⟨unowned, unhandled, -⟩ := sound.unmade g (Nat.not_lt.mp new)
    omega
  cases move with
  | run label =>
    simp only [Owned.attempt] at attempted
    split at attempted
    next permits =>
      rw [derefAll_ok fun f member => sound.accessed member] at attempted
      obtain ⟨next, stepped, rfl⟩ := Option.map_eq_some_iff.mp attempted
      exact sound.count permits alone stepped
    next => cases attempted
  | copy caller g =>
    simp only [Owned.attempt] at attempted
    split at attempted
    next named =>
      have present : 0 < owned g o.state ∨ 0 < o.handles g := by
        unfold names at named
        rcases Bool.or_eq_true_iff.mp named with held | within
        · exact .inr (of_decide_eq_true held)
        · cases caller with
          | none => cases within
          | some w => exact .inl (Nat.lt_of_lt_of_le (Worker.owns_pos (eq_of_beq within)) (owns_le_owned o.state g w))
      rw [deref_ok ((sound.kept g).alive present)] at attempted
      cases attempted
      exact ⟨_, rfl, sound.handled (pointed g present) (by omega)⟩
    next => cases attempted
  | drop g =>
    simp only [Owned.attempt] at attempted
    split at attempted
    next held =>
      have released := release_ok (fun f => (o.state.heap f).state.resettable) ((sound.kept g).alive (.inr held))
        fun last => (sound.kept g).resettable last fun _ _ _ => .inr held
      simp only [released] at attempted
      cases attempted
      have alive := (sound.kept g).alive (.inr held)
      exact ⟨_, rfl, sound.handled (pointed g (.inr held)) (by omega)⟩
    next => cases attempted

theorem sound_of_reaches (reached : (machine tid).Reaches Alone o) : o.Sound := by
  refine reached.invariant (fun o begins => begins ▸ sound_initial n) fun o move next sound alone stepped => ?_
  simp only [machine] at stepped
  split at stepped
  next after attempted =>
    cases stepped
    obtain ⟨_, same, sound⟩ := sound.attempt alone attempted
    cases same
    exact sound
  next => cases stepped

/-- No step of the workers gives user code a pointer to an existing fiber. -/
theorem count_ok {after : Owned n} (counted : o.count next label = .ok after) :
    after.state = next ∧ (f < o.state.nextFiber → after.handles f ≤ o.handles f) := by
  cases label with
  | schedule caller fc thread => cases fc <;> cases counted <;> exact ⟨rfl, fun _ => Nat.le_refl _⟩
  | scheduleAll caller fcs =>
    cases counted
    exact ⟨rfl, fun _ => Nat.sub_le ..⟩
  | newFiber caller =>
    cases counted
    exact ⟨rfl, fun old => by simp [Nat.ne_of_lt old]⟩
  | setAutoStop | setStopping | scan | idle =>
    cases counted
    exact ⟨rfl, fun _ => Nat.le_refl _⟩
  | branch w =>
    simp only [Owned.count, returns] at counted
    split at counted
    next => split at counted <;> cases counted <;> exact ⟨rfl, fun _ => Nat.le_refl _⟩
    next =>
      split at counted
      next =>
        split at counted
        next =>
          obtain ⟨_, -, same⟩ := eq_ok_of_bind counted
          cases same
          exact ⟨rfl, fun _ => Nat.le_refl _⟩
        next =>
          cases counted
          exact ⟨rfl, fun _ => Nat.le_refl _⟩
      next =>
        cases counted
        exact ⟨rfl, fun _ => Nat.le_refl _⟩
    next =>
      cases counted
      exact ⟨rfl, fun _ => Nat.le_refl _⟩
  | task w act =>
    simp only [Owned.count] at counted
    split at counted
    next =>
      split at counted
      next =>
        obtain ⟨_, -, same⟩ := eq_ok_of_bind counted
        cases same
        exact ⟨rfl, fun _ => Nat.le_refl _⟩
      next =>
        cases counted
        exact ⟨rfl, fun _ => Nat.le_refl _⟩
    next =>
      cases counted
      exact ⟨rfl, fun _ => Nat.le_refl _⟩

/-- The pointers are counted beside the workers: without them the run is one of the workers. -/
theorem step_state {move : Move n} {after : Owned n} (stepped : (machine tid).step o move = some after) :
    (∃ label, move = .run label ∧ step tid o.state label = some after.state) ∨
      (∀ label, move ≠ .run label) ∧ after.state = o.state := by
  simp only [machine] at stepped
  split at stepped
  next attempted =>
    cases stepped
    cases move with
    | run label =>
      simp only [attempt] at attempted
      split at attempted
      next =>
        split at attempted
        next => cases attempted
        next =>
          obtain ⟨next, stepped, counted⟩ := Option.map_eq_some_iff.mp attempted
          exact .inl ⟨label, rfl, (count_ok (f := 0) counted).1 ▸ stepped⟩
      next => cases attempted
    | copy | drop =>
      simp only [attempt] at attempted
      split at attempted
      next =>
        obtain ⟨_, -, same⟩ := eq_ok_of_bind (Option.some.inj attempted)
        cases same
        exact .inr ⟨by simp, rfl⟩
      next => cases attempted
  next => cases stepped

/-- Fibers are only rescheduled while they have no place. -/
def Parked (o : Owned n) : Move n → Prop
  | .run label => WakesParked o.state label
  | _ => True

theorem reaches_state (reached : (machine tid).Reaches Parked o) :
    (Scheduler.machine tid).Reaches WakesParked o.state := by
  induction reached with
  | start begins => exact .start (by rw [show _ = initial n from begins]; rfl)
  | step _ parked stepped ih =>
    obtain ⟨label, rfl, moved⟩ | ⟨-, same⟩ := step_state stepped
    · exact .step ih parked moved
    · rwa [same]

/-- It is enough that a fiber is only rescheduled while it has no place. -/
theorem alone_of_parked (reached : (machine tid).Reaches Parked o) : (machine tid).Reaches Alone o := by
  induction reached with
  | start begins => exact .start begins
  | step before parked stepped ih =>
    rename_i o next move
    refine .step ih ?_ stepped
    unfold Alone
    split
    next w =>
      intro f turns v other
      -- the worker that turns to `f` has its one place, so no other is on it
      have single := (places_le_one (reaches_state before)).2 f
      have refs : 0 < (o.state.worker w).refs f :=
        Nat.lt_of_lt_of_le (Worker.upcoming_owns turns).1 (by unfold Worker.owns; split <;> omega)
      have absent := refs_exclusive single (Ne.symm other) refs
      by_contra on
      obtain ⟨stage, on⟩ := Option.ne_none_iff_exists'.mp on
      obtain ⟨branch, running, same⟩ := Worker.stageOf_eq_some on
      have present := Worker.On.refs_pos ⟨branch, running, same⟩
      omega
    next => trivial

/-- As long as no worker turns to a fiber that another one is on, no step uses a fiber behind its
destruction, and none is destroyed in a state that the destructor does not accept. -/
theorem never_faults (reached : (machine tid).Reaches Alone o) {move : Move n} (alone : Alone o move)
    (fault : Fault FiberId) : o.attempt tid move ≠ some (.error fault) := by
  intro failed
  obtain ⟨_, same, -⟩ := (sound_of_reaches reached).attempt alone failed
  cases same

/-- A sufficient test of `Alone` for replays. -/
def aloneTest (o : Owned n) : Move n → Bool
  | .run (.branch w) =>
      match (o.state.worker w).upcoming with
      | some f => decide (∀ v, v ≠ w → (o.state.worker v).stageOf f = none)
      | none => true
  | _ => true

theorem alone_of_test {move : Move n} (passed : aloneTest o move = true) : Alone o move := by
  unfold aloneTest at passed
  split at passed
  next w =>
    intro f same
    rw [same] at passed
    exact of_decide_eq_true passed
  next other =>
    unfold Alone
    split
    next w => exact absurd rfl (other w)
    next => trivial

theorem reaches_test (tid : Fin n → Int) (moves : List (Move n)) (test : Owned n → Bool)
    (replayed : ((machine tid).replay aloneTest (initial n) moves).any test = true) :
    ∃ o, (machine tid).Reaches Alone o ∧ test o = true :=
  System.reaches_test (machine tid) Alone aloneTest (fun _ _ => alone_of_test) (initial n) rfl moves test replayed

/-- A callback suspends itself on worker 0, and user code keeps a pointer to its fiber. -/
def suspended : List (Move 2) :=
  [.run (.schedule none .callback (-1)), .run (.scan 0), .run (.branch 0), .run (.task 0 .proceed),
   .run (.task 0 .proceed), .copy (some 0) 0, .run (.task 0 .yieldToHold), .run (.task 0 .proceed),
   .run (.task 0 .proceed), .run (.task 0 .proceed), .run (.task 0 .proceed)]

/-- It is scheduled, goes on on worker 1 and returns. -/
def finished : List (Move 2) :=
  suspended ++
    [.run (.schedule none (.fiber 0) (-1)), .run (.scan 1), .run (.branch 1), .run (.task 1 .proceed),
     .run (.task 1 .proceed), .run (.task 1 .returns), .run (.task 1 .proceed), .run (.task 1 .proceed),
     .run (.task 1 .proceed)]

theorem never_faults_finished :
    ∃ o, (machine (poolTid (n := 2))).Reaches Alone o ∧ o.uses 0 = 1 ∧ (o.attempt poolTid (.drop 0)).isSome = true ∧
      ∀ fault, o.attempt poolTid (.drop 0) ≠ some (.error fault) := by
  obtain ⟨o, reached, test⟩ := reaches_test poolTid finished
    (fun o => o.uses 0 = 1 ∧ (o.attempt poolTid (.drop 0)).isSome = true) (by decide)
  obtain ⟨last, possible⟩ := of_decide_eq_true test
  exact ⟨o, reached, last, possible, never_faults reached trivial⟩

/-- A fiber is destroyed as soon as no entry, no worker and no user code points to it, unless it is
suspended: its own stack keeps it then. -/
theorem destroyed_iff (reached : (machine tid).Reaches Alone o) (f : FiberId) :
    o.uses f = 0 ↔ queued f o.state.fibers = 0 ∧ (∀ w, (o.state.worker w).owns f = 0) ∧ o.handles f = 0 ∧
      (o.state.heap f).context ≠ .suspended := by
  have unowned : owned f o.state = 0 ↔ queued f o.state.fibers = 0 ∧ ∀ w, (o.state.worker w).owns f = 0 := by
    rw [owned, Nat.add_eq_zero_iff, tally_eq_zero_iff]
  rw [← and_assoc, ← unowned]
  cases (sound_of_reaches reached).kept f with
  | on w stage here others suits counted =>
    have pointed := Nat.lt_of_lt_of_le (Worker.owns_pos here) (owns_le_owned o.state f w)
    omega
  -- the frame on its own stack keeps a fiber while it is suspended, and only then
  | off nobody settled counted =>
    cases context : (o.state.heap f).context <;> simp only [frames, context] at counted <;> simp <;> omega

theorem destroyed_iff_finished :
    ∃ o, (machine (poolTid (n := 2))).Reaches Alone o ∧ o.uses 0 = 0 ∧ (∀ w, (o.state.worker w).owns 0 = 0) ∧
      (o.state.heap 0).context ≠ .suspended := by
  obtain ⟨o, reached, test⟩ := reaches_test poolTid (finished ++ [.drop 0]) (fun o => o.uses 0 = 0) (by decide)
  have destroyed : o.uses 0 = 0 := of_decide_eq_true test
  obtain ⟨-, unheld, -, stopped⟩ := (destroyed_iff reached 0).mp destroyed
  exact ⟨o, reached, destroyed, unheld, stopped⟩

end Owned
end HpsSf.Scheduler
