import HpsSf.Foundation.Fairness
import HpsSf.IOManager.Kernel

/-! No readiness of a descriptor is lost.

The epoll set is edge-triggered: it reports a descriptor once, and again after a
change of the file or of the interest mask. While a worker is on its way from
`epoll_wait` to the mutex of the context, other threads register and cancel events
of that descriptor. A registered event that the file is ready for is at every
moment in a report that a worker has, or in one that the kernel has still to make.
-/

set_option autoImplicit false

namespace HpsSf.IOManager
open Foundation (System)

variable {n : Nat} {S F C : Type}

namespace Kernel

/-- What a poll of the file yields for an entry of the epoll set: an error and a
hang-up are reported without being asked for. -/
def polled (level interest : Mask) : Mask := level &&& (interest ||| EPOLLERR ||| EPOLLHUP)

end Kernel

/-- One open descriptor: its context, its entry in the epoll set and the reports on their way. -/
structure Watched (n : Nat) (S F C : Type) where
  ctx : FdContext S F C
  pendingEventCount : Nat
  /-- What the file is ready for, as `epoll_wait` would report it. -/
  level : Mask
  interest : Option Mask
  /-- The entry is in the ready list of the epoll set. -/
  listed : Bool
  /-- What `epoll_wait` has told each worker in `idle`, up to the dispatch of it. -/
  collected : Fin n → Option Mask
  /-- An assertion has failed. -/
  aborted : Bool
  /-- History: the calls of `schedule`, and the events that `delEvent` has dropped. -/
  handed : List (Handed S F C)
  deleted : List Event

namespace Watched

inductive Label (n : Nat) (S F C : Type) where
  /-- The file changes, and may wake up those who poll it without being ready for more. -/
  | change (level : Mask) (wakes : Bool)
  /-- `epoll_wait` returns the descriptor to this worker. -/
  | collect (w : Fin n)
  /-- The body of the loop of `idle`; `epoll_ctl` may be refused for other reasons than the entry. -/
  | dispatch (w : Fin n) (accepts : Bool)
  /-- `addEvent`, `delEvent`, `cancelEvent` or `cancelAll` by any thread. -/
  | call (op : Op S F C) (accepts : Bool)
  /-- Events of other descriptors are counted. -/
  | elsewhere (pendingEventCount : Nat)

def Label.actor : Label n S F C → Option (Fin n)
  | .collect w | .dispatch w _ => some w
  | .change .. | .call .. | .elsewhere _ => none

def initial (n : Nat) (fd : Int) (level : Mask) : Watched n S F C where
  ctx := .fresh fd
  pendingEventCount := 0
  level := level
  interest := none
  listed := false
  collected _ := none
  aborted := false
  handed := []
  deleted := []

def ctl (s : Watched n S F C) (accepts : Bool) (call : EpollCall) : Bool :=
  accepts && Kernel.admits (fun _ => s.interest) call

/-- An accepted call replaces the entry, and polls the file if there is one. -/
def enter (s : Watched n S F C) (call : EpollCall) : Watched n S F C :=
  match Kernel.entry call with
  | some mask => { s with interest := some mask, listed := s.listed || Kernel.polled s.level mask != 0 }
  | none => { s with interest := none, listed := false }

def dropped (op : Op S F C) (returned : Bool) : List Event :=
  match op with
  | .delEvent _ event => if returned then [event] else []
  | _ => []

/-- A section under the mutex of the context. -/
def operate (s : Watched n S F C) (accepts : Bool) (op : Op S F C) : Watched n S F C :=
  match s.ctx.run (s.ctl accepts) s.pendingEventCount op with
  | .error _ => { s with aborted := true }
  | .ok out =>
    { (((s.ctx.epollCall op).filter (s.ctl accepts)).elim s s.enter) with
      ctx := out.ctx
      pendingEventCount := out.pending
      handed := s.handed ++ out.handed
      deleted := s.deleted ++ dropped op out.returned }

def step (s : Watched n S F C) (label : Label n S F C) : Option (Watched n S F C) :=
  if s.aborted then none
  else
    match label with
    | .change level wakes =>
      let more := s.interest.any fun mask => wakes || Kernel.polled level mask &&& ~~~Kernel.polled s.level mask != 0
      some { s with level := level, listed := s.listed || more }
    | .collect w =>
      match s.interest, s.listed, s.collected w with
      | some mask, true, none =>
        let report := Kernel.polled s.level mask
        some { s with
          listed := false
          collected := Function.update s.collected w (if report = 0 then none else some report) }
      | _, _, _ => none
    | .dispatch w accepts =>
      (s.collected w).map fun reported =>
        { s with collected := Function.update s.collected w none }.operate accepts (.dispatch reported)
    | .call op accepts => if op.fd = some s.ctx.fd then some (s.operate accepts op) else none
    | .elsewhere pendingEventCount => some { s with pendingEventCount := pendingEventCount }

def machine (n : Nat) (S F C : Type) : System (Watched n S F C) (Label n S F C) where
  start s := ∃ fd level, s = initial n fd level
  step := step

/-- `epoll_ctl` does not fail in a dispatch, as it may in the other calls. -/
def Dispatches (_ : Watched n S F C) (label : Label n S F C) : Prop := ∀ w, label ≠ .dispatch w false

/-- The event is registered, and the file is ready for it. -/
def Due (s : Watched n S F C) (event : Event) : Prop :=
  covers s.ctx.events event = true ∧ covers (realEvents s.level) event = true

def Reports (s : Watched n S F C) (w : Fin n) (event : Event) : Prop :=
  ∃ reported, s.collected w = some reported ∧ covers (realEvents reported) event = true

end Watched

/-! ## The kernel -/

theorem covers_and (first second : Mask) (event : Event) :
    covers (first &&& second) event = (covers first event && covers second event) := by
  cases event <;> simp [covers_read, covers_write]

/-- The entry of a registered event asks for it, so that a poll reports what the file is ready for. -/
theorem Kernel.polled_covers {events : Mask} (level : Mask) {event : Event}
    (registered : covers events event = true) :
    covers (realEvents (Kernel.polled level (EPOLLET ||| events))) event = covers (realEvents level) event := by
  have failing : (level &&& (EPOLLET ||| events ||| EPOLLERR ||| EPOLLHUP)) &&& (EPOLLERR ||| EPOLLHUP) =
      level &&& (EPOLLERR ||| EPOLLHUP) := by
    ext i
    simp only [BitVec.getElem_and, BitVec.getElem_or]
    cases level[i] <;> cases EPOLLERR[i] <;> cases EPOLLHUP[i] <;> simp
  rw [covers_realEvents, covers_realEvents, Kernel.polled, failing, covers_and]
  simp [registered]

theorem Kernel.polled_ne_zero {level interest : Mask} {event : Event}
    (covered : covers (realEvents (Kernel.polled level interest)) event = true) :
    Kernel.polled level interest ≠ 0 := by
  intro none
  rw [none] at covered
  have nothing : covers (realEvents 0) event = false := by cases event <;> decide
  cases nothing.symm.trans covered

/-- What is reported with fewer bits is reported with more. -/
theorem realEvents_mono {first second : Mask} (sub : first &&& ~~~second = 0) {event : Event}
    (covered : covers (realEvents first) event = true) : covers (realEvents second) event = true := by
  have within : first &&& second = first := by
    ext i
    have bit := congrArg (fun mask : Mask => mask.getLsbD i) sub
    simp only [BitVec.getLsbD_and, BitVec.getLsbD_not] at bit
    cases one : first.getLsbD i <;> cases two : second.getLsbD i <;> simp_all [← BitVec.getLsbD_eq_getElem]
  rw [covers_realEvents] at covered ⊢
  simp only [Bool.and_eq_true, Bool.or_eq_true, bne_iff_ne] at covered ⊢
  obtain ⟨named, plain | failing⟩ := covered
  · rw [← within, covers_and, Bool.and_eq_true] at plain
    exact ⟨named, .inl plain.2⟩
  · refine ⟨named, .inr fun none => failing ?_⟩
    rw [← within, BitVec.and_assoc, none]
    exact BitVec.and_zero

theorem Kernel.mirror_some {events : Mask} {event : Event} (registered : covers events event = true) :
    Kernel.mirror events = some (EPOLLET ||| events) := by
  refine if_neg fun none => ?_
  simp [none] at registered

/-! ## Sections -/

namespace FdContext

variable {ctx : FdContext S F C} {pending : Nat} {op : Op S F C} {out : Section S F C Bool}

/-- A registration stays, or is handed to its scheduler, or is dropped by `delEvent`. -/
theorem Effect.ends (effect : ctx.Effect pending op out) {event : Event}
    (registered : covers ctx.events event = true) {waiter : Handed S F C}
    (waits : ctx.handover event = some waiter) :
    (covers out.ctx.events event = true ∧ out.ctx.handover event = some waiter) ∨ waiter ∈ out.handed ∨
      event ∈ Watched.dropped op out.returned := by
  cases effect with
  | refused => exact .inl ⟨registered, waits⟩
  | @added caller fd other cb named unregistered clear =>
    have distinct : event ≠ other := by
      rintro rfl
      cases registered.symm.trans unregistered
    refine .inl ⟨by simp [registered], ?_⟩
    rw [handover, slot_setContext _ _ named, if_neg distinct]
    exact waits
  | @deleted fd other found =>
    by_cases same : event = other
    · exact .inr (.inr (by simp [Watched.dropped, same]))
    · have named : other ≠ .none := by
        rintro rfl
        simp at found
      refine .inl ⟨by simp [registered, Ne.symm same], ?_⟩
      rw [handover, slot_setContext _ _ named, if_neg same]
      exact waits
  | @triggered op mask returned consumes ready =>
    by_cases chosen : event ∈ chosen mask
    · exact .inr (.inl (List.mem_filterMap.mpr ⟨event, chosen, waits⟩))
    · refine .inl ⟨by simp [releasedAll_events, registered, chosen], ?_⟩
      rw [handover, releasedAll_slot ctx chosen]
      exact waits

end FdContext

namespace Watched

variable {s next : Watched n S F C} {op : Op S F C} {accepts : Bool} {out : Section S F C Bool}

@[simp] theorem enter_level (s : Watched n S F C) (call : EpollCall) : (s.enter call).level = s.level := by
  unfold enter
  split <;> rfl

@[simp] theorem enter_collected (s : Watched n S F C) (call : EpollCall) :
    (s.enter call).collected = s.collected := by
  unfold enter
  split <;> rfl

@[simp] theorem enter_aborted (s : Watched n S F C) (call : EpollCall) :
    (s.enter call).aborted = s.aborted := by
  unfold enter
  split <;> rfl

/-- What a section leaves of the kernel and of the reports: the entry is that of the new mask,
and a change of it is behind a poll. -/
structure Operated (s : Watched n S F C) (accepts : Bool) (op : Op S F C) (out : Section S F C Bool)
    (next : Watched n S F C) : Prop where
  ctx : next.ctx = out.ctx
  level : next.level = s.level
  collected : next.collected = s.collected
  aborted : next.aborted = s.aborted
  handed : next.handed = s.handed ++ out.handed
  deleted : next.deleted = s.deleted ++ dropped op out.returned
  interest : next.interest = Kernel.mirror out.ctx.events
  listed : (∃ call, s.ctx.epollCall op = some call ∧ s.ctl accepts call = true) ∧
      (∀ event, next.Due event → next.listed = true) ∨
    (∀ call, s.ctx.epollCall op = some call → s.ctl accepts call = false) ∧ next.listed = s.listed ∧ out.ctx = s.ctx

theorem operate_ok (mirrors : s.interest = Kernel.mirror s.ctx.events)
    (ran : s.ctx.run (s.ctl accepts) s.pendingEventCount op = .ok out) :
    Operated s accepts op out (s.operate accepts op) := by
  have unfolded : s.operate accepts op =
      { (((s.ctx.epollCall op).filter (s.ctl accepts)).elim s s.enter) with
        ctx := out.ctx
        pendingEventCount := out.pending
        handed := s.handed ++ out.handed
        deleted := s.deleted ++ dropped op out.returned } := by
    rw [operate, ran]
  by_cases accepted : ∃ call, s.ctx.epollCall op = some call ∧ s.ctl accepts call = true
  · obtain ⟨call, made, takes⟩ := accepted
    have entry := FdContext.run_accepted made takes ran
    rw [made, Option.filter_some_pos takes, Option.elim_some] at unfolded
    rw [unfolded]
    refine ⟨rfl, enter_level s call, enter_collected s call, enter_aborted s call, rfl, rfl, ?_,
      .inl ⟨⟨call, made, takes⟩, fun event due => ?_⟩⟩
    · rw [← entry, enter]
      split
      next mask found => exact found.symm
      next none => exact none.symm
    · obtain ⟨registered, ready⟩ := due
      replace registered : covers out.ctx.events event = true := registered
      rw [Kernel.mirror_some registered] at entry
      simp only [enter_level] at ready
      rw [← Kernel.polled_covers s.level registered] at ready
      simp only [enter, entry, Bool.or_eq_true, bne_iff_ne]
      exact .inr (Kernel.polled_ne_zero ready)
  · have refuses (call : EpollCall) (made : s.ctx.epollCall op = some call) : s.ctl accepts call = false := by
      by_contra takes
      exact accepted ⟨call, made, by simpa using takes⟩
    have same : out.ctx = s.ctx := by
      cases made : s.ctx.epollCall op with
      | none => rw [FdContext.run_idle made ran]
      | some call =>
        rw [FdContext.run_refused made (refuses call made)] at ran
        rw [← Except.ok.inj ran]
    have filtered : (s.ctx.epollCall op).filter (s.ctl accepts) = none :=
      Option.filter_eq_none_iff.mpr fun call made => by simp [refuses call made]
    rw [filtered, Option.elim_none] at unfolded
    rw [unfolded]
    exact ⟨rfl, rfl, rfl, rfl, rfl, rfl, by rw [same]; exact mirrors, .inr ⟨refuses, rfl, same⟩⟩

/-- A section in which no assertion fails has run to its end. -/
theorem operate_ran (mirrors : s.interest = Kernel.mirror s.ctx.events)
    (goes : (s.operate accepts op).aborted = false) :
    ∃ out, s.ctx.run (s.ctl accepts) s.pendingEventCount op = .ok out ∧
      Operated s accepts op out (s.operate accepts op) := by
  cases ran : s.ctx.run (s.ctl accepts) s.pendingEventCount op with
  | error fault => simp [operate, ran] at goes
  | ok out => exact ⟨out, rfl, operate_ok mirrors ran⟩

/-! ## Steps -/

/-- What holds until an assertion fails: the two levels agree, and whatever the file is ready
for and registered is listed, or reported to a worker. -/
structure Sound (s : Watched n S F C) : Prop where
  mirrors : s.interest = Kernel.mirror s.ctx.events
  kept : ∀ event, s.Due event → s.listed = true ∨ ∃ w, s.Reports w event

/-- The report of a registered event leads to an `epoll_ctl` that the kernel admits. -/
theorem dispatch_accepted (mirrors : s.interest = Kernel.mirror s.ctx.events) {event : Event}
    {reported : Mask} (registered : covers s.ctx.events event = true)
    (covered : covers (realEvents reported) event = true) :
    ∃ call, s.ctx.epollCall (.dispatch reported) = some call ∧ s.ctl true call = true := by
  have due : s.ctx.events &&& realEvents reported ≠ 0 := by
    rw [Ne, and_realEvents_eq_zero_iff]
    intro none
    simpa [registered, covered] using none event
  refine ⟨s.ctx.dropCall s.ctx.fd (realEvents reported), by rw [FdContext.epollCall, if_neg due], ?_⟩
  rw [ctl, Kernel.admits, mirrors, Kernel.mirror_some registered, FdContext.dropCall]
  by_cases last : s.ctx.events &&& ~~~realEvents reported = 0
  · rw [if_pos last]
    rfl
  · rw [if_neg last]
    rfl

/-- A section of any thread, with a report of a worker used up before it. -/
theorem operate_sound (mirrors : s.interest = Kernel.mirror s.ctx.events)
    (kept : ∀ event, s.Due event → s.listed = true ∨ (∃ w, s.Reports w event) ∨
      ∃ call, s.ctx.epollCall op = some call ∧ s.ctl accepts call = true)
    (goes : (s.operate accepts op).aborted = false) : (s.operate accepts op).Sound := by
  obtain ⟨out, -, did⟩ := operate_ran mirrors goes
  refine ⟨by rw [did.interest, did.ctx], fun event due => ?_⟩
  obtain ⟨-, listed⟩ | ⟨refuses, listed, same⟩ := did.listed
  · exact .inl (listed event due)
  · -- Nothing was changed, so the event was due before.
    have before : s.Due event := by
      rw [Due, did.ctx, did.level, same] at due
      exact due
    obtain here | ⟨w, reported, has, covered⟩ | ⟨call, made, takes⟩ := kept event before
    · exact .inl (listed.trans here)
    · exact .inr ⟨w, reported, by rw [did.collected]; exact has, covered⟩
    · cases (refuses call made).symm.trans takes

theorem step_collect {w : Fin n} (stepped : s.step (.collect w) = some next) :
    ∃ mask, s.interest = some mask ∧ s.listed = true ∧ s.collected w = none ∧
      next = { s with
        listed := false
        collected := Function.update s.collected w
          (if Kernel.polled s.level mask = 0 then none else some (Kernel.polled s.level mask)) } := by
  simp only [step] at stepped
  split at stepped
  next => cases stepped
  split at stepped
  next mask entry listed free => exact ⟨mask, entry, listed, free, (Option.some.inj stepped).symm⟩
  next => cases stepped

theorem step_dispatch {w : Fin n} (stepped : s.step (.dispatch w accepts) = some next) :
    ∃ reported, s.collected w = some reported ∧
      next = { s with collected := Function.update s.collected w none }.operate accepts (.dispatch reported) := by
  simp only [step] at stepped
  split at stepped
  next => cases stepped
  next =>
    obtain ⟨reported, has, same⟩ := Option.map_eq_some_iff.mp stepped
    exact ⟨reported, has, same.symm⟩

theorem step_call (stepped : s.step (.call op accepts) = some next) : next = s.operate accepts op := by
  simp only [step] at stepped
  split at stepped
  next => cases stepped
  split at stepped
  next => exact (Option.some.inj stepped).symm
  next => cases stepped

theorem step_change {level : Mask} {wakes : Bool} (stepped : s.step (.change level wakes) = some next) :
    next = { s with
      level := level
      listed := s.listed || s.interest.any fun mask =>
        wakes || Kernel.polled level mask &&& ~~~Kernel.polled s.level mask != 0 } := by
  simp only [step] at stepped
  split at stepped
  next => cases stepped
  next => exact (Option.some.inj stepped).symm

theorem step_elsewhere {pendingEventCount : Nat}
    (stepped : s.step (.elsewhere pendingEventCount) = some next) :
    next = { s with pendingEventCount := pendingEventCount } := by
  simp only [step] at stepped
  split at stepped
  next => cases stepped
  next => exact (Option.some.inj stepped).symm

/-- What a worker is told covers what is registered and what the file is ready for. -/
theorem collect_reports (mirrors : s.interest = Kernel.mirror s.ctx.events) {w : Fin n}
    (stepped : s.step (.collect w) = some next) {event : Event} (due : s.Due event) :
    next.Reports w event := by
  obtain ⟨mask, entry, -, -, rfl⟩ := step_collect stepped
  obtain ⟨registered, ready⟩ := due
  have same : mask = EPOLLET ||| s.ctx.events := by
    rw [mirrors, Kernel.mirror_some registered] at entry
    exact (Option.some.inj entry).symm
  rw [← Kernel.polled_covers s.level registered, ← same] at ready
  refine ⟨Kernel.polled s.level mask, ?_, ready⟩
  simp only [Function.update_self, if_neg (Kernel.polled_ne_zero ready)]

theorem step_sound {label : Label n S F C} (sound : s.Sound) (fits : Dispatches s label)
    (stepped : s.step label = some next) (goes : next.aborted = false) : next.Sound := by
  cases label with
  | change level wakes =>
    obtain rfl := step_change stepped
    refine ⟨sound.mirrors, fun event ⟨registered, ready⟩ => ?_⟩
    simp only at registered ready
    by_cases before : covers (realEvents s.level) event = true
    · obtain listed | reports := sound.kept event ⟨registered, before⟩
      · exact .inl (by simp [listed])
      · exact .inr reports
    · -- The file has become ready for it, and wakes the epoll set up.
      left
      rw [← Kernel.polled_covers _ registered] at ready before
      have more : Kernel.polled level (EPOLLET ||| s.ctx.events) &&&
          ~~~Kernel.polled s.level (EPOLLET ||| s.ctx.events) ≠ 0 :=
        fun none => before (realEvents_mono none ready)
      have woken : (wakes || Kernel.polled level (EPOLLET ||| s.ctx.events) &&&
          ~~~Kernel.polled s.level (EPOLLET ||| s.ctx.events) != 0) = true := by
        rw [bne_iff_ne.mpr more, Bool.or_true]
      simp only [sound.mirrors, Kernel.mirror_some registered, Option.any_some, woken, Bool.or_true]
  | collect w =>
    refine ⟨?_, fun event due => .inr ⟨w, collect_reports sound.mirrors stepped ?_⟩⟩
    all_goals obtain ⟨mask, -, -, -, rfl⟩ := step_collect stepped
    · exact sound.mirrors
    · exact due
  | dispatch w takes =>
    obtain rfl : takes = true := by
      cases takes with
      | true => rfl
      | false => exact absurd rfl (fits w)
    obtain ⟨reported, has, rfl⟩ := step_dispatch stepped
    refine operate_sound sound.mirrors (fun event due => ?_) goes
    obtain listed | ⟨other, report, has', covered⟩ := sound.kept event due
    · exact .inl listed
    · -- The report that is used up is answered by an `epoll_ctl`, behind which the file is polled.
      rcases eq_or_ne other w with rfl | distinct
      · cases has.symm.trans has'
        exact .inr (.inr (dispatch_accepted sound.mirrors due.1 covered))
      · refine .inr (.inl ⟨other, report, ?_, covered⟩)
        simp only [Function.update_of_ne distinct]
        exact has'
  | call op takes =>
    obtain rfl := step_call stepped
    exact operate_sound sound.mirrors (fun event due => (sound.kept event due).imp_right .inl) goes
  | elsewhere pending =>
    obtain rfl := step_elsewhere stepped
    exact ⟨sound.mirrors, sound.kept⟩

theorem sound_of_reaches (reached : (machine n S F C).Reaches Dispatches s)
    (goes : s.aborted = false) : s.Sound := by
  have sound : s.aborted = false → s.Sound := by
    refine reached.invariant (P := fun s => s.aborted = false → s.Sound) (fun s begins _ => ?_)
      fun s label next sound fits stepped goes => ?_
    · obtain ⟨fd, level, rfl⟩ := begins
      exact ⟨rfl, fun event ⟨registered, _⟩ => by simp [initial, FdContext.fresh] at registered⟩
    · have before : s.aborted = false := by
        by_contra aborted
        rw [Bool.not_eq_false] at aborted
        replace stepped : s.step label = some next := stepped
        simp [step, aborted] at stepped
      exact step_sound (sound before) fits stepped goes
  exact sound goes

/-- However the threads interleave, a registered event that the file is ready for is in the report
of a worker on its way to the dispatch, or the next `epoll_wait` reports it. -/
theorem readiness_kept (reached : (machine n S F C).Reaches Dispatches s) (goes : s.aborted = false)
    {event : Event} (registered : covers s.ctx.events event = true)
    (ready : covers (realEvents s.level) event = true) :
    (∃ mask, s.interest = some mask ∧ s.listed = true ∧ covers (realEvents (Kernel.polled s.level mask)) event = true) ∨
      ∃ w reported, s.collected w = some reported ∧ covers (realEvents reported) event = true := by
  have sound := sound_of_reaches reached goes
  obtain listed | ⟨w, reports⟩ := sound.kept event ⟨registered, ready⟩
  · refine .inl ⟨_, sound.mirrors.trans (Kernel.mirror_some registered), listed, ?_⟩
    rw [Kernel.polled_covers s.level registered]
    exact ready
  · exact .inr ⟨w, reports⟩

def dispatchesTest (_ : Watched n S F C) : Label n S F C → Bool
  | .dispatch _ accepts => accepts
  | _ => true

theorem dispatches_of_test (s : Watched n S F C) (label : Label n S F C)
    (passed : dispatchesTest s label = true) :
    Dispatches s label := by
  rintro w rfl
  cases passed

/-- Fiber 7 waits for input, which comes while the report of an earlier one is with worker 0. -/
def comesMeanwhile : List (Label 2 Unit Nat Nat) :=
  [.call (.addEvent ⟨some (), 6, true⟩ 5 .read none) true, .change EPOLLIN false, .collect 0,
    .call (.cancelEvent 5 .read) true, .change 0 false, .call (.addEvent ⟨some (), 7, true⟩ 5 .read none) true,
    .change EPOLLIN false]

theorem readiness_kept_comesMeanwhile :
    ∃ s : Watched 2 Unit Nat Nat, (machine 2 Unit Nat Nat).Reaches Dispatches s ∧ s.aborted = false ∧
      ((∃ mask, s.interest = some mask ∧ s.listed = true ∧
          covers (realEvents (Kernel.polled s.level mask)) .read = true) ∨
        ∃ w reported, s.collected w = some reported ∧ covers (realEvents reported) .read = true) := by
  obtain ⟨s, reached, test⟩ := System.reaches_test (machine 2 Unit Nat Nat) Dispatches dispatchesTest dispatches_of_test
    (initial 2 5 0) ⟨5, 0, rfl⟩ comesMeanwhile
    (fun s => s.aborted = false ∧ covers s.ctx.events .read = true ∧ covers (realEvents s.level) .read = true) (by decide)
  obtain ⟨goes, registered, ready⟩ := of_decide_eq_true test
  exact ⟨s, reached, goes, readiness_kept reached goes registered ready⟩

/-! ## Fair runs -/

/-- The waiter has been handed over since, or dropped, or the file is not ready for it any more. -/
def Answered (base : Watched n S F C) (event : Event) (waiter : Handed S F C) (s : Watched n S F C) : Prop :=
  (∃ more, s.handed = base.handed ++ more ∧ waiter ∈ more) ∨ (∃ more, s.deleted = base.deleted ++ more ∧ event ∈ more) ∨
    covers (realEvents s.level) event = false ∨ s.aborted = true

/-- Still registered and ready. -/
structure Awaits (base : Watched n S F C) (event : Event) (waiter : Handed S F C) (s : Watched n S F C) : Prop where
  sound : s.Sound
  goes : s.aborted = false
  due : s.Due event
  waits : s.ctx.handover event = some waiter
  handed : ∃ more, s.handed = base.handed ++ more
  deleted : ∃ more, s.deleted = base.deleted ++ more

/-- How many steps the worker is from the dispatch of the event. -/
inductive Way (s : Watched n S F C) (event : Event) : Nat → Fin n → Prop where
  | reported {w : Fin n} : s.Reports w event → Way s event 0 w
  | free {w : Fin n} : s.listed = true → s.collected w = none → Way s event 1 w
  | other {w : Fin n} {reported : Mask} : s.listed = true → s.collected w = some reported → Way s event 2 w

variable {base : Watched n S F C} {event : Event} {waiter : Handed S F C}

theorem operate_ends (mirrors : s.interest = Kernel.mirror s.ctx.events)
    (registered : covers s.ctx.events event = true) (waits : s.ctx.handover event = some waiter)
    (goes : (s.operate accepts op).aborted = false)
    (handed : ∃ more, s.handed = base.handed ++ more)
    (deleted : ∃ more, s.deleted = base.deleted ++ more) :
    Answered base event waiter (s.operate accepts op) ∨
      covers (s.operate accepts op).ctx.events event = true ∧ (s.operate accepts op).ctx.handover event = some waiter ∧
        (∃ more, (s.operate accepts op).handed = base.handed ++ more) ∧
        ∃ more, (s.operate accepts op).deleted = base.deleted ++ more := by
  obtain ⟨out, ran, did⟩ := operate_ran mirrors goes
  obtain ⟨before, handed⟩ := handed
  obtain ⟨gone, deleted⟩ := deleted
  have after : (s.operate accepts op).handed = base.handed ++ (before ++ out.handed) := by
    rw [did.handed, handed, List.append_assoc]
  have later : (s.operate accepts op).deleted = base.deleted ++ (gone ++ dropped op out.returned) := by
    rw [did.deleted, deleted, List.append_assoc]
  obtain ⟨registered, waits⟩ | given | dropped := (FdContext.effect_of_run ran).ends registered waits
  · exact .inr ⟨by rw [did.ctx]; exact registered, by rw [did.ctx]; exact waits, ⟨_, after⟩, _, later⟩
  · exact .inl (.inl ⟨_, after, List.mem_append_right _ given⟩)
  · exact .inl (.inr (.inl ⟨_, later, List.mem_append_right _ dropped⟩))

theorem Awaits.step {label : Label n S F C} (awaits : Awaits base event waiter s)
    (fits : Dispatches s label) (stepped : s.step label = some next) :
    Answered base event waiter next ∨ Awaits base event waiter next := by
  by_cases aborted : next.aborted = true
  · exact .inl (.inr (.inr (.inr aborted)))
  by_cases ready : covers (realEvents next.level) event = true
  case neg => exact .inl (.inr (.inr (.inl (by simpa using ready))))
  have goes : next.aborted = false := by simpa using aborted
  have sound := step_sound awaits.sound fits stepped goes
  have calm (ctx : next.ctx = s.ctx) (handed : next.handed = s.handed) (deleted : next.deleted = s.deleted) :
      Awaits base event waiter next :=
    ⟨sound, goes, ⟨by rw [ctx]; exact awaits.due.1, ready⟩, by rw [ctx]; exact awaits.waits,
      by rw [handed]; exact awaits.handed, by rw [deleted]; exact awaits.deleted⟩
  cases label with
  | change level wakes =>
    obtain rfl := step_change stepped
    exact .inr (calm rfl rfl rfl)
  | collect w =>
    obtain ⟨mask, -, -, -, rfl⟩ := step_collect stepped
    exact .inr (calm rfl rfl rfl)
  | elsewhere pending =>
    obtain rfl := step_elsewhere stepped
    exact .inr (calm rfl rfl rfl)
  | dispatch w accepts =>
    obtain ⟨reported, -, rfl⟩ := step_dispatch stepped
    refine (operate_ends (s := { s with collected := Function.update s.collected w none }) awaits.sound.mirrors
      awaits.due.1 awaits.waits goes awaits.handed awaits.deleted).imp_right ?_
    rintro ⟨registered, waits, handed, deleted⟩
    exact ⟨sound, goes, ⟨registered, ready⟩, waits, handed, deleted⟩
  | call op accepts =>
    obtain rfl := step_call stepped
    refine (operate_ends awaits.sound.mirrors awaits.due.1 awaits.waits goes awaits.handed awaits.deleted).imp_right ?_
    rintro ⟨registered, waits, handed, deleted⟩
    exact ⟨sound, goes, ⟨registered, ready⟩, waits, handed, deleted⟩

/-- The dispatch of a report ends the registrations that it covers. -/
theorem dispatch_ends (mirrors : s.interest = Kernel.mirror s.ctx.events) {reported : Mask}
    (covered : covers (realEvents reported) event = true)
    (goes : (s.operate true (.dispatch reported)).aborted = false) :
    covers (s.operate true (.dispatch reported)).ctx.events event = false := by
  obtain ⟨out, ran, did⟩ := operate_ran mirrors goes
  rw [did.ctx]
  by_cases registered : covers s.ctx.events event = true
  · -- The kernel admits the call, so the section triggers what is reported.
    obtain ⟨call, made, takes⟩ := dispatch_accepted mirrors registered covered
    have due : s.ctx.events &&& realEvents reported ≠ 0 := by
      intro none
      simp [FdContext.epollCall, none] at made
    rw [FdContext.epollCall, if_neg due, Option.some.injEq] at made
    obtain ⟨result, dispatched, rfl⟩ := map_ok ran
    simp only [FdContext.dispatch, if_neg due, made, takes] at dispatched
    obtain ⟨-, rfl⟩ := FdContext.triggers_ok_iff.mp dispatched
    have chosen : event ∈ FdContext.chosen (realEvents reported) := FdContext.mem_chosen.mpr covered
    simp [FdContext.releasedAll_events, chosen]
  · have effect := FdContext.effect_of_run ran
    cases effect with
    | refused => simpa using registered
    | triggered => simp [FdContext.releasedAll_events, registered]

/-- A section leaves an entry listed that there is still something to report of. -/
theorem operate_listed (mirrors : s.interest = Kernel.mirror s.ctx.events) (listed : s.listed = true)
    (goes : (s.operate accepts op).aborted = false) (due : (s.operate accepts op).Due event) :
    (s.operate accepts op).listed = true := by
  obtain ⟨out, -, did⟩ := operate_ran mirrors goes
  obtain ⟨-, polled⟩ | ⟨-, same, -⟩ := did.listed
  · exact polled event due
  · exact same.trans listed

theorem operate_collected (mirrors : s.interest = Kernel.mirror s.ctx.events)
    (goes : (s.operate accepts op).aborted = false) : (s.operate accepts op).collected = s.collected := by
  obtain ⟨out, -, did⟩ := operate_ran mirrors goes
  exact did.collected

/-- The worker on its way dispatches the event, or its next step is one towards that;
no step of another leads away. -/
theorem Way.step {label : Label n S F C} {distance : Nat} {w : Fin n} (way : s.Way event distance w)
    (sound : s.Sound) (due : s.Due event) (fits : Dispatches s label)
    (stepped : s.step label = some next) (goes : next.aborted = false) (later : next.Due event) :
    (∃ less < distance, ∃ other, next.Way event less other) ∨ next.Way event distance w ∧ label.actor ≠ some w := by
  have calm (collected : next.collected = s.collected) (listed : s.listed = true → next.listed = true) :
      next.Way event distance w := by
    cases way with
    | reported reports =>
      refine .reported ?_
      rw [Reports, collected]
      exact reports
    | free here unused => exact .free (listed here) (by rw [collected]; exact unused)
    | other here used => exact .other (listed here) (by rw [collected]; exact used)
  cases label with
  | change level wakes =>
    obtain rfl := step_change stepped
    exact .inr ⟨calm rfl fun here => by simp [here], nofun⟩
  | elsewhere pending =>
    obtain rfl := step_elsewhere stepped
    exact .inr ⟨calm rfl id, nofun⟩
  | call op accepts =>
    obtain rfl := step_call stepped
    exact .inr ⟨calm (operate_collected sound.mirrors goes) fun here => operate_listed sound.mirrors here goes later,
      nofun⟩
  | collect v =>
    have reports := collect_reports sound.mirrors stepped due
    obtain ⟨mask, -, -, unused, rfl⟩ := step_collect stepped
    cases way with
    | reported here =>
      obtain ⟨reported, has, covered⟩ := here
      have distinct : w ≠ v := by
        rintro rfl
        cases has.symm.trans unused
      refine .inr ⟨.reported ⟨reported, ?_, covered⟩, fun same => distinct (Option.some.inj same).symm⟩
      simp only [Function.update_of_ne distinct]
      exact has
    -- Whoever collects the entry has the report of the event.
    | free | other => exact .inl ⟨0, by decide, v, .reported reports⟩
  | dispatch v accepts =>
    obtain rfl : accepts = true := by
      cases accepts with
      | true => rfl
      | false => exact absurd rfl (fits v)
    obtain ⟨reported, has, rfl⟩ := step_dispatch stepped
    have collected := operate_collected (s := { s with collected := Function.update s.collected v none })
      sound.mirrors goes
    have listed (here : s.listed = true) :=
      operate_listed (s := { s with collected := Function.update s.collected v none }) sound.mirrors here goes later
    rcases eq_or_ne w v with rfl | distinct
    · cases way with
      | reported here =>
        obtain ⟨same, has', covered⟩ := here
        cases has.symm.trans has'
        have ended := dispatch_ends (s := { s with collected := Function.update s.collected w none })
          sound.mirrors covered goes
        cases ended.symm.trans later.1
      | free here unused => cases has.symm.trans unused
      | other here used =>
        exact .inl ⟨1, by decide, w, .free (listed here) (by rw [collected]; exact Function.update_self ..)⟩
    · refine .inr ⟨?_, fun same => distinct (Option.some.inj same).symm⟩
      cases way with
      | reported here =>
        obtain ⟨report, has', covered⟩ := here
        refine .reported ⟨report, ?_, covered⟩
        rw [collected]
        exact (Function.update_of_ne distinct ..).trans has'
      | free here unused =>
        exact .free (listed here) (by rw [collected]; exact (Function.update_of_ne distinct ..).trans unused)
      | other here used =>
        exact .other (listed here) (by rw [collected]; exact (Function.update_of_ne distinct ..).trans used)

theorem Way.able {distance : Nat} {w : Fin n} (way : s.Way event distance w) (sound : s.Sound)
    (goes : s.aborted = false) (due : s.Due event) :
    ∃ label, label.actor = some w ∧ ∃ next, s.step label = some next := by
  have dispatches {reported : Mask} (has : s.collected w = some reported) :
      ∃ label : Label n S F C, label.actor = some w ∧ ∃ next, s.step label = some next :=
    ⟨.dispatch w true, rfl, _, by rw [Watched.step, if_neg (by simp [goes]), has, Option.map_some]⟩
  cases way with
  | reported reports =>
    obtain ⟨reported, has, -⟩ := reports
    exact dispatches has
  | free listed unused =>
    refine ⟨.collect w, rfl, Option.isSome_iff_exists.mp ?_⟩
    rw [Watched.step, if_neg (by simp [goes]), sound.mirrors, Kernel.mirror_some due.1, listed, unused]
    rfl
  | other listed used => exact dispatches used

theorem awaits_drives (base : Watched n S F C) (event : Event) (waiter : Handed S F C) :
    System.Run.Drives (machine n S F C) Dispatches Label.actor (Answered base event waiter)
      fun distance w s => Awaits base event waiter s ∧ s.Way event distance w where
  able distance w s := fun ⟨awaits, way⟩ => way.able awaits.sound awaits.goes awaits.due
  closer distance w s label next := fun ⟨awaits, way⟩ fits stepped => by
    obtain answered | later := awaits.step fits stepped
    · exact .inl answered
    · obtain ⟨less, lower, other, way⟩ | ⟨way, other⟩ := way.step awaits.sound awaits.due fits stepped later.goes later.due
      · exact .inr (.inl ⟨less, lower, other, later, way⟩)
      · exact .inr (.inr ⟨⟨later, way⟩, other⟩)

/-- The old report is dispatched after that, and finds the new waiter. -/
def comesMeanwhileDispatched : List (Label 2 Unit Nat Nat) := comesMeanwhile ++ [.dispatch 0 true]

end Watched
end HpsSf.IOManager
