import HpsSf.IOManager.Bounds
import HpsSf.IOManager.Kernel

/-! `cancelAll` beside `cancelEvent` for each of the two events.

One takes the descriptor out of the epoll set at once and then triggers what is
registered; the other recomputes the mask in between. The mask has no other bits
than those of the two events, so both end with an empty one.
-/

set_option autoImplicit false

namespace HpsSf.IOManager
open Foundation
open Scheduler (FiberAndThread scheduleNoLock)

variable {S F C T : Type}

/-- The bits that are of neither event. -/
def otherBits : Mask := ~~~(Event.read.mask ||| Event.write.mask)

theorem mask_otherBits (event : Event) : event.mask &&& otherBits = 0 := by cases event <;> decide

/-- A mask without other bits that covers neither event is empty. -/
theorem eq_zero_of_bits {mask : Mask} (bounded : mask &&& otherBits = 0) (read : covers mask .read = false)
    (write : covers mask .write = false) : mask = 0 := by
  have both : mask &&& (Event.read.mask ||| Event.write.mask) = 0 := by
    rw [BitVec.and_or_distrib_left, (and_mask_eq_zero_iff mask .read).mpr read,
      (and_mask_eq_zero_iff mask .write).mpr write]
    rfl
  calc mask
      = mask &&& (Event.read.mask ||| Event.write.mask ||| otherBits) := by
        rw [show Event.read.mask ||| Event.write.mask ||| otherBits = BitVec.allOnes 32 by decide, BitVec.and_allOnes]
    _ = 0 := by
        rw [BitVec.and_or_distrib_left, both, bounded]
        rfl

/-! ## The sections -/

namespace FdContext

/-- `cancelEvent` for READ and then for WRITE. -/
def cancelBoth (ctl : EpollCall → Bool) (ctx : FdContext S F C) (pending : Nat) (fd : Int) :
    Except Fault (Section S F C Bool) := do
  let first ← ctx.cancelEvent ctl pending fd .read
  let last ← first.ctx.cancelEvent ctl first.pending fd .write
  pure ⟨last.ctx, last.pending, first.handed ++ last.handed, first.returned || last.returned⟩

variable {ctl : EpollCall → Bool} {ctx : FdContext S F C} {pending : Nat} {fd : Int}

theorem cancelEvent_of_covers {event : Event} (accepts : ∀ call : EpollCall, call.fd = fd → ctl call = true)
    (registered : covers ctx.events event = true) :
    ctx.cancelEvent ctl pending fd event =
      (ctx.triggerEvent event >>= fun out => pure ⟨out.1, decr64 pending, [out.2], true⟩) := by
  rw [cancelEvent, if_pos registered, if_pos (accepts _ rfl)]

theorem cancelEvent_of_not_covers {event : Event} (unregistered : covers ctx.events event = false) :
    ctx.cancelEvent ctl pending fd event = .ok ⟨ctx, pending, [], false⟩ := by
  rw [cancelEvent, if_neg (by simp [unregistered])]
  rfl

theorem triggerIf_of_covers {mask : Mask} {event : Event} (before : Section S F C Unit)
    (covered : covers mask event = true) :
    triggerIf mask event before = (before.ctx.triggerEvent event >>= fun out =>
      pure ⟨out.1, decr64 before.pending, before.handed ++ [out.2], ()⟩) := by
  rw [triggerIf, if_pos covered]

theorem triggerIf_of_not_covers {mask : Mask} {event : Event} (before : Section S F C Unit)
    (uncovered : covers mask event = false) : triggerIf mask event before = .ok before := by
  rw [triggerIf, if_neg (by simp [uncovered])]
  rfl

/-- What is left when everything that is registered has been triggered. -/
theorem released_empty {after : FdContext S F C} (bounded : ctx.events &&& otherBits = 0) (events : List Event)
    (same : after = ctx.releasedAll events) (all : ∀ event, covers ctx.events event = true → event ∈ events) :
    after.events = 0 := by
  have none (event : Event) : covers after.events event = false := by
    rw [same, releasedAll_events]
    cases registered : covers ctx.events event with
    | false => rfl
    | true => simp [all event registered]
  exact eq_zero_of_bits (same ▸ plain_releasedAll bounded events) (none .read) (none .write)

/-- Both are the same program, also where an assertion fails. -/
theorem cancelAll_eq_cancelBoth (accepts : ∀ call : EpollCall, call.fd = fd → ctl call = true)
    (bounded : ctx.events &&& otherBits = 0) : ctx.cancelAll ctl pending fd = ctx.cancelBoth ctl pending fd := by
  have some {event : Event} (registered : covers ctx.events event = true) : ctx.events ≠ 0 := by
    intro none
    simp [none] at registered
  have accepted := accepts ⟨.del, fd, 0⟩ rfl
  unfold cancelAll cancelBoth
  cases read : covers ctx.events .read with
  | false =>
    rw [cancelEvent_of_not_covers read, triggerIf_of_not_covers _ read]
    cases write : covers ctx.events .write with
    | false =>
      rw [if_pos (eq_zero_of_bits bounded read write)]
      simp only [Bind.bind, Except.bind, cancelEvent_of_not_covers write]
      rfl
    | true =>
      rw [if_neg (some write), if_pos accepted]
      simp only [Bind.bind, Except.bind, cancelEvent_of_covers accepts write, triggerIf_of_covers _ write]
      cases triggered : ctx.triggerEvent .write with
      | error fault => rfl
      | ok out =>
        obtain ⟨-, -, after⟩ := triggerEvent_ok_iff.mp triggered
        have empty : out.1.events = 0 := released_empty bounded [.write] after fun event registered => by
          cases event <;> simp_all
        simp only [Pure.pure, Except.pure, empty, if_true]
        rfl
  | true =>
    rw [if_neg (some read), if_pos accepted, cancelEvent_of_covers accepts read, triggerIf_of_covers _ read]
    cases triggered : ctx.triggerEvent .read with
    | error fault => rfl
    | ok out =>
      obtain ⟨ctx', handed⟩ := out
      obtain ⟨-, -, after⟩ := triggerEvent_ok_iff.mp triggered
      have later : covers ctx'.events .write = covers ctx.events .write := by
        rw [after, released_events, covers_diff]
        simp
      simp only [Bind.bind, Except.bind, Pure.pure, Except.pure]
      cases write : covers ctx.events .write with
      | false =>
        rw [write] at later
        have empty : ctx'.events = 0 := released_empty bounded [.read] after fun event registered => by
          cases event <;> simp_all
        rw [triggerIf_of_not_covers _ later, cancelEvent_of_not_covers later]
        simp only [empty, if_true]
        rfl
      | true =>
        rw [write] at later
        simp only [triggerIf_of_covers _ later, cancelEvent_of_covers accepts later, Bind.bind, Except.bind]
        cases triggered' : ctx'.triggerEvent .write with
        | error fault => rfl
        | ok out =>
          obtain ⟨-, -, after'⟩ := triggerEvent_ok_iff.mp triggered'
          have both : out.1 = ctx.releasedAll [.read, .write] := by rw [after', after]; rfl
          have empty : out.1.events = 0 := released_empty bounded _ both fun event registered => by
            cases event <;> simp_all
          simp only [Pure.pure, Except.pure, empty, if_true]
          rfl

end FdContext

/-! ## The kernel and the schedulers -/

/-- Beside the registry: the epoll set, the queues of the schedulers, and for each call
of `schedule` whether it made `tickle` necessary. -/
structure World (S F C : Type) where
  registry : Registry S F C
  kernel : Kernel
  queues : S → List (FiberAndThread F C)
  tickles : List (S × Bool)

/-- The epoll set after the `epoll_ctl` of a section, if it makes one and that succeeds. -/
def Kernel.answered (ctl : EpollCall → Bool) (kernel : Kernel) : Option EpollCall → Kernel
  | some made => if ctl made then kernel.after made else kernel
  | none => kernel

namespace FdContext

variable {ctl : EpollCall → Bool} {ctx : FdContext S F C} {fd : Int}

theorem answered_cancelEvent (accepts : ∀ call : EpollCall, call.fd = fd → ctl call = true) (kernel : Kernel)
    (event : Event) :
    kernel.answered ctl (ctx.epollCall (.cancelEvent fd event)) =
      if covers ctx.events event then kernel.after (ctx.dropCall fd event.mask) else kernel := by
  simp only [epollCall]
  split
  · exact if_pos (accepts _ rfl)
  · rfl

theorem answered_cancelAll (accepts : ∀ call : EpollCall, call.fd = fd → ctl call = true) (kernel : Kernel) :
    kernel.answered ctl (ctx.epollCall (.cancelAll fd)) =
      if ctx.events = 0 then kernel else Function.update kernel fd none := by
  simp only [epollCall]
  split
  · rfl
  · exact if_pos (accepts _ rfl)

/-- When the last event goes, the descriptor does. -/
theorem after_dropCall (kernel : Kernel) (bounded : ctx.events &&& otherBits = 0) {event : Event}
    (only : ∀ other, covers ctx.events other = true → other = event) :
    kernel.after (ctx.dropCall fd event.mask) = Function.update kernel fd none := by
  have last : ctx.events &&& ~~~event.mask = 0 := by
    rw [← released_events]
    exact released_empty bounded [event] rfl fun other registered => by simp [only other registered]
  rw [Kernel.after, dropCall, if_pos last]
  rfl

/-- Either way the descriptor is out of the epoll set if it was in it. -/
theorem answered_cancelBoth (accepts : ∀ call : EpollCall, call.fd = fd → ctl call = true) (kernel : Kernel)
    {pending : Nat} (bounded : ctx.events &&& otherBits = 0) {first : Section S F C Bool}
    (went : ctx.cancelEvent ctl pending fd .read = .ok first) :
    (kernel.answered ctl (ctx.epollCall (.cancelEvent fd .read))).answered ctl
        (first.ctx.epollCall (.cancelEvent fd .write)) = kernel.answered ctl (ctx.epollCall (.cancelAll fd)) := by
  have some {event : Event} (registered : covers ctx.events event = true) : ctx.events ≠ 0 := by
    intro none
    simp [none] at registered
  rw [answered_cancelEvent accepts, answered_cancelEvent accepts, answered_cancelAll accepts]
  cases read : covers ctx.events .read with
  | false =>
    cases (cancelEvent_of_not_covers read).symm.trans went
    cases write : covers ctx.events .write with
    | false => simp [eq_zero_of_bits bounded read write]
    | true =>
      have only (other : Event) (registered : covers ctx.events other = true) : other = .write := by
        cases other <;> simp_all
      simp only [if_true, if_neg (some write)]
      exact after_dropCall kernel bounded only
  | true =>
    obtain ⟨out, triggered, same⟩ := bind_ok ((cancelEvent_of_covers accepts read).symm.trans went)
    cases same
    obtain ⟨-, -, after⟩ := triggerEvent_ok_iff.mp triggered
    have later : covers out.1.events .write = covers ctx.events .write := by
      rw [after, released_events, covers_diff]
      simp
    rw [if_neg (some read)]
    simp only [later, if_true]
    cases write : covers ctx.events .write with
    | false =>
      have only (other : Event) (registered : covers ctx.events other = true) : other = .read := by
        cases other <;> simp_all
      exact after_dropCall kernel bounded only
    | true =>
      have rest : out.1.events &&& otherBits = 0 := by
        rw [after]
        exact plain_releasedAll bounded [.read]
      have only (other : Event) (registered : covers out.1.events other = true) : other = .write := by
        rw [after, released_events, covers_diff] at registered
        cases other <;> simp_all
      have twice : (kernel.after (ctx.dropCall fd Event.read.mask)).after (out.1.dropCall fd Event.write.mask) =
          Function.update (kernel.after (ctx.dropCall fd Event.read.mask)) fd none := after_dropCall _ rest only
      rw [if_pos rfl, twice, Kernel.after]
      exact Function.update_idem ..

end FdContext

namespace World

variable [DecidableEq S]

/-- The call of `schedule` in `triggerEvent`. -/
def schedule (w : World S F C) (handed : Handed S F C) : World S F C :=
  let (need_tickle, fibers) := scheduleNoLock (w.queues handed.scheduler) handed.task (-1)
  { w with
    queues := Function.update w.queues handed.scheduler fibers
    tickles := w.tickles ++ [(handed.scheduler, need_tickle)] }

def on (ctl : EpollCall → Bool) (w : World S F C) (call : Call S F C) : Except Fault (World S F C × Bool) :=
  (call.on ctl w.registry).map fun (registry, answer) =>
    (answer.handed.foldl schedule
      { w with registry := registry, kernel := w.kernel.answered ctl (call.epollCall w.registry) }, answer.returned)

/-- `cancelEvent` for READ and then for WRITE; the answer is whether one of them is true. -/
def cancelBoth (ctl : EpollCall → Bool) (w : World S F C) (fd : Int) : Except Fault (World S F C × Bool) := do
  let (first, read) ← w.on ctl (.cancelEvent fd .read)
  let (last, write) ← first.on ctl (.cancelEvent fd .write)
  pure (last, read || write)

/-- The world after a section on one context. -/
def after (w : World S F C) (id : Nat) (out : Section S F C Bool) (kernel : Kernel) : World S F C :=
  out.handed.foldl schedule
    { w with
      registry := { w.registry with contexts := w.registry.contexts.set id out.ctx, pendingEventCount := out.pending }
      kernel := kernel }

/-- Scheduling leaves the registry and the epoll set alone, and does not look at them. -/
theorem foldl_schedule (handed : List (Handed S F C)) (w : World S F C) (registry : Registry S F C) (kernel : Kernel) :
    handed.foldl schedule { w with registry := registry, kernel := kernel } =
      { handed.foldl schedule w with registry := registry, kernel := kernel } := by
  induction handed generalizing w with
  | nil => rfl
  | cons first rest ih => exact ih (w.schedule first)

theorem after_registry (w : World S F C) (id : Nat) (out : Section S F C Bool) (kernel : Kernel) :
    (w.after id out kernel).registry =
      { w.registry with contexts := w.registry.contexts.set id out.ctx, pendingEventCount := out.pending } := by
  rw [after, foldl_schedule]

theorem after_kernel (w : World S F C) (id : Nat) (out : Section S F C Bool) (kernel : Kernel) :
    (w.after id out kernel).kernel = kernel := by
  rw [after, foldl_schedule]

/-- Two sections on one context, one after the other. -/
theorem after_after (w : World S F C) (id : Nat) (first last : Section S F C Bool) (between kernel : Kernel) :
    (w.after id first between).after id last kernel =
      w.after id ⟨last.ctx, last.pending, first.handed ++ last.handed, first.returned || last.returned⟩ kernel := by
  let set (out : Section S F C Bool) : Registry S F C :=
    { w.registry with contexts := w.registry.contexts.set id out.ctx, pendingEventCount := out.pending }
  have begun : w.after id first between =
      { first.handed.foldl schedule w with registry := set first, kernel := between } := foldl_schedule ..
  have ended := foldl_schedule first.handed w (set last) kernel
  rw [begun, after, after, List.foldl_append, ended]
  simp only [set, List.set_set]

variable {ctl : EpollCall → Bool} {w : World S F C} {fd : Int} {id : Nat} {ctx : FdContext S F C}

/-- A call that finds its context is the section on it. -/
theorem on_found (located : w.registry.locate fd = .ok (some id)) (found : w.registry.contexts[id]? = some ctx)
    (ctl : EpollCall → Bool) (call : Call S F C)
    (known : call.op = .cancelAll fd ∨ ∃ event, call.op = .cancelEvent fd event) :
    w.on ctl call = (ctx.run ctl w.registry.pendingEventCount call.op).map fun out =>
      (w.after id out (w.kernel.answered ctl (ctx.epollCall call.op)), out.returned) := by
  have here : call.finds w.registry = .ok (w.registry, some id) := by
    cases call with
    | cancelEvent fd' event =>
      obtain known | ⟨event, known⟩ := known <;> cases known
      simp only [Call.finds, located]
      rfl
    | cancelAll fd' =>
      obtain known | ⟨event, known⟩ := known <;> cases known
      simp only [Call.finds, located]
      rfl
    | _ => obtain known | ⟨event, known⟩ := known <;> cases known
  rw [on, Call.on_eq, Call.epollCall, here]
  simp only [Bind.bind, Except.bind, Registry.within, found, Option.bind_some]
  cases ctx.run ctl w.registry.pendingEventCount call.op <;> rfl

/-- On a context that is found, with a mask of the two events. -/
theorem cancelAll_found (located : w.registry.locate fd = .ok (some id)) (found : w.registry.contexts[id]? = some ctx)
    (bounded : ctx.events &&& otherBits = 0) (accepts : ∀ call : EpollCall, call.fd = fd → ctl call = true) :
    w.on ctl (.cancelAll fd) = w.cancelBoth ctl fd := by
  have inside := (List.getElem?_eq_some_iff.mp found).1
  rw [on_found located found ctl (.cancelAll fd) (.inl rfl), cancelBoth,
    on_found located found ctl (.cancelEvent fd .read) (.inr ⟨.read, rfl⟩)]
  change (ctx.cancelAll ctl _ fd).map _ = ((ctx.cancelEvent ctl _ fd .read).map _ >>= _)
  rw [FdContext.cancelAll_eq_cancelBoth accepts bounded, FdContext.cancelBoth]
  cases went : ctx.cancelEvent ctl w.registry.pendingEventCount fd .read with
  | error fault => rfl
  | ok first =>
    let between := w.kernel.answered ctl (ctx.epollCall (.cancelEvent fd .read))
    have kernel := FdContext.answered_cancelBoth accepts w.kernel bounded went
    -- The second call finds the context that the first one has left.
    have located' : (w.after id first between).registry.locate fd = .ok (some id) := by
      rw [after_registry]
      exact located
    have found' : (w.after id first between).registry.contexts[id]? = some first.ctx := by
      rw [after_registry]
      exact List.getElem?_set_self inside
    have pending' : (w.after id first between).registry.pendingEventCount = first.pending := by rw [after_registry]
    have second := on_found located' found' ctl (.cancelEvent fd .write) (.inr ⟨.write, rfl⟩)
    rw [pending', after_kernel] at second
    change _ = ((w.after id first between).on ctl (.cancelEvent fd .write) >>= _)
    rw [second]
    change ((first.ctx.cancelEvent ctl first.pending fd .write >>= _).map _) =
      ((first.ctx.cancelEvent ctl first.pending fd .write).map _ >>= _)
    cases first.ctx.cancelEvent ctl first.pending fd .write with
    | error fault => rfl
    | ok last =>
      simp only [Bind.bind, Except.bind, Except.map, Pure.pure, Except.pure, after_after, Call.op]
      rw [← kernel]

end World

/-! ## Runs -/

namespace Growing
variable [DecidableEq T]

/-- No mask gets a bit that is of neither event. -/
def Masked (s : Growing S F C T) : Prop := ∀ ctx ∈ s.registry.contexts, ctx.events &&& otherBits = 0

theorem Masked.step {s next : Growing S F C T} (masked : s.Masked) {turn : Turn S F C T}
    (stepped : s.step turn = some next) : next.Masked := by
  obtain same | ⟨t, adding, id, -, -, grown⟩ | ⟨ctl, id, op, answer, ran⟩ := step_registry stepped
  · rwa [Masked, same]
  · obtain ⟨kept, fresh, -, -, same, -⟩ := Registry.grow_ok grown
    rw [Masked, same]
    intro ctx member
    obtain old | new := List.mem_append.mp member
    · exact masked ctx old
    · obtain ⟨number, -, rfl⟩ := List.mem_map.mp new
      exact BitVec.zero_and
  · obtain ⟨ctx, out, found, effect, same, -⟩ := Registry.within_ok ran
    rw [Masked, same]
    intro other member
    obtain old | rfl := List.mem_or_eq_of_mem_set member
    · exact masked other old
    · exact effect.plain mask_otherBits (masked ctx (List.mem_of_getElem? found))

theorem masked_of_reaches {allowed : Growing S F C T → Turn S F C T → Prop} {s : Growing S F C T}
    (reached : (growing S F C T).Reaches allowed s) : s.Masked := by
  refine reached.invariant (fun s begins ctx member => ?_) fun s turn next masked _ stepped => masked.step stepped
  rw [show s = ⟨.initial, fun _ => .outside⟩ from begins] at member
  obtain ⟨number, -, rfl⟩ := List.mem_map.mp member
  exact BitVec.zero_and

/-- Whatever is registered for a descriptor of the table, and whatever the queues and
the epoll set hold: `cancelAll` is `cancelEvent` for READ and then for WRITE. -/
theorem cancelAll_eq_both [DecidableEq S] {allowed : Growing S F C T → Turn S F C T → Prop} {s : Growing S F C T}
    (reached : (growing S F C T).Reaches allowed s) {w : World S F C} (here : w.registry = s.registry) {fd : Int}
    (nonnegative : 0 ≤ fd) (inside : fd < s.registry.fdContexts.length) {ctl : EpollCall → Bool}
    (accepts : ∀ call : EpollCall, call.fd = fd → ctl call = true) :
    w.on ctl (.cancelAll fd) = w.cancelBoth ctl fd := by
  obtain ⟨id, ctx, located, found, -⟩ := (sound_of_reaches reached).slotted.locate_inside nonnegative inside
  rw [← here] at located found
  have bounded := masked_of_reaches reached ctx (here ▸ List.mem_of_getElem? found)
  exact World.cancelAll_found located found bounded accepts

/-- A fiber waits for reading and a callback for writing. -/
def bothRegistered : List (Turn Unit Nat Nat (Fin 2)) :=
  [.check 0 (addingAt 5), .register 0 fun _ => true,
    .other (fun _ => true) 5 (.addEvent ⟨some (), 2, true⟩ 5 .write (some 7))]

theorem cancelAll_eq_both_registered :
    ∃ s, (growing Unit Nat Nat (Fin 2)).Reaches (fun _ _ => True) s ∧ s.registry.pendingEventCount = 2 ∧
      World.on (fun _ => true) ⟨s.registry, fun _ => none, fun _ => [], []⟩ (.cancelAll 5) =
        World.cancelBoth (fun _ => true) ⟨s.registry, fun _ => none, fun _ => [], []⟩ 5 := by
  obtain ⟨s, reached, test⟩ := System.reaches_test (growing Unit Nat Nat (Fin 2)) (fun _ _ => True)
    (fun _ _ => true) (fun _ _ _ => trivial) ⟨.initial, fun _ => .outside⟩ rfl bothRegistered
    (fun s => s.registry.pendingEventCount = 2 ∧ s.registry.fdContexts.length = 32) (by decide)
  obtain ⟨pending, length⟩ := of_decide_eq_true test
  exact ⟨s, reached, pending, cancelAll_eq_both reached rfl (by decide) (by rw [length]; decide) fun _ _ => rfl⟩

end Growing
end HpsSf.IOManager
