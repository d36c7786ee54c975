import HpsSf.Foundation.System
import Mathlib.Logic.Function.Basic
import Mathlib.Order.Basic

/-! How a thread object hands its callback over to its thread.

The constructor starts the thread and waits on `m_semaphore`; the thread stores its
id, takes the callback and notifies. Any number of objects are constructed, asked
for their ids and destroyed, and all threads run in between.
-/

set_option autoImplicit false

namespace HpsSf
open Foundation (System)

/-- `hps_Semaphore(uint32_t count = 1)`, as `hps_Thread` has it. -/
def Semaphore.count : Nat := 1

namespace Thread

/-- How far the constructing thread is. -/
inductive Creator where
  | absent
  /-- Behind `pthread_create`, before `m_semaphore.wait()`. -/
  | waiting
  | returned
  | destroyed
  deriving DecidableEq, Repr

/-- How far `run` is. -/
inductive Runner where
  | started
  /-- `t_thread` and `t_thread_name` are set. -/
  | entered
  | identified
  /-- Behind `pthread_setname_np`. -/
  | named
  /-- Behind `cb.swap(thread->m_cb)`. -/
  | taken
  | notified
  | finished
  deriving DecidableEq, Repr

structure Object (C : Type) where
  creator : Creator
  runner : Runner
  m_id : Int
  m_cb : Option C
  /-- The local variable of `run`. -/
  cb : Option C
  m_semaphore : Nat
  deriving DecidableEq, Repr

variable {C : Type}

namespace Object

/-- An address at which nothing is constructed. -/
def absent : Object C := ⟨.absent, .started, -1, none, none, 0⟩

/-- The constructor, up to and with `pthread_create`. -/
def create (count : Nat) (cb : C) : Object C := ⟨.waiting, .started, -1, some cb, none, count⟩

/-- `m_semaphore.wait()`, after which the constructor returns. -/
def wait (object : Object C) : Option (Object C) :=
  if object.creator = .waiting ∧ 0 < object.m_semaphore then
    some { object with creator := .returned, m_semaphore := object.m_semaphore - 1 }
  else none

def getId (object : Object C) : Option Int := if object.creator = .returned then some object.m_id else none

def destroy (object : Object C) : Option (Object C) :=
  if object.creator = .returned then some { object with creator := .destroyed } else none

/-- The next statement of `run`, in a thread with a given id. -/
def run (threadId : Nat) (object : Object C) : Option (Object C) :=
  match object.runner with
  | .started => if object.creator = .absent then none else some { object with runner := .entered }
  | .entered => some { object with runner := .identified, m_id := threadId }
  | .identified => some { object with runner := .named }
  | .named => some { object with runner := .taken, cb := object.m_cb, m_cb := object.cb }
  | .taken => some { object with runner := .notified, m_semaphore := object.m_semaphore + 1 }
  | .notified => some { object with runner := .finished }
  | .finished => none

end Object

/-- Objects under construction and in use, and what `getId` has returned. -/
structure Threads (K C : Type) where
  objects : K → Object C
  ids : List (K × Int)

inductive Label (K C : Type) where
  | create (k : K) (cb : C)
  | wait (k : K)
  | getId (k : K)
  | destroy (k : K)
  | run (k : K)

namespace Threads

variable {K : Type} [DecidableEq K]

def put (s : Threads K C) (k : K) (object : Object C) : Threads K C :=
  { s with objects := Function.update s.objects k object }

def step (count : Nat) (threadId : K → Nat) (s : Threads K C) : Label K C → Option (Threads K C)
  | .create k cb => if (s.objects k).creator = .absent then some (s.put k (.create count cb)) else none
  | .wait k => (s.objects k).wait.map (s.put k)
  | .getId k => (s.objects k).getId.map fun id => { s with ids := (k, id) :: s.ids }
  | .destroy k => (s.objects k).destroy.map (s.put k)
  | .run k => ((s.objects k).run (threadId k)).map (s.put k)

/-- The threads with a semaphore of a given count; the code has `Semaphore.count`. -/
def machine (K C : Type) [DecidableEq K] (count : Nat) (threadId : K → Nat) : System (Threads K C) (Label K C) where
  start s := s = ⟨fun _ => .absent, []⟩
  step := step count threadId

end Threads

/-! ## What a constructed object must be -/

/-- The thread has taken the callback over. -/
def Runner.Took : Runner → Prop
  | .taken | .notified | .finished => True
  | _ => False

instance (runner : Runner) : Decidable runner.Took := by cases runner <;> unfold Runner.Took <;> infer_instance

/-- The object knows its thread, which has the callback and does not need the object for it. -/
structure HandedOver (threadId : Nat) (object : Object C) : Prop where
  took : object.runner.Took
  id : object.m_id = threadId
  left : object.m_cb = none
  taken : object.cb.isSome = true

/-- Every constructed object has handed over, and `getId` returns ids of threads. -/
structure Handshaken {K : Type} (threadId : K → Nat) (s : Threads K C) : Prop where
  constructed : ∀ k, (s.objects k).creator = .returned ∨ (s.objects k).creator = .destroyed →
    HandedOver (threadId k) (s.objects k)
  ids : ∀ k id, (k, id) ∈ s.ids → id = threadId k ∧ id ≠ -1

/-- A constructor passes its `wait` when the thread has taken the callback over. -/
def InOrder {K : Type} (s : Threads K C) : Label K C → Prop
  | .wait k => (s.objects k).runner.Took
  | _ => True

/-! ## One object -/

/-- Behind its store the id is that of the thread. -/
def Runner.Identified : Runner → Prop
  | .started | .entered => False
  | _ => True

/-- What `run` has done so far, and what the constructor knows of it. -/
structure Object.Kept (threadId : Nat) (object : Object C) : Prop where
  begun : object.creator = .absent → object.runner = .started
  id : object.runner.Identified → object.m_id = threadId
  before : object.creator ≠ .absent → ¬ object.runner.Took → object.m_cb.isSome = true ∧ object.cb = none
  after : object.runner.Took → object.m_cb = none ∧ object.cb.isSome = true
  constructed : object.creator = .returned ∨ object.creator = .destroyed → object.runner.Took

namespace Object.Kept

variable {threadId : Nat} {object next : Object C}

theorem absent : (Object.absent : Object C).Kept threadId :=
  ⟨fun _ => rfl, False.elim, fun other => absurd rfl other, False.elim,
    by rintro (returned | destroyed) <;> contradiction⟩

theorem create (count : Nat) (cb : C) : (Object.create count cb).Kept threadId :=
  ⟨nofun, False.elim, fun _ _ => ⟨rfl, rfl⟩, False.elim, by rintro (returned | destroyed) <;> contradiction⟩

theorem wait (kept : object.Kept threadId) (took : object.runner.Took) (waited : object.wait = some next) :
    next.Kept threadId := by
  rw [Object.wait] at waited
  split at waited
  next waiting =>
    obtain rfl := Option.some.inj waited
    refine ⟨nofun, kept.id, fun _ => kept.before ?_, kept.after, fun _ => took⟩
    rw [waiting.1]
    exact nofun
  next => cases waited

theorem destroy (kept : object.Kept threadId) (destroyed : object.destroy = some next) : next.Kept threadId := by
  rw [Object.destroy] at destroyed
  split at destroyed
  next returned =>
    obtain rfl := Option.some.inj destroyed
    refine ⟨nofun, kept.id, fun _ => kept.before ?_, kept.after, fun _ => kept.constructed (.inl returned)⟩
    rw [returned]
    exact nofun
  next => cases destroyed

/-- Every statement of `run` keeps what it has done. -/
theorem run (kept : object.Kept threadId) (ran : object.run threadId = some next) : next.Kept threadId := by
  obtain ⟨creator, runner, m_id, m_cb, cb, m_semaphore⟩ := object
  obtain ⟨begun, identified, before, after, constructed⟩ := kept
  cases runner with
  | started =>
    obtain ⟨here, same⟩ := Option.ite_none_left_eq_some.mp ran
    obtain rfl := Option.some.inj same
    exact ⟨fun gone => absurd gone here, False.elim, before, False.elim, constructed⟩
  | entered =>
    obtain rfl := Option.some.inj ran
    exact ⟨nofun ∘ begun, fun _ => rfl, before, False.elim, constructed⟩
  | identified =>
    obtain rfl := Option.some.inj ran
    exact ⟨nofun ∘ begun, fun _ => identified trivial, before, False.elim, constructed⟩
  | named =>
    obtain rfl := Option.some.inj ran
    obtain ⟨given, empty⟩ := before (nofun ∘ begun) fun took => took
    exact ⟨nofun ∘ begun, fun _ => identified trivial, fun _ untaken => absurd trivial untaken,
      fun _ => ⟨empty, given⟩, fun _ => trivial⟩
  | taken =>
    obtain rfl := Option.some.inj ran
    exact ⟨nofun ∘ begun, fun _ => identified trivial, fun _ untaken => absurd trivial untaken,
      fun _ => after trivial, fun _ => trivial⟩
  | notified =>
    obtain rfl := Option.some.inj ran
    exact ⟨nofun ∘ begun, fun _ => identified trivial, fun _ untaken => absurd trivial untaken,
      fun _ => after trivial, fun _ => trivial⟩
  | finished => cases ran

end Object.Kept

/-! ## All objects -/

theorem Runner.Took.identified {runner : Runner} (took : runner.Took) : runner.Identified := by
  cases runner <;> first | exact took.elim | trivial

structure Threads.Kept {K : Type} (threadId : K → Nat) (s : Threads K C) : Prop where
  objects : ∀ k, (s.objects k).Kept (threadId k)
  ids : ∀ k id, (k, id) ∈ s.ids → id = threadId k

namespace Threads

variable {K : Type} [DecidableEq K] {threadId : K → Nat} {count : Nat} {s next : Threads K C}

theorem Kept.put (kept : s.Kept threadId) {k : K} {object : Object C} (good : object.Kept (threadId k)) :
    (s.put k object).Kept threadId := by
  refine ⟨fun other => ?_, kept.ids⟩
  by_cases here : other = k
  · subst here
    simpa [Threads.put] using good
  · simpa [Threads.put, here] using kept.objects other

theorem step_kept (kept : s.Kept threadId) {label : Label K C} (inOrder : InOrder s label)
    (stepped : s.step count threadId label = some next) : next.Kept threadId := by
  cases label with
  | create k cb =>
    obtain ⟨-, same⟩ := Option.ite_none_right_eq_some.mp stepped
    obtain rfl := Option.some.inj same
    exact kept.put (.create count cb)
  | wait k =>
    obtain ⟨object, waited, rfl⟩ := Option.map_eq_some_iff.mp stepped
    exact kept.put ((kept.objects k).wait inOrder waited)
  | getId k =>
    obtain ⟨id, got, rfl⟩ := Option.map_eq_some_iff.mp stepped
    refine ⟨kept.objects, fun other id' recorded => ?_⟩
    obtain same | old := List.mem_cons.mp recorded
    · cases same
      obtain ⟨returned, same⟩ := Option.ite_none_right_eq_some.mp got
      have took := (kept.objects k).constructed (.inl returned)
      exact (Option.some.inj same).symm.trans ((kept.objects k).id took.identified)
    · exact kept.ids other id' old
  | destroy k =>
    obtain ⟨object, destroyed, rfl⟩ := Option.map_eq_some_iff.mp stepped
    exact kept.put ((kept.objects k).destroy destroyed)
  | run k =>
    obtain ⟨object, ran, rfl⟩ := Option.map_eq_some_iff.mp stepped
    exact kept.put ((kept.objects k).run ran)

omit [DecidableEq K] in
theorem Kept.handshaken (kept : s.Kept threadId) : Handshaken threadId s where
  constructed k known := by
    have took := (kept.objects k).constructed known
    obtain ⟨left, taken⟩ := (kept.objects k).after took
    exact ⟨took, (kept.objects k).id took.identified, left, taken⟩
  ids k id recorded := by
    have same := kept.ids k id recorded
    exact ⟨same, by omega⟩

/-- A constructor that may pass its `wait` finds the callback taken. -/
def Signalled (object : Object C) : Prop :=
  object.creator = .waiting → 0 < object.m_semaphore → object.runner.Took

theorem Signalled.run {threadId : Nat} {object after : Object C} (signalled : Signalled object)
    (ran : object.run threadId = some after) : Signalled after := by
  obtain ⟨creator, runner, m_id, m_cb, cb, m_semaphore⟩ := object
  cases runner with
  | started =>
    obtain ⟨-, same⟩ := Option.ite_none_left_eq_some.mp ran
    obtain rfl := Option.some.inj same
    exact signalled
  | entered | identified =>
    obtain rfl := Option.some.inj ran
    exact signalled
  | named | taken | notified =>
    obtain rfl := Option.some.inj ran
    exact fun _ _ => trivial
  | finished => cases ran

/-- With a count of 0 nothing but the thread lets the constructor pass. -/
theorem signalled_of_reaches (reached : (machine K C 0 threadId).Reaches (fun _ _ => True) s) :
    ∀ k, Signalled (s.objects k) := by
  refine reached.invariant (P := fun s => ∀ k, Signalled (s.objects k)) (fun s begins => ?_)
    fun s label next signalled _ stepped => ?_
  · obtain rfl := begins
    exact fun k => nofun
  have put {k : K} {object : Object C} (good : Signalled object) (other : K) :
      Signalled ((s.put k object).objects other) := by
    by_cases here : other = k
    · subst here
      simpa [Threads.put] using good
    · simpa [Threads.put, here] using signalled other
  cases label with
  | create k cb =>
    obtain ⟨-, same⟩ := Option.ite_none_right_eq_some.mp stepped
    obtain rfl := Option.some.inj same
    exact put fun _ positive => absurd positive (Nat.lt_irrefl 0)
  | wait k =>
    obtain ⟨object, waited, rfl⟩ := Option.map_eq_some_iff.mp stepped
    obtain ⟨-, same⟩ := Option.ite_none_right_eq_some.mp waited
    obtain rfl := Option.some.inj same
    exact put nofun
  | getId k =>
    obtain ⟨id, -, rfl⟩ := Option.map_eq_some_iff.mp stepped
    exact signalled
  | destroy k =>
    obtain ⟨object, destroyed, rfl⟩ := Option.map_eq_some_iff.mp stepped
    obtain ⟨-, same⟩ := Option.ite_none_right_eq_some.mp destroyed
    obtain rfl := Option.some.inj same
    exact put nofun
  | run k =>
    obtain ⟨object, ran, rfl⟩ := Option.map_eq_some_iff.mp stepped
    exact put ((signalled k).run ran)

/-- The handshake works in every interleaving for a count of 0, and for no other one. -/
theorem handshake_iff [Nonempty K] [Nonempty C] :
    (∀ s, (machine K C count threadId).Reaches (fun _ _ => True) s → Handshaken threadId s) ↔ count = 0 := by
  constructor
  · intro always
    by_contra positive
    obtain ⟨k⟩ := ‹Nonempty K›
    obtain ⟨cb⟩ := ‹Nonempty C›
    let empty : Threads K C := ⟨fun _ => .absent, []⟩
    let constructing := empty.put k (.create count cb)
    let constructed := constructing.put k { Object.create count cb with creator := .returned, m_semaphore := count - 1 }
    have created : (machine K C count threadId).step empty (.create k cb) = some constructing := by
      simp [machine, step, empty, constructing, Object.absent]
    have passed : (machine K C count threadId).step constructing (.wait k) = some constructed := by
      have may_pass : 0 < count := Nat.pos_of_ne_zero positive
      simp [machine, step, constructing, constructed, Threads.put, Object.wait, Object.create, may_pass]
    have reached : (machine K C count threadId).Reaches (fun _ _ => True) constructed :=
      .step (.step (.start rfl) trivial created) trivial passed
    have runner : (constructed.objects k).runner = .started := by simp [constructed, Threads.put, Object.create]
    have took := ((always constructed reached).constructed k (.inl (by simp [constructed, Threads.put]))).took
    rw [runner] at took
    exact took
  · rintro rfl s reached
    have kept : s.Kept threadId := by
      refine reached.invariant_of (fun s => signalled_of_reaches) (fun s begins => ?_)
        fun s label next signalled kept _ stepped => step_kept kept ?_ stepped
      · obtain rfl := begins
        exact ⟨fun _ => .absent, nofun⟩
      · cases label with
        | wait k =>
          obtain ⟨object, waited, -⟩ := Option.map_eq_some_iff.mp stepped
          obtain ⟨⟨waiting, positive⟩, -⟩ := Option.ite_none_right_eq_some.mp waited
          exact signalled k waiting positive
        | _ => trivial
    exact kept.handshaken

end Threads
end Thread
end HpsSf
