import HpsSf.Fiber.Lifecycle

/-! How a thread switches between its fibers.

`swapIn` and `swapOut` save and load contexts through `hps_Scheduler::GetMainFiber()`,
which is set where a scheduler takes part in the thread, and is not always the fiber
that the thread runs on.
-/

set_option autoImplicit false

namespace HpsSf.Fiber

variable {I : Type}

/-- The main fiber of the thread, the root fiber of a scheduler, and those of user code. -/
inductive Ref (I : Type) where
  | main
  | root
  | user (f : I)
  deriving DecidableEq, Repr

/-- What a context continues with. -/
inductive Point (I : Type) where
  /-- The code of the main fiber behind its n-th `swapIn`. -/
  | main (n : Nat)
  /-- `CallerMainFunc` of the root fiber. -/
  | root
  /-- The body behind its n-th yield; `MainFunc` when there was none. -/
  | body (f : I) (n : Nat)
  /-- The `never reach` assertion of `MainFunc`. -/
  | ended (f : I)
  deriving DecidableEq, Repr

/-- How a piece of a body stops. -/
inductive Stop where
  | ready | hold | returned | thrown
  deriving DecidableEq, Repr

def Stop.state : Stop → State
  | .ready => .ready
  | .hold => .hold
  | .returned => .term
  | .thrown => .except

/-- Where the fiber continues after its n-th piece. -/
def Stop.point (f : I) (n : Nat) : Stop → Point I
  | .ready | .hold => .body f (n + 1)
  | .returned | .thrown => .ended f

/-- A thread: its thread-locals, its fibers, and where it runs. -/
structure Local (I : Type) where
  t_fiber : Option (Ref I)
  t_threadFiber : Option (Ref I)
  t_scheduler_fiber : Option (Ref I)
  state : Ref I → State
  ctx : Ref I → Point I
  control : Point I
  /-- The pieces of bodies that were run. -/
  ran : List (I × Nat)

namespace Local

variable [DecidableEq I]

/-- `SetThis` -/
def setThis (s : Local I) (f : Option (Ref I)) : Local I := { s with t_fiber := f }

def setState (s : Local I) (f : Ref I) (state : State) : Local I := { s with state := Function.update s.state f state }

/-- `GetThis`, which makes the main fiber when there is none. -/
def getThis (s : Local I) : Ref I × Local I :=
  match s.t_fiber with
  | some f => (f, s)
  | none =>
    (.main, { (s.setThis (some .main)).setState .main .exec with t_threadFiber := some .main })

/-- `swapcontext` -/
def swapcontext (s : Local I) (saved : Ref I) (here : Point I) (loaded : Ref I) : Local I :=
  let ctx := Function.update s.ctx saved here
  { s with ctx := ctx, control := ctx loaded }

/-- `swapIn`, called at a point of the main fiber with another one behind it; `none`
is a failed assertion or a null pointer. -/
def swapIn (s : Local I) (f : Ref I) (behind : Point I) : Option (Local I) :=
  let s := s.setThis (some f)
  if s.state f = .exec then none
  else
    match s.t_scheduler_fiber with
    | none => none
    | some target => some ((s.setState f .exec).swapcontext target behind f)

def swapOut (s : Local I) (f : Ref I) (behind : Point I) : Option (Local I) :=
  match s.t_scheduler_fiber with
  | none => none
  | some target => some ((s.setThis (some target)).swapcontext f behind target)

/-- The body that the thread is in runs up to its next stop. -/
def segment (body : I → Nat → Stop) (s : Local I) : Option (Local I) :=
  match s.control with
  | .body f n =>
    let s := { s with ran := s.ran ++ [(f, n)] }
    match body f n with
    -- `YieldToReady` and `YieldToHold` act on the current fiber.
    | .ready | .hold =>
      let (cur, s) := s.getThis
      (s.setState cur (body f n).state).swapOut cur ((body f n).point f n)
    -- `MainFunc` acts on the fiber that was the current one when it began.
    | .returned | .thrown => (s.setState (.user f) (body f n).state).swapOut (.user f) ((body f n).point f n)
  | _ => none

/-- A `swapIn` of the main fiber, and the piece of the body that it leads to. -/
def resume (body : I → Nat → Stop) (s : Local I) (f : I) : Option (Local I) :=
  match s.control with
  | .main n => (s.swapIn (.user f) (.main (n + 1))).bind (segment body)
  | _ => none

/-! ## Threads -/

/-- A thread that has not used fibers, with fibers that exist elsewhere. -/
def initial (state : I → State) (ctx : I → Point I) : Local I where
  t_fiber := none
  t_threadFiber := none
  t_scheduler_fiber := none
  state
    | .user f => state f
    | _ => .init
  ctx
    | .user f => ctx f
    | .main => .main 0
    | .root => .root
  control := .main 0
  ran := []

/-- `hps_Scheduler` with `use_caller` is constructed: it makes the root fiber. -/
def construct (s : Local I) : Local I :=
  let s := s.getThis.2
  { (s.setState .root .init) with t_scheduler_fiber := some .root, ctx := Function.update s.ctx .root .root }

/-- The beginning of `run` on a thread of the pool. -/
def enterRun (s : Local I) : Local I :=
  let (cur, s) := s.getThis
  { s with t_scheduler_fiber := some cur }

/-! ## What `swapIn` is for -/

end Local

/-- The states in which a fiber may be switched to. -/
def State.resumable : State → Bool
  | .init | .hold | .ready => true
  | .exec | .term | .except => false

namespace Local

/-- The thread is in its main fiber, and the fibers that can be switched to are where they stopped. -/
structure OnMain (s : Local I) : Prop where
  fiber : s.t_fiber = some .main
  control : ∃ m, s.control = .main m
  /-- It is set to the root fiber or to the fiber in which `run` began. -/
  scheduler : ∀ f, s.t_scheduler_fiber ≠ some (.user f)
  stopped : ∀ f, (s.state (.user f)).resumable = true → ∃ n, s.ctx (.user f) = .body f n

variable [DecidableEq I]

/-- The n-th piece of the fiber has run, and the main fiber goes on behind its m-th `swapIn`. -/
structure Returned (body : I → Nat → Stop) (s : Local I) (f : I) (n m : Nat) (s' : Local I) : Prop where
  stopped : s.ctx (.user f) = .body f n
  ran : s'.ran = s.ran ++ [(f, n)]
  before : s.control = .main m
  control : s'.control = .main (m + 1)
  this : s'.getThis.1 = .main
  state : s'.state (.user f) = (body f n).state
  ctx : s'.ctx (.user f) = (body f n).point f n
  states : ∀ r, r ≠ .user f → s'.state r = s.state r
  ctxs : ∀ r, r ≠ .user f → r ≠ .main → s'.ctx r = s.ctx r

/-- Each `swapIn` in a sequence on fibers that can be switched to does what it is for. -/
def Resumes (body : I → Nat → Stop) : Local I → List I → Prop
  | _, [] => True
  | s, f :: rest => (s.state (.user f)).resumable = true →
      ∃ s' n m, s.resume body f = some s' ∧ Returned body s f n m s' ∧ Resumes body s' rest

/-! ## Threads in their main fiber -/

variable {body : I → Nat → Stop} {s : Local I} {f : I} {n m : Nat}

/-- `swapIn` and the way back, through whatever fiber the scheduler names. -/
theorem resume_eq (body : I → Nat → Stop) {target : Ref I} (scheduler : s.t_scheduler_fiber = some target)
    (other : target ≠ .user f)
    (control : s.control = .main m) (stopped : s.ctx (.user f) = .body f n) (idle : s.state (.user f) ≠ .exec) :
    s.resume body f = some { s with
      t_fiber := some target
      state := Function.update s.state (.user f) (body f n).state
      ctx := Function.update (Function.update s.ctx target (.main (m + 1))) (.user f) ((body f n).point f n)
      control := .main (m + 1)
      ran := s.ran ++ [(f, n)] } := by
  have entered : s.swapIn (.user f) (.main (m + 1)) = some { s with
      t_fiber := some (.user f)
      state := Function.update s.state (.user f) .exec
      ctx := Function.update s.ctx target (.main (m + 1))
      control := .body f n } := by
    simp [swapIn, setThis, setState, swapcontext, scheduler, idle, Function.update_of_ne other.symm, stopped]
  rw [resume, control]
  simp only [entered, Option.bind_some, segment]
  cases stop : body f n <;>
    simp [getThis, setState, swapOut, setThis, swapcontext, scheduler, other]

theorem idle_of_resumable {state : State} (resumable : state.resumable = true) : state ≠ .exec := by
  rintro rfl
  cases resumable

/-- With the main fiber named by the scheduler, a piece of a body is run and nothing else changes. -/
theorem OnMain.resume (onMain : s.OnMain) (body : I → Nat → Stop) (scheduler : s.t_scheduler_fiber = some .main)
    (resumable : (s.state (.user f)).resumable = true) :
    ∃ s' n m, s.resume body f = some s' ∧ Returned body s f n m s' ∧ s'.OnMain ∧
      s'.t_scheduler_fiber = some .main := by
  obtain ⟨m, control⟩ := onMain.control
  obtain ⟨n, stopped⟩ := onMain.stopped f resumable
  refine ⟨_, n, m, resume_eq body scheduler nofun control stopped (idle_of_resumable resumable), ?_, ?_, scheduler⟩
  · refine ⟨stopped, rfl, control, rfl, rfl, Function.update_self .., Function.update_self .., fun r other => ?_,
      fun r other here => ?_⟩
    · exact Function.update_of_ne other ..
    · exact (Function.update_of_ne other ..).trans (Function.update_of_ne here ..)
  · refine ⟨rfl, ⟨m + 1, rfl⟩, onMain.scheduler, fun g again => ?_⟩
    by_cases same : g = f
    · subst same
      refine ⟨n + 1, ?_⟩
      change (Function.update s.state (.user g) (body g n).state (.user g)).resumable = true at again
      change Function.update (Function.update s.ctx .main (.main (m + 1))) (.user g) ((body g n).point g n)
        (.user g) = _
      rw [Function.update_self] at again ⊢
      cases stop : body g n with
      | ready | hold => rfl
      | returned | thrown =>
        rw [stop] at again
        cases again
    · have other : (Ref.user g : Ref I) ≠ .user f := fun equal => same (Ref.user.inj equal)
      change (Function.update s.state (.user f) (body f n).state (.user g)).resumable = true at again
      change ∃ k, Function.update (Function.update s.ctx .main (.main (m + 1))) (.user f) ((body f n).point f n)
        (.user g) = _
      rw [Function.update_of_ne other] at again ⊢
      exact onMain.stopped g again

/-- Switching to fibers and back works on a thread whose scheduler names its main
fiber, and on no other one. -/
theorem resumes_iff (onMain : s.OnMain) {fs : List I} (first : ∀ f ∈ fs.head?, (s.state (.user f)).resumable = true) :
    Resumes body s fs ↔ s.t_scheduler_fiber = some .main ∨ fs = [] := by
  constructor
  · intro resumes
    cases fs with
    | nil => exact .inr rfl
    | cons f rest =>
      left
      have resumable := first f rfl
      obtain ⟨s', n, m, done, returned, -⟩ := resumes resumable
      cases scheduler : s.t_scheduler_fiber with
      | none =>
        rw [Local.resume, returned.before] at done
        simp [swapIn, setThis, scheduler] at done
      | some target =>
        have other : target ≠ .user f := fun same => onMain.scheduler f (same ▸ scheduler)
        have result := resume_eq body scheduler other returned.before returned.stopped
          (idle_of_resumable resumable)
        obtain rfl := Option.some.inj (done.symm.trans result)
        exact congrArg some returned.this
  · rintro (scheduler | rfl)
    · clear first
      induction fs generalizing s with
      | nil => trivial
      | cons f rest ih =>
        intro resumable
        obtain ⟨s', n, m, done, returned, after, kept⟩ := onMain.resume body scheduler resumable
        exact ⟨s', n, m, done, returned, ih after kept⟩
    · trivial

/-! ## The kinds of threads -/

section Kinds

variable {state : I → State} {ctx : I → Point I}
  (stopped : ∀ f, (state f).resumable = true → ∃ n, ctx f = .body f n)

include stopped

theorem onMain_getThis : (initial state ctx).getThis.2.OnMain where
  fiber := rfl
  control := ⟨0, rfl⟩
  scheduler := nofun
  stopped f := stopped f

theorem onMain_construct : (initial state ctx).construct.OnMain where
  fiber := rfl
  control := ⟨0, rfl⟩
  scheduler := nofun
  stopped f := stopped f

theorem onMain_enterRun : (initial state ctx).enterRun.OnMain where
  fiber := rfl
  control := ⟨0, rfl⟩
  scheduler := nofun
  stopped f := stopped f

end Kinds

/-- A worker of the pool switches to a fiber that yields, one that throws, and the first one again. -/
theorem resumes_iff_worker :
    let body : Bool → Nat → Stop := fun f n => if f then (if n = 0 then .ready else .returned) else .thrown
    Resumes body (initial (fun _ => .init) fun f => .body f 0).enterRun [true, false, true] := by
  intro body
  have onMain : (initial (fun _ : Bool => .init) fun f => .body f 0).enterRun.OnMain :=
    onMain_enterRun fun f _ => ⟨0, rfl⟩
  exact (resumes_iff onMain fun f same => by cases same; rfl).mpr (.inl rfl)

/-- Without a scheduler `swapIn` is a null pointer, and behind it on the thread of a
`use_caller` scheduler the current fiber is the root fiber, whose context is lost. -/
theorem swapIn_without_main_fiber :
    let body : Unit → Nat → Stop := fun _ _ => .returned
    let plain := (initial (fun _ : Unit => .init) fun f => .body f 0).getThis.2
    let caller := (initial (fun _ : Unit => .init) fun f => .body f 0).construct
    plain.OnMain ∧ plain.resume body () = none ∧ ¬ Resumes body plain [()] ∧ caller.OnMain ∧
      (∃ s, caller.resume body () = some s ∧ s.getThis.1 = .root ∧ s.ctx .root = .main 1) ∧
        ¬ Resumes body caller [()] := by
  intro body plain caller
  have left : plain.resume body () = none := rfl
  have right : (caller.resume body ()).any (fun s => s.getThis.1 = .root ∧ s.ctx .root = .main 1) = true := by decide
  obtain ⟨s, done, passed⟩ := (Option.any_eq_true _ _).mp right
  obtain ⟨this, ctx⟩ := of_decide_eq_true passed
  refine ⟨onMain_getThis fun f _ => ⟨0, rfl⟩, left, fun resumes => ?_, onMain_construct fun f _ => ⟨0, rfl⟩,
    ⟨s, done, this, ctx⟩, fun resumes => ?_⟩
  · obtain ⟨s', n, m, done, -⟩ := resumes rfl
    cases left.symm.trans done
  · obtain ⟨s', n, m, again, returned, -⟩ := resumes rfl
    obtain rfl := Option.some.inj (done.symm.trans again)
    cases this.symm.trans returned.this

end Local
end HpsSf.Fiber
