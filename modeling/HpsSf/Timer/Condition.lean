import HpsSf.Foundation.Shared
import HpsSf.Foundation.Tally
import HpsSf.Timer.Manager

/-! Timers with a condition.

The callback of such a timer is `OnTimer`, which has a weak pointer to an object and runs
the given callback only if the object is still there. It is collected with the others,
and waits until a thread calls it; the object may go at any time.
-/

set_option autoImplicit false

namespace HpsSf
open Foundation Foundation.Shared

variable {C O T : Type}

/-- What a timer calls. -/
inductive TimerCall (C O : Type) where
  /-- The callback given to `addTimer`. -/
  | cb (cb : C)
  /-- `std::bind(&OnTimer, weak_cond, cb)` -/
  | onTimer (weak_cond : O) (cb : C)
  deriving DecidableEq, Repr

/-- `addConditionTimer` -/
def TimerManager.addConditionTimer (m : TimerManager (TimerCall C O)) (shape : SearchTree.Shape Addr) (now : Nat) (a : Addr)
    (ms : Nat) (cb : C) (weak_cond : O) (recurring : Bool) : Outcome (TimerCall C O) :=
  m.addTimer shape now a ms (some (.onTimer weak_cond cb)) recurring

namespace Condition

/-- Where a thread is with a callback it has taken. -/
inductive Place (C O : Type) where
  | idle
  | calling (call : TimerCall C O)
  /-- In the callback; `tmp` of `OnTimer` points to its object. -/
  | running (tmp : Option O) (cb : C)
  deriving DecidableEq, Repr

/-- Whether the thread has a pointer to the object. -/
def Place.keeps [DecidableEq O] (o : O) : Place C O → Nat
  | .running (some tmp) _ => if tmp = o then 1 else 0
  | .running none _ | .idle | .calling _ => 0

structure State (C O T : Type) where
  manager : TimerManager (TimerCall C O)
  /-- `use_count` of the objects. -/
  uses : O → Nat
  /-- The pointers to the objects elsewhere in the program. -/
  owners : O → Nat
  /-- The collected callbacks that no thread has taken. -/
  pending : List (TimerCall C O)
  place : T → Place C O
  /-- History: the callbacks that were begun, with the object of their condition. -/
  begun : List (Option O × C)

inductive Label (C O T : Type) where
  /-- A call on the manager; what `listExpiredCb` collects is scheduled. -/
  | timer (label : TimerManager.Label (TimerCall C O))
  | addConditionTimer (shape : SearchTree.Shape Addr) (now : Nat) (a : Addr) (ms : Nat) (cb : C) (weak_cond : O)
      (recurring : Bool)
  | copy (o : O)
  | drop (o : O)
  | take (t : T) (i : Nat)
  | call (t : T)
  | leave (t : T)

variable [DecidableEq O]

/-- A pointer to an object goes; the objects' destructors accept any. -/
def State.release (s : State C O T) (o : O) : Option (State C O T) :=
  (Shared.release (fun _ => true) s.uses o).toOption.map fun uses => { s with uses := uses }

theorem release_eq_some {s next : State C O T} {o : O} (released : s.release o = some next) :
    0 < s.uses o ∧ next = { s with uses := Function.update s.uses o (s.uses o - 1) } := by
  obtain ⟨uses, done, rfl⟩ := Option.map_eq_some_iff.mp released
  cases gave : Shared.release (fun _ => true) s.uses o with
  | error fault => simp [gave, Except.toOption] at done
  | ok left =>
    rw [gave] at done
    cases done
    obtain ⟨alive, rfl⟩ := release_eq_ok gave
    exact ⟨alive, rfl⟩

variable [DecidableEq T]

def State.setPlace (s : State C O T) (t : T) (place : Place C O) : State C O T :=
  { s with place := Function.update s.place t place }

/-- What a call begins with: `OnTimer` locks its weak pointer. -/
def State.call (s : State C O T) (t : T) : TimerCall C O → State C O T
  | .cb cb => { s.setPlace t (.running none cb) with begun := s.begun ++ [(none, cb)] }
  | .onTimer weak_cond cb =>
      match lock s.uses weak_cond with
      | some uses =>
          { s.setPlace t (.running (some weak_cond) cb) with
            uses := uses, begun := s.begun ++ [(some weak_cond, cb)] }
      | none => s.setPlace t .idle

def step (s : State C O T) : Label C O T → Option (State C O T)
  | .timer (.listExpiredCb shape now) => some
      { s with
        manager := (s.manager.listExpiredCb shape now).2
        pending := s.pending ++ (s.manager.listExpiredCb shape now).1.reduceOption }
  | .timer label => (s.manager.step label).map fun manager => { s with manager := manager }
  | .addConditionTimer shape now a ms cb weak_cond recurring =>
      if (s.manager.heap a).isNone then
        some { s with manager := (s.manager.addConditionTimer shape now a ms cb weak_cond recurring).after }
      else none
  | .copy o =>
      if 0 < s.owners o then
        some { s with uses := retain s.uses o, owners := Function.update s.owners o (s.owners o + 1) }
      else none
  | .drop o =>
      if 0 < s.owners o then
        { s with owners := Function.update s.owners o (s.owners o - 1) }.release o
      else none
  | .take t i =>
      match s.place t, s.pending[i]? with
      | .idle, some call => some { s.setPlace t (.calling call) with pending := s.pending.eraseIdx i }
      | _, _ => none
  | .call t =>
      match s.place t with
      | .calling call => some (s.call t call)
      | _ => none
  | .leave t =>
      match s.place t with
      | .running none _ => some (s.setPlace t .idle)
      | .running (some tmp) _ => (s.setPlace t .idle).release tmp
      | _ => none

/-- No timers, and objects with any number of pointers to them. -/
def initial (owners : O → Nat) : State C O T := ⟨.initial, owners, owners, [], fun _ => .idle, []⟩

def machine (C O T : Type) [DecidableEq O] [DecidableEq T] : System (State C O T) (Label C O T) where
  start s := ∃ owners, s = initial owners
  step := step

/-! ## The objects -/

variable [Fintype T] {s next : State C O T} {o : O}

/-- The threads with a pointer to the object. -/
def State.kept (s : State C O T) (o : O) : Nat := tally fun t => (s.place t).keeps o

/-- All pointers to objects are counted. -/
def Counted (s : State C O T) : Prop := ∀ o, s.uses o = s.owners o + s.kept o

theorem kept_setPlace (s : State C O T) (t : T) (place : Place C O) (o : O) :
    (s.setPlace t place).kept o + (s.place t).keeps o = s.kept o + place.keeps o :=
  tally_update (Place.keeps o) s.place t place

/-- What a step does to the pointers and to the history. -/
inductive Turn (s : State C O T) : State C O T → Prop where
  | quiet {next : State C O T} : next.uses = s.uses → next.owners = s.owners → next.begun = s.begun →
      (∀ o, next.kept o = s.kept o) → Turn s next
  | copy (o : O) : 0 < s.owners o →
      Turn s { s with uses := retain s.uses o, owners := Function.update s.owners o (s.owners o + 1) }
  | drop (o : O) : 0 < s.owners o → Turn s { s with
      uses := Function.update s.uses o (s.uses o - 1), owners := Function.update s.owners o (s.owners o - 1) }
  | plain (t : T) (cb : C) : (∀ o, (s.place t).keeps o = 0) →
      Turn s { s.setPlace t (.running none cb) with begun := s.begun ++ [(none, cb)] }
  | begins (t : T) (o : O) (cb : C) : (∀ o, (s.place t).keeps o = 0) → 0 < s.uses o → Turn s
      { s.setPlace t (.running (some o) cb) with uses := retain s.uses o, begun := s.begun ++ [(some o, cb)] }
  | ends (t : T) (o : O) (cb : C) : s.place t = .running (some o) cb →
      Turn s { s.setPlace t .idle with uses := Function.update s.uses o (s.uses o - 1) }

/-- A thread goes from one place without a pointer to another. -/
theorem kept_quiet {t : T} {place : Place C O} (before : ∀ o, (s.place t).keeps o = 0)
    (after : ∀ o, place.keeps o = 0) (o : O) : (s.setPlace t place).kept o = s.kept o := by
  have change := kept_setPlace s t place o
  rwa [before, after] at change

theorem step_turn {label : Label C O T} (stepped : step s label = some next) : Turn s next := by
  cases label with
  | timer label =>
    cases label
    case listExpiredCb =>
      cases stepped
      exact .quiet rfl rfl rfl fun _ => rfl
    all_goals
      simp only [step, Option.map_eq_some_iff] at stepped
      obtain ⟨_, -, rfl⟩ := stepped
      exact .quiet rfl rfl rfl fun _ => rfl
  | addConditionTimer =>
    simp only [step] at stepped
    split at stepped <;> cases stepped
    exact .quiet rfl rfl rfl fun _ => rfl
  | copy o =>
    simp only [step] at stepped
    split at stepped <;> cases stepped
    next held => exact .copy o held
  | drop o =>
    simp only [step] at stepped
    split at stepped
    next held =>
      obtain ⟨-, rfl⟩ := release_eq_some stepped
      exact .drop o held
    next => cases stepped
  | take t i =>
    simp only [step] at stepped
    split at stepped <;> cases stepped
    next call idle _ => exact .quiet rfl rfl rfl (kept_quiet (fun o => by rw [idle]; rfl) fun _ => rfl)
  | call t =>
    simp only [step] at stepped
    split at stepped <;> cases stepped
    next call calling =>
      have before (o : O) : (s.place t).keeps o = 0 := by rw [calling]; rfl
      cases call with
      | cb cb => exact .plain t cb before
      | onTimer weak_cond cb =>
        simp only [State.call]
        split
        next uses locked =>
          -- `weak_cond.lock()` found the object: from here on the callback has a pointer of its own
          obtain ⟨alive, rfl⟩ := lock_eq_some locked
          exact .begins t weak_cond cb before alive
        -- the object is gone, and `OnTimer` returns without calling
        next => exact .quiet rfl rfl rfl (kept_quiet before fun _ => rfl)
  | leave t =>
    simp only [step] at stepped
    split at stepped
    next cb running =>
      cases stepped
      exact .quiet rfl rfl rfl (kept_quiet (fun o => by rw [running]; rfl) fun _ => rfl)
    next tmp cb running =>
      obtain ⟨-, rfl⟩ := release_eq_some stepped
      exact .ends t tmp cb running
    next => cases stepped

theorem keeps_idle (o : O) : (Place.idle : Place C O).keeps o = 0 := rfl

theorem keeps_running (tmp o : O) (cb : C) :
    (Place.running (some tmp) cb).keeps o = if tmp = o then 1 else 0 := rfl

theorem Counted.turn (counted : Counted s) (turn : Turn s next) : Counted next := by
  intro o
  have here := counted o
  cases turn with
  | quiet uses owners begun kept => rw [uses, owners, kept, here]
  | copy o' held =>
    change retain s.uses o' o = Function.update s.owners o' (s.owners o' + 1) o + s.kept o
    by_cases same : o = o'
    · subst same
      rw [retain_self, Function.update_self]
      omega
    · rw [retain_of_ne same, Function.update_of_ne same, here]
  | drop o' held =>
    change Function.update s.uses o' (s.uses o' - 1) o = Function.update s.owners o' (s.owners o' - 1) o + s.kept o
    by_cases same : o = o'
    · subst same
      rw [Function.update_self, Function.update_self]
      omega
    · rw [Function.update_of_ne same, Function.update_of_ne same, here]
  | plain t cb before => exact here.trans (congrArg _ (kept_quiet before (fun _ => rfl) o).symm)
  | begins t o' cb before alive =>
    have change := kept_setPlace s t (.running (some o') cb) o
    rw [before, keeps_running] at change
    change retain s.uses o' o = s.owners o + (s.setPlace t (.running (some o') cb)).kept o
    by_cases same : o = o'
    · subst same
      rw [if_pos rfl] at change
      rw [retain_self]
      omega
    · rw [if_neg (Ne.symm same)] at change
      rw [retain_of_ne same]
      omega
  | ends t o' cb running =>
    have change := kept_setPlace s t .idle o
    rw [running, keeps_running, keeps_idle] at change
    change Function.update s.uses o' (s.uses o' - 1) o = s.owners o + (s.setPlace t .idle).kept o
    by_cases same : o = o'
    · subst same
      rw [if_pos rfl] at change
      rw [Function.update_self]
      omega
    · rw [if_neg (Ne.symm same)] at change
      rw [Function.update_of_ne same]
      omega

theorem counted_of_reaches {allowed : State C O T → Label C O T → Prop}
    (reached : (machine C O T).Reaches allowed s) :
    Counted s := by
  refine reached.invariant (fun s begins o => ?_) fun s label next counted _ stepped => counted.turn (step_turn stepped)
  obtain ⟨owners, rfl⟩ := begins
  have nobody : (initial owners : State C O T).kept o = 0 := (tally_eq_zero_iff _).mpr fun _ => rfl
  rw [nobody]
  rfl

omit [DecidableEq T] in
theorem Counted.alive (counted : Counted s) {t : T} {cb : C} (running : s.place t = .running (some o) cb) :
    0 < s.uses o := by
  have one := reading_le_tally (fun t => (s.place t).keeps o) t
  have all := counted o
  simp only [running, keeps_running, if_pos] at one
  rw [State.kept] at all
  omega

/-- While a thread is in the callback of a timer with a condition, the object is there, and the pointer that is
given back behind it finds it. An object is gone when nobody else points to it and no thread is in such a callback. -/
theorem object_kept {allowed : State C O T → Label C O T → Prop}
    (reached : (machine C O T).Reaches allowed s) :
    (∀ t o cb, s.place t = .running (some o) cb → 0 < s.uses o ∧ (step s (.leave t)).isSome = true) ∧
      ∀ o, s.uses o = 0 ↔ s.owners o = 0 ∧ ∀ t cb, s.place t ≠ .running (some o) cb := by
  have counted := counted_of_reaches reached
  refine ⟨fun t o cb running => ⟨counted.alive running, ?_⟩, fun o => ⟨fun gone => ⟨?_, fun t cb running => ?_⟩, ?_⟩⟩
  · simp [step, running, State.release, State.setPlace, release_ok _ (counted.alive running), Except.toOption]
  · have all := counted o
    omega
  · exact absurd (counted.alive running) (by omega)
  · rintro ⟨unowned, nobody⟩
    have none : s.kept o = 0 := by
      refine (tally_eq_zero_iff _).mpr fun t => ?_
      cases place : s.place t with
      | idle | calling => rfl
      | running tmp cb =>
        cases tmp with
        | none => rfl
        | some tmp =>
          rw [keeps_running]
          refine if_neg fun same => ?_
          subst same
          exact nobody t cb place
    rw [counted o, unowned, none]

/-- A timer on the one object is collected and called. -/
def called : List (Label Nat Unit (Fin 1)) :=
  [.addConditionTimer .spine 1 5 10 7 () true, .timer (.listExpiredCb .spine 11), .take 0 0, .call 0]

/-- The program gives up its pointer while the callback runs. -/
theorem object_kept_called :
    ∃ s : State Nat Unit (Fin 1), (machine Nat Unit (Fin 1)).Reaches (fun _ _ => True) s ∧ s.owners () = 0 ∧
      s.uses () ≠ 0 ∧ (step s (.leave 0)).isSome = true := by
  obtain ⟨s, reached, test⟩ := System.reaches_test (machine Nat Unit (Fin 1)) (fun _ _ => True) (fun _ _ => true)
    (fun _ _ _ => trivial) (initial fun _ => 1) ⟨_, rfl⟩ (called ++ [.drop ()])
    (fun s => s.owners () = 0 ∧ s.place 0 = .running (some ()) 7) (by decide)
  obtain ⟨unowned, running⟩ := of_decide_eq_true test
  obtain ⟨alive, leaves⟩ := (object_kept reached).1 0 () 7 running
  exact ⟨s, reached, unowned, Nat.ne_of_gt alive, leaves⟩

/-- The callbacks that were begun for the object. -/
def State.begunFor (s : State C O T) (o : O) : List (Option O × C) := s.begun.filter fun entry => entry.1 = some o

theorem Turn.gone (turn : Turn s next) (counted : Counted s) (gone : s.uses o = 0) :
    next.uses o = 0 ∧ next.begunFor o = s.begunFor o := by
  have all := counted o
  cases turn with
  | quiet uses owners begun kept => exact ⟨by rw [uses, gone], by rw [State.begunFor, begun, State.begunFor]⟩
  | copy o' held =>
    have other : o ≠ o' := by
      rintro rfl
      omega
    exact ⟨(retain_of_ne other).trans gone, rfl⟩
  | drop o' held =>
    have other : o ≠ o' := by
      rintro rfl
      omega
    exact ⟨(Function.update_of_ne other ..).trans gone, rfl⟩
  | plain t cb before => exact ⟨gone, by simp [State.begunFor]⟩
  | begins t o' cb before alive =>
    -- `lock` finds `o'`, and `o` is gone
    have other : o ≠ o' := by
      rintro rfl
      omega
    exact ⟨(retain_of_ne other).trans gone, by simp [State.begunFor, other.symm]⟩
  | ends t o' cb running =>
    refine ⟨?_, rfl⟩
    change Function.update s.uses o' (s.uses o' - 1) o = 0
    by_cases same : o = o'
    · subst same
      rw [Function.update_self, gone]
    · rwa [Function.update_of_ne same]

/-- Once its object is gone no callback with that condition begins, on any thread, whatever timers
are added and whatever was collected before. -/
theorem never_begun {allowed : State C O T → Label C O T → Prop}
    (reached : (machine C O T).Reaches allowed s) (gone : s.uses o = 0) {later : State C O T}
    (path : (machine C O T).Path allowed s later) :
    later.uses o = 0 ∧ later.begunFor o = s.begunFor o ∧ ∀ t cb, later.place t ≠ .running (some o) cb := by
  have kept : Counted later ∧ later.uses o = 0 ∧ later.begunFor o = s.begunFor o := by
    refine path.invariant (P := fun later => Counted later ∧ later.uses o = 0 ∧ later.begunFor o = s.begunFor o)
      (fun m label next held _ stepped => ?_) ⟨counted_of_reaches reached, gone, rfl⟩
    obtain ⟨counted, gone, same⟩ := held
    have turn := step_turn stepped
    obtain ⟨still, begun⟩ := turn.gone counted gone
    exact ⟨counted.turn turn, still, begun.trans same⟩
  obtain ⟨counted, still, same⟩ := kept
  exact ⟨still, same, fun t cb running => absurd (counted.alive running) (by omega)⟩

/-- The object goes while the callback waits; it is taken and called, and does not begin. -/
theorem never_begun_dropped :
    ∃ s later : State Nat Unit (Fin 1), (machine Nat Unit (Fin 1)).Reaches (fun _ _ => True) s ∧
      s.pending = [.onTimer () 7] ∧ (machine Nat Unit (Fin 1)).Path (fun _ _ => True) s later ∧ later.pending = [] ∧
        later.begunFor () = s.begunFor () := by
  obtain ⟨s, reached, test⟩ := System.reaches_test (machine Nat Unit (Fin 1)) (fun _ _ => True) (fun _ _ => true)
    (fun _ _ _ => trivial) (initial fun _ => 1) ⟨_, rfl⟩ (called.take 2 ++ [.drop ()])
    (fun s => (s.uses () = 0 ∧ s.pending = [.onTimer () 7]) ∧
      ((machine Nat Unit (Fin 1)).replay (fun _ _ => true) s (called.drop 2)).any fun later => later.pending = [])
    (by decide)
  obtain ⟨⟨gone, pending⟩, goes⟩ := of_decide_eq_true test
  obtain ⟨later, replayed, empty⟩ := (Option.any_eq_true _ _).mp goes
  have path : (machine Nat Unit (Fin 1)).Path (fun _ _ => True) s later :=
    System.path_of_replay (fun _ _ _ => trivial) .here replayed
  exact ⟨s, later, reached, pending, path, of_decide_eq_true empty, (never_begun reached gone path).2.1⟩

end Condition
end HpsSf
