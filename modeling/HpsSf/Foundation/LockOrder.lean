import HpsSf.Foundation.System
import HpsSf.Foundation.Tally
import Mathlib.Data.List.Basic
import Mathlib.Logic.Function.Basic
import Mathlib.Order.WellFounded

/-! Threads that run lists of commands under locks, and a discipline without deadlocks.

A command takes a lock, gives one back, or acts on the shared state; an action may
put further commands in front of the ones that follow. The discipline ranks the
locks: a thread takes one only above all that it holds.
-/

set_option autoImplicit false

namespace HpsSf.Foundation

inductive Command (L A : Type) where
  | lock (l : L)
  | unlock (l : L)
  | act (a : A)
  deriving DecidableEq, Repr

/-- A section under one lock. -/
def Command.underLock {L A : Type} (l : L) (acts : List A) : List (Command L A) :=
  .lock l :: (acts.map .act ++ [.unlock l])

@[simp] theorem Command.act_mem_underLock {L A : Type} {l : L} {acts : List A} {a : A} :
    .act a ∈ underLock l acts ↔ a ∈ acts := by
  simp [underLock]

/-- What the actions do to the shared state, with the answers of an environment. -/
abbrev Actions (S L A E : Type) := S → A → E → Option (S × List (Command L A))

structure Threads (S T L A : Type) where
  shared : S
  owner : L → Option T
  program : T → List (Command L A)

inductive Move (T C E : Type) where
  | call (t : T) (c : C)
  | run (t : T) (e : E)

namespace Threads
variable {S T L A E C : Type} [DecidableEq T] [DecidableEq L]

/-- One command of a thread; one that waits for a lock has no step. -/
def run (actions : Actions S L A E) (s : Threads S T L A) (t : T) (e : E) : Option (Threads S T L A) :=
  match s.program t with
  | [] => none
  | .lock l :: rest =>
    match s.owner l with
    | some _ => none
    | none => some { s with owner := Function.update s.owner l (some t), program := Function.update s.program t rest }
  | .unlock l :: rest =>
    some { s with owner := Function.update s.owner l none, program := Function.update s.program t rest }
  | .act a :: rest =>
    (actions s.shared a e).map fun (shared, commands) =>
      { s with shared := shared, program := Function.update s.program t (commands ++ rest) }

/-- A thread that has nothing to do may make any call that is admitted. -/
def step (actions : Actions S L A E) (admits : S → C → Bool) (body : C → List (Command L A))
    (s : Threads S T L A) : Move T C E → Option (Threads S T L A)
  | .call t c =>
    if (s.program t).isEmpty && admits s.shared c then some { s with program := Function.update s.program t (body c) }
    else none
  | .run t e => s.run actions t e

def machine (T : Type) [DecidableEq T] (actions : Actions S L A E) (admits : S → C → Bool)
    (body : C → List (Command L A)) (begins : S → Prop) : System (Threads S T L A) (Move T C E) where
  start s := begins s.shared ∧ (∀ l, s.owner l = none) ∧ ∀ t, s.program t = []
  step := step actions admits body

/-- What one command can do. -/
theorem run_cases {actions : Actions S L A E} {s next : Threads S T L A} {t : T} {e : E}
    (stepped : s.run actions t e = some next) :
    (∃ l rest, s.program t = .lock l :: rest ∧ s.owner l = none ∧
      next = { s with owner := Function.update s.owner l (some t), program := Function.update s.program t rest }) ∨
    (∃ l rest, s.program t = .unlock l :: rest ∧
      next = { s with owner := Function.update s.owner l none, program := Function.update s.program t rest }) ∨
    ∃ a rest shared commands, s.program t = .act a :: rest ∧ actions s.shared a e = some (shared, commands) ∧
      next = { s with shared := shared, program := Function.update s.program t (commands ++ rest) } := by
  unfold run at stepped
  split at stepped
  next => cases stepped
  next l rest program =>
    split at stepped
    next => cases stepped
    next free => exact .inl ⟨l, rest, program, free, (Option.some.inj stepped).symm⟩
  next l rest program => exact .inr (.inl ⟨l, rest, program, (Option.some.inj stepped).symm⟩)
  next a rest program =>
    obtain ⟨⟨shared, commands⟩, acted, same⟩ := Option.map_eq_some_iff.mp stepped
    exact .inr (.inr ⟨a, rest, shared, commands, program, acted, same.symm⟩)

theorem step_call {actions : Actions S L A E} {admits : S → C → Bool}
    {body : C → List (Command L A)} {s next : Threads S T L A} {t : T} {c : C}
    (stepped : s.step actions admits body (.call t c) = some next) :
    s.program t = [] ∧ admits s.shared c = true ∧ next = { s with program := Function.update s.program t (body c) } := by
  rw [step] at stepped
  by_cases able : ((s.program t).isEmpty && admits s.shared c) = true
  · rw [if_pos able] at stepped
    rw [Bool.and_eq_true, List.isEmpty_iff] at able
    exact ⟨able.1, able.2, (Option.some.inj stepped).symm⟩
  · rw [if_neg able] at stepped
    cases stepped

/-- A thread with something to do may run, or it waits for a lock that another thread holds. -/
theorem run_or_waits {actions : Actions S L A E} {s : Threads S T L A} [Nonempty E]
    (able : ∀ a, ∃ e, (actions s.shared a e).isSome = true) {t : T} (busy : s.program t ≠ []) :
    (∃ e next, s.run actions t e = some next) ∨
      ∃ l rest u, s.program t = .lock l :: rest ∧ s.owner l = some u := by
  cases program : s.program t with
  | nil => exact absurd program busy
  | cons command rest =>
    obtain ⟨any⟩ := ‹Nonempty E›
    cases command with
    | lock l =>
      cases owner : s.owner l with
      | some u => exact .inr ⟨l, rest, u, rfl, owner⟩
      | none => exact .inl ⟨any, _, by rw [run, program]; simp only [owner]; rfl⟩
    | unlock l => exact .inl ⟨any, _, by rw [run, program]⟩
    | act a =>
      obtain ⟨e, some⟩ := able a
      obtain ⟨result, acted⟩ := Option.isSome_iff_exists.mp some
      exact .inl ⟨e, _, by rw [run, program]; simp only [acted, Option.map_some]; rfl⟩

/-! ## A thread by itself -/

/-- What commands do to the shared state when no other thread comes in between. -/
inductive Alone (actions : Actions S L A E) : S → List (Command L A) → S → Prop where
  | done (s : S) : Alone actions s [] s
  | lock {s final : S} {l : L} {rest : List (Command L A)} : Alone actions s rest final →
      Alone actions s (.lock l :: rest) final
  | unlock {s final : S} {l : L} {rest : List (Command L A)} : Alone actions s rest final →
      Alone actions s (.unlock l :: rest) final
  | act {s next final : S} {a : A} {e : E} {commands rest : List (Command L A)} :
      actions s a e = some (next, commands) →
      Alone actions next (commands ++ rest) final → Alone actions s (.act a :: rest) final

omit [DecidableEq L] in
theorem Alone.append {actions : Actions S L A E} {s final : S} {front rest : List (Command L A)}
    (alone : Alone actions s (front ++ rest) final) :
    ∃ middle, Alone actions s front middle ∧ Alone actions middle rest final := by
  generalize whole : front ++ rest = program at alone
  induction alone generalizing front with
  | done s =>
    obtain ⟨rfl, rfl⟩ := List.append_eq_nil_iff.mp whole
    exact ⟨s, .done s, .done s⟩
  | @lock s final l tail before ih =>
    cases front with
    | nil =>
      obtain rfl : rest = _ := whole
      exact ⟨s, .done s, .lock before⟩
    | cons command front =>
      obtain ⟨rfl, same⟩ := List.cons_eq_cons.mp whole
      obtain ⟨middle, first, second⟩ := ih same
      exact ⟨middle, .lock first, second⟩
  | @unlock s final l tail before ih =>
    cases front with
    | nil =>
      obtain rfl : rest = _ := whole
      exact ⟨s, .done s, .unlock before⟩
    | cons command front =>
      obtain ⟨rfl, same⟩ := List.cons_eq_cons.mp whole
      obtain ⟨middle, first, second⟩ := ih same
      exact ⟨middle, .unlock first, second⟩
  | @act s next final a e commands tail acted before ih =>
    cases front with
    | nil =>
      obtain rfl : rest = _ := whole
      exact ⟨s, .done s, .act acted before⟩
    | cons command front =>
      obtain ⟨rfl, same⟩ := List.cons_eq_cons.mp whole
      have tails : (commands ++ front) ++ rest = commands ++ tail := by
        rw [List.append_assoc]
        exact congrArg _ same
      obtain ⟨middle, first, second⟩ := ih tails
      exact ⟨middle, .act acted first, second⟩

omit [DecidableEq L] in
/-- A section does what its actions do. -/
theorem Alone.underLock {actions : Actions S L A E} {s final : S} {l : L} {acts : List A}
    (alone : Alone actions s (Command.underLock l acts) final) : Alone actions s (acts.map .act) final := by
  cases alone with
  | lock inside =>
    obtain ⟨middle, before, last⟩ := inside.append
    cases last with
    | unlock rest =>
      cases rest
      exact before

/-- A thread that has run to its end, with the others at rest. -/
theorem alone_of_path {actions : Actions S L A E} {admits : S → C → Bool} {body : C → List (Command L A)}
    {begins : S → Prop}
    {s next : Threads S T L A} {t : T}
    (path : (machine T actions admits body begins).Path (fun _ move => ∃ e, move = .run t e) s next)
    (ended : next.program t = []) : Alone actions s.shared (s.program t) next.shared := by
  suffices ∀ final, Alone actions next.shared (next.program t) final → Alone actions s.shared (s.program t) final from
    this _ (ended ▸ .done _)
  clear ended
  induction path with
  | here => exact fun _ => id
  | @step middle next move before mine stepped ih =>
    intro final later
    obtain ⟨e, rfl⟩ := mine
    refine ih final ?_
    change middle.run actions t e = some next at stepped
    obtain ⟨l, rest, program, -, rfl⟩ | ⟨l, rest, program, rfl⟩ | ⟨a, rest, shared, commands, program, acted, rfl⟩ :=
      run_cases stepped
    · rw [program]
      exact .lock (by simpa using later)
    · rw [program]
      exact .unlock (by simpa using later)
    · rw [program]
      exact .act acted (by simpa using later)

/-! ## Programs that come to an end -/

/-- How much a command may still go on with. -/
def size (weight : A → Nat) : Command L A → Nat
  | .act a => weight a + 1
  | _ => 1

def grown (grows : A → Bool) : Command L A → Bool
  | .act a => grows a
  | _ => false

/-- An action goes on with less than its weight. Only one that grows makes others heavier, and
there come no more of these. -/
structure Wanes (actions : Actions S L A E) (known : S → Prop) (grows : A → Bool) (weight : S → A → Nat) : Prop where
  still : ∀ s a e next commands b, known s → actions s a e = some (next, commands) → .act b ∈ commands → grows b = false
  lighter : ∀ s a e next commands, known s → actions s a e = some (next, commands) → grows a = false →
    (∀ b, weight next b ≤ weight s b) ∧ (commands.map (size (weight next))).sum ≤ weight s a

section ending
variable [Fintype T] (grows : A → Bool) (weight : S → A → Nat)

def growing (s : Threads S T L A) : Nat := tally fun t => (s.program t).countP (grown grows)

def length (s : Threads S T L A) : Nat := tally fun t => ((s.program t).map (size (weight s.shared))).sum

variable {grows weight}

omit [DecidableEq L] in
/-- A command that goes on with nothing leaves a shorter program. -/
theorem shorter {s next : Threads S T L A} {t : T} {command : Command L A} {rest : List (Command L A)}
    (program : s.program t = command :: rest) (shared : next.shared = s.shared)
    (after : next.program = Function.update s.program t rest) (still : grown grows command = false) :
    next.growing grows = s.growing grows ∧ next.length weight < s.length weight := by
  have others (u : T) (other : u ≠ t) : next.program u = s.program u := by rw [after, Function.update_of_ne other]
  have mine : next.program t = rest := by rw [after, Function.update_self]
  constructor
  · refine tally_congr fun u => ?_
    obtain rfl | other := eq_or_ne u t
    · rw [mine, program, List.countP_cons_of_neg (by simp [still])]
    · rw [others u other]
  · refine tally_lt t (fun u => ?_) ?_
    · obtain rfl | other := eq_or_ne u t
      · rw [mine, program, shared, List.map_cons, List.sum_cons]
        exact Nat.le_add_left ..
      · rw [others u other, shared]
    · rw [mine, program, shared, List.map_cons, List.sum_cons]
      have positive : 0 < size (weight s.shared) command := by cases command <;> exact Nat.succ_pos _
      omega

theorem run_shrinks {actions : Actions S L A E} {known : S → Prop}
    (wanes : Wanes actions known grows weight) {s next : Threads S T L A} (holds : known s.shared)
    {t : T} {e : E} (stepped : s.run actions t e = some next) :
    next.growing grows < s.growing grows ∨
      next.growing grows = s.growing grows ∧ next.length weight < s.length weight := by
  obtain ⟨l, rest, program, free, rfl⟩ | ⟨l, rest, program, rfl⟩ | ⟨a, rest, shared, commands, program, acted, rfl⟩ :=
    run_cases stepped
  · exact .inr (shorter program rfl rfl rfl)
  · exact .inr (shorter program rfl rfl rfl)
  · have none : commands.countP (grown grows) = 0 := by
      refine List.countP_eq_zero.mpr fun command member => ?_
      cases command with
      | act b => simpa [grown] using wanes.still _ _ _ _ _ b holds acted member
      | _ => exact Bool.false_ne_true
    have count (u : T) : (Function.update s.program t (commands ++ rest) u).countP (grown grows) ≤
        (s.program u).countP (grown grows) := by
      obtain rfl | other := eq_or_ne u t
      · rw [Function.update_self, program, List.countP_append, none, List.countP_cons]
        omega
      · rw [Function.update_of_ne other]
    by_cases grow : grows a = true
    · refine .inl (tally_lt t count ?_)
      change (Function.update s.program t (commands ++ rest) t).countP (grown grows) < _
      rw [Function.update_self, program, List.countP_append, none,
        List.countP_cons_of_pos (show grown grows (.act a) = true from grow)]
      omega
    · have still : grows a = false := by simpa using grow
      obtain ⟨lighter, less⟩ := wanes.lighter _ _ _ _ _ holds acted still
      have light (program : List (Command L A)) :
          (program.map (size (weight shared))).sum ≤ (program.map (size (weight s.shared))).sum := by
        refine List.sum_le_sum fun command _ => ?_
        cases command with
        | act b => exact Nat.succ_le_succ (lighter b)
        | _ => exact Nat.le_refl 1
      have fewer : ((commands ++ rest).map (size (weight shared))).sum <
          ((s.program t).map (size (weight s.shared))).sum := by
        have tail := light rest
        rw [program, List.map_append, List.sum_append, List.map_cons, List.sum_cons]
        simp only [size]
        omega
      refine .inr ⟨tally_congr fun u => ?_, tally_lt t (fun u => ?_) ?_⟩
      · change (Function.update s.program t (commands ++ rest) u).countP (grown grows) = _
        obtain rfl | other := eq_or_ne u t
        · rw [Function.update_self, program, List.countP_append, none,
            List.countP_cons_of_neg (show ¬ grown grows (.act a) = true from grow), Nat.zero_add]
        · rw [Function.update_of_ne other]
      · change ((Function.update s.program t (commands ++ rest) u).map (size (weight shared))).sum ≤ _
        obtain rfl | other := eq_or_ne u t
        · rw [Function.update_self]
          exact Nat.le_of_lt fewer
        · rw [Function.update_of_ne other]
          exact light (s.program u)
      · change ((Function.update s.program t (commands ++ rest) t).map (size (weight shared))).sum < _
        rwa [Function.update_self]

/-- Commands alone do not go on for ever. -/
theorem comes_to_end {actions : Actions S L A E} {known : S → Prop}
    (wanes : Wanes actions known grows weight) {states : Nat → Threads S T L A}
    (holds : ∀ n, known (states n).shared) :
    ¬ ∀ n, ∃ t e, (states n).run actions t e = some (states (n + 1)) := by
  intro runs
  obtain ⟨n, last⟩ := WellFounded.not_rel_apply_succ (r := Prod.Lex (· < ·) (· < ·))
    fun n => ((states n).growing grows, (states n).length weight)
  obtain ⟨t, e, stepped⟩ := runs n
  refine last ?_
  obtain fewer | ⟨same, shorter⟩ := run_shrinks wanes (holds n) stepped
  · exact .left _ _ fewer
  · rw [same]
    exact .right _ shorter

end ending

end Threads

/-! ## The discipline -/

structure Discipline (L A : Type) where
  rank : L → Nat
  /-- The action takes no lock below this rank, apart from those that it has given back before. -/
  floor : A → Nat
  /-- The locks that protect what the action reads and writes. -/
  needs : A → List L
  /-- The locks that the action gives back. -/
  drops : A → List L

namespace Discipline
variable {S T L A E C : Type} [DecidableEq L] (D : Discipline L A)

/-- A thread that holds these locks may run these commands. -/
def Fits : List L → List (Command L A) → Prop
  | held, [] => held = []
  | held, .lock l :: rest => (∀ k ∈ held, D.rank k < D.rank l) ∧ Fits (l :: held) rest
  | held, .unlock l :: rest => l ∈ held ∧ Fits (held.erase l) rest
  | held, .act a :: rest =>
    (∀ k ∈ held.diff (D.drops a), D.rank k < D.floor a) ∧ (∀ k ∈ D.needs a, k ∈ held) ∧
      Fits (held.diff (D.drops a)) rest

/-- What is known of the shared state, and that an action refers to things that exist in it. -/
structure Context (S A : Type) where
  known : S → Prop
  refers : S → A → Prop

/-- The actions keep to the discipline, and keep what they rely on. -/
structure Keeps (actions : Actions S L A E) (context : Context S A) : Prop where
  known : ∀ s a e next commands, context.known s → context.refers s a → actions s a e = some (next, commands) →
    context.known next
  refers : ∀ s a e next commands b, context.known s → actions s a e = some (next, commands) → context.refers s b →
    context.refers next b
  commands : ∀ s a e next commands b, context.known s → context.refers s a → actions s a e = some (next, commands) →
    .act b ∈ commands → context.refers next b
  fits : ∀ s a e next commands held rest, context.known s → actions s a e = some (next, commands) →
    D.Fits held (.act a :: rest) → D.Fits held (commands ++ rest)

/-- The locks of a thread are these, and its program fits to them. -/
structure Holds (s : Threads S T L A) (t : T) (held : List L) : Prop where
  nodup : held.Nodup
  owner : ∀ l, l ∈ held ↔ s.owner l = some t
  fits : D.Fits held (s.program t)

structure Safe (context : Context S A) (s : Threads S T L A) : Prop where
  known : context.known s.shared
  holds : ∀ t, ∃ held, D.Holds s t held
  refers : ∀ t a, .act a ∈ s.program t → context.refers s.shared a

variable {D} {actions : Actions S L A E} {admits : S → C → Bool} {body : C → List (Command L A)}
  {begins : S → Prop} {context : Context S A} {s next : Threads S T L A}

theorem fits_acts {held : List L} {rest : List (Command L A)} {acts : List A}
    (drops : ∀ a ∈ acts, D.drops a = []) (floors : ∀ a ∈ acts, ∀ k ∈ held, D.rank k < D.floor a)
    (needs : ∀ a ∈ acts, ∀ k ∈ D.needs a, k ∈ held) (after : D.Fits held rest) :
    D.Fits held (acts.map .act ++ rest) := by
  induction acts with
  | nil => exact after
  | cons a acts ih =>
    obtain ⟨drop, drops⟩ := List.forall_mem_cons.mp drops
    obtain ⟨floor, floors⟩ := List.forall_mem_cons.mp floors
    obtain ⟨need, needs⟩ := List.forall_mem_cons.mp needs
    have whole : held.diff (D.drops a) = held := by rw [drop, List.diff_nil]
    refine ⟨by rwa [whole], need, ?_⟩
    rw [whole]
    exact ih drops floors needs

theorem fits_underLock {held : List L} {rest : List (Command L A)} {l : L} {acts : List A}
    (above : ∀ k ∈ held, D.rank k < D.rank l) (drops : ∀ a ∈ acts, D.drops a = [])
    (floors : ∀ a ∈ acts, ∀ k ∈ l :: held, D.rank k < D.floor a)
    (needs : ∀ a ∈ acts, ∀ k ∈ D.needs a, k ∈ l :: held) (after : D.Fits held rest) :
    D.Fits held (Command.underLock l acts ++ rest) := by
  refine ⟨above, ?_⟩
  change D.Fits (l :: held) (acts.map .act ++ [.unlock l] ++ rest)
  rw [List.append_assoc]
  exact fits_acts drops floors needs ⟨List.mem_cons_self .., by rwa [List.erase_cons_head]⟩

theorem Holds.of_same {t : T} {held : List L} (holds : D.Holds s t held)
    (owner : ∀ l, next.owner l = some t ↔ s.owner l = some t)
    (program : next.program t = s.program t) : D.Holds next t held :=
  ⟨holds.nodup, fun l => (holds.owner l).trans (owner l).symm, program ▸ holds.fits⟩

/-- What protects the data of the next action is held by its thread. -/
theorem Safe.needs (safe : D.Safe context s) {t : T} {a : A} {rest : List (Command L A)}
    (program : s.program t = .act a :: rest) : ∀ l ∈ D.needs a, s.owner l = some t := by
  obtain ⟨held, holds⟩ := safe.holds t
  have fits := holds.fits
  rw [program] at fits
  exact fun l needed => (holds.owner l).mp (fits.2.1 l needed)

/-- No thread gives back a lock that it does not hold. -/
theorem Safe.unlocks (safe : D.Safe context s) {t : T} {l : L} {rest : List (Command L A)}
    (program : s.program t = .unlock l :: rest) : s.owner l = some t := by
  obtain ⟨held, holds⟩ := safe.holds t
  have fits := holds.fits
  rw [program] at fits
  exact (holds.owner l).mp fits.1

variable [DecidableEq T]

theorem Safe.run (safe : D.Safe context s) (keeps : D.Keeps actions context) {t : T} {e : E}
    (stepped : s.run actions t e = some next) : D.Safe context next := by
  obtain ⟨known, all, refers⟩ := safe
  obtain ⟨held, nodup, owner, fits⟩ := all t
  -- A thread's rest refers to what its program refers to.
  have fewer {command : Command L A} {rest : List (Command L A)} (program : s.program t = command :: rest) (u : T) (a : A)
      (later : .act a ∈ Function.update s.program t rest u) : context.refers s.shared a := by
    obtain rfl | other := eq_or_ne u t
    · rw [Function.update_self] at later
      exact refers u a (program ▸ List.mem_cons_of_mem _ later)
    · rw [Function.update_of_ne other] at later
      exact refers u a later
  obtain ⟨l, rest, program, free, rfl⟩ | ⟨l, rest, program, rfl⟩ | ⟨a, rest, shared, commands, program, acted, rfl⟩ :=
    Threads.run_cases stepped
  · rw [program] at fits
    obtain ⟨above, fits⟩ := fits
    refine ⟨known, fun u => ?_, fewer program⟩
    obtain rfl | other := eq_or_ne u t
    · refine ⟨l :: held, List.nodup_cons.mpr ⟨fun inside => absurd (above l inside) (Nat.lt_irrefl _), nodup⟩,
        fun k => ?_, by simpa using fits⟩
      obtain rfl | different := eq_or_ne k l
      · simp
      · simp [different, owner]
    · obtain ⟨theirs, holds⟩ := all u
      refine ⟨theirs, holds.of_same (fun k => ?_) (Function.update_of_ne other ..)⟩
      obtain rfl | different := eq_or_ne k l
      · simp [free, other.symm]
      · simp [different]
  · rw [program] at fits
    obtain ⟨inside, fits⟩ := fits
    have mine := (owner l).mp inside
    refine ⟨known, fun u => ?_, fewer program⟩
    obtain rfl | other := eq_or_ne u t
    · refine ⟨held.erase l, nodup.erase l, fun k => ?_, by simpa using fits⟩
      rw [nodup.mem_erase_iff]
      obtain rfl | different := eq_or_ne k l
      · simp
      · simp [different, owner]
    · obtain ⟨theirs, holds⟩ := all u
      refine ⟨theirs, holds.of_same (fun k => ?_) (Function.update_of_ne other ..)⟩
      obtain rfl | different := eq_or_ne k l
      · simp [mine, other.symm]
      · simp [different]
  · rw [program] at fits
    have here : context.refers s.shared a := refers t a (program ▸ List.mem_cons_self ..)
    refine ⟨keeps.known _ _ _ _ _ known here acted, fun u => ?_, fun u b later => ?_⟩
    · obtain rfl | other := eq_or_ne u t
      · exact ⟨held, nodup, owner, by simpa using keeps.fits _ _ _ _ _ _ _ known acted fits⟩
      · obtain ⟨theirs, holds⟩ := all u
        exact ⟨theirs, holds.of_same (fun k => .rfl) (Function.update_of_ne other ..)⟩
    · obtain rfl | other := eq_or_ne u t
      · simp only [Function.update_self, List.mem_append] at later
        obtain new | old := later
        · exact keeps.commands _ _ _ _ _ _ known here acted new
        · exact keeps.refers _ _ _ _ _ _ known acted (refers u b (program ▸ List.mem_cons_of_mem _ old))
      · simp only [Function.update_of_ne other] at later
        exact keeps.refers _ _ _ _ _ _ known acted (refers u b later)

/-- Every call starts and ends without locks. -/
theorem safe_of_reaches (keeps : D.Keeps actions context) (initially : ∀ s, begins s → context.known s)
    (calls : ∀ c, D.Fits [] (body c))
    (admitted : ∀ s c a, context.known s → admits s c = true → .act a ∈ body c → context.refers s a)
    {allowed : Threads S T L A → Move T C E → Prop}
    (reached : (Threads.machine T actions admits body begins).Reaches allowed s) : D.Safe context s := by
  refine reached.invariant (fun s start => ?_) fun s move next safe _ stepped => ?_
  · obtain ⟨begin, free, idle⟩ := start
    refine ⟨initially _ begin, fun t => ⟨[], List.nodup_nil, fun l => ?_, ?_⟩, fun t a later => ?_⟩
    · simp [free l]
    · rw [idle t]
      rfl
    · rw [idle t] at later
      cases later
  · cases move with
    | run t e => exact safe.run keeps stepped
    | call t c =>
      change s.step actions admits body (.call t c) = some next at stepped
      obtain ⟨idle, able, rfl⟩ := Threads.step_call stepped
      refine ⟨safe.known, fun u => ?_, fun u a later => ?_⟩
      · obtain ⟨held, holds⟩ := safe.holds u
        obtain rfl | other := eq_or_ne u t
        · have none : held = [] := by
            have fits := holds.fits
            rw [idle] at fits
            exact fits
          subst none
          exact ⟨[], List.nodup_nil, holds.owner, by simpa using calls c⟩
        · exact ⟨held, holds.of_same (fun k => .rfl) (Function.update_of_ne other ..)⟩
      · obtain rfl | other := eq_or_ne u t
        · simp only [Function.update_self] at later
          exact admitted _ _ _ safe.known able later
        · simp only [Function.update_of_ne other] at later
          exact safe.refers u a later

/-- As long as a thread has something to do, some thread is able to do something: who holds a lock
waits, if at all, for one of a higher rank. -/
theorem Safe.no_deadlock (safe : D.Safe context s) {top : Nat} (bounded : ∀ l, D.rank l < top)
    (able : ∀ a, ∃ e, (actions s.shared a e).isSome = true) [Nonempty E] {t : T} (busy : s.program t ≠ []) :
    ∃ u e next, s.program u ≠ [] ∧ s.run actions u e = some next := by
  obtain ⟨e, next, stepped⟩ | ⟨l, rest, u, -, owned⟩ := Threads.run_or_waits able busy
  · exact ⟨t, e, next, busy, stepped⟩
  clear busy rest
  -- The lock that is waited for, by the distance of its rank from the top.
  induction distance : top - D.rank l using Nat.strongRecOn generalizing l u with
  | ind distance ih =>
    obtain ⟨held, holds⟩ := safe.holds u
    have inside : l ∈ held := (holds.owner l).mpr owned
    have busy : s.program u ≠ [] := by
      intro idle
      have fits := holds.fits
      rw [idle] at fits
      rw [show held = [] from fits] at inside
      cases inside
    obtain ⟨e, next, stepped⟩ | ⟨k, rest, v, program, owned'⟩ := Threads.run_or_waits able busy
    · exact ⟨u, e, next, busy, stepped⟩
    · have fits := holds.fits
      rw [program] at fits
      have above := fits.1 l inside
      have below := bounded k
      exact ih (top - D.rank k) (by omega) k v owned' rfl

end Discipline
end HpsSf.Foundation
