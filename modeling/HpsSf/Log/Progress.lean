import HpsSf.Log.Locking

/-! The calls of the log system return.

A loop over appenders goes on as long as its list is; only an appender that is added
makes the list longer, and no call adds more than one. So commands come to an end when
no calls are made, and where they end nobody waits for a lock.
-/

set_option autoImplicit false

namespace HpsSf.Log
open Foundation (Command Threads Move)
open Foundation.Command (underLock)

namespace LogSystem

def listed (s : LogSystem) (l : LoggerPtr) : Nat := (s.objects.logger l).appenders.length

/-- The actions after which a loop may be longer. -/
def grows : LogAct → Bool
  | .find _ | .create _ | .pushBack _ _ => true
  | _ => false

/-- A bound on the commands that an action goes on with. -/
def weight (s : LogSystem) : LogAct → Nat
  | .each l k _ => 10 * (s.listed l - k)
  | .append _ _ _ => 7
  | .peek _ _ => 4
  | .fanOut l _ _ => fanning l
  | .log l _ _ => fanning l + 3
  | .statement l _ _ => fanning l + 4
  | .dumpLogger l => 10 * s.listed l + 3
  | .eachLogger k => ((s.loggers.elements.drop k).map fun i => 10 * s.listed i.logger + 5).sum
  | _ => 0
where
  /-- Without appenders a logger hands on to the root logger. -/
  fanning (l : LoggerPtr) : Nat := if l = 0 then 10 * s.listed 0 + 1 else 10 * s.listed l + 10 * s.listed 0 + 5

variable {libc : Libc} {s next : LogSystem} {env : LogEnv}

theorem weight_le (lists : ∀ l, next.listed l ≤ s.listed l) (loggers : next.loggers = s.loggers)
    (a : LogAct) :
    next.weight a ≤ s.weight a := by
  have fanning (l : LoggerPtr) : weight.fanning next l ≤ weight.fanning s l := by
    have mine := lists l
    have root := lists 0
    unfold weight.fanning
    split <;> omega
  cases a with
  | each l k visit =>
    have list := lists l
    simp only [weight]
    omega
  | fanOut l level event => exact fanning l
  | log l level event => exact Nat.add_le_add_right (fanning l) 3
  | statement l level event => exact Nat.add_le_add_right (fanning l) 4
  | dumpLogger l =>
    have list := lists l
    simp only [weight]
    omega
  | eachLogger k =>
    simp only [weight, loggers]
    exact List.sum_le_sum fun i _ => Nat.add_le_add_right (Nat.mul_le_mul_left 10 (lists i.logger)) 5
  | _ => exact Nat.le_refl _

theorem listed_setLogger {objects : Objects} {l : LoggerPtr} {object : LoggerObject}
    (shorter : object.appenders.length ≤ (objects.logger l).appenders.length) (k : LoggerPtr) :
    ((objects.setLogger l object).logger k).appenders.length ≤ (objects.logger k).appenders.length := by
  obtain rfl | other := eq_or_ne k l
  · rwa [Objects.setLogger_self]
  · rw [Objects.setLogger_of_ne _ _ other]

/-- An action that does not grow leaves every list as it is, or shorter. -/
theorem perform_lists (libc : Libc) (s : LogSystem) (env : LogEnv) {a : LogAct}
    (still : grows a = false) :
    (∀ l, (s.perform libc env a).1.listed l ≤ s.listed l) ∧ (s.perform libc env a).1.loggers = s.loggers := by
  cases a with
  | find name | create name | pushBack l a => cases still
  | storeFormatter l val => exact ⟨listed_setLogger (Nat.le_refl _), rfl⟩
  | setLevel l level => exact ⟨listed_setLogger (Nat.le_refl _), rfl⟩
  | erase l a => exact ⟨listed_setLogger List.length_erase_le, rfl⟩
  | clear l => exact ⟨listed_setLogger (Nat.zero_le _), rfl⟩
  | inherit l a =>
    refine ⟨fun k => ?_, rfl⟩
    simp only [perform, listed, Objects.inherit_logger]
    exact Nat.le_refl _
  | write a level event =>
    obtain ⟨objects, -, -, loggers⟩ := write_same libc s env a level event
    refine ⟨fun k => ?_, loggers⟩
    simp only [perform, listed, objects]
    exact Nat.le_refl _
  | _ => exact ⟨fun l => Nat.le_refl _, rfl⟩

theorem append_size (a : AppenderPtr) (level : LogLevel) (event : LogEvent) :
    ((s.append env a level event).map (Threads.size s.weight)).sum ≤ 7 := by
  unfold append
  split
  · cases (s.objects.appender a).kind with
    | stdout => simp [underLock, Threads.size, weight]
    | file filename =>
      dsimp only
      split <;> simp [underLock, Threads.size, weight]
  · exact Nat.zero_le _

/-- An action goes on with less than its weight. -/
theorem perform_size (libc : Libc) (env : LogEnv) (known : Known s) (a : LogAct) :
    ((s.perform libc env a).2.map (Threads.size s.weight)).sum ≤ s.weight a := by
  cases a with
  | statement l level event =>
    simp only [perform]
    split <;> simp [Threads.size, weight]
  | log l level event =>
    simp only [perform]
    split
    · simp only [underLock, List.map_cons, List.map_nil, List.cons_append, List.nil_append, List.sum_cons, List.sum_nil,
        Threads.size, weight]
      omega
    · exact Nat.zero_le _
  | fanOut l level event =>
    simp only [perform]
    split
    · simp only [List.map_cons, List.map_nil, List.sum_cons, List.sum_nil, Threads.size, weight, weight.fanning]
      split
      next first =>
        rw [first]
        omega
      next => omega
    · split
      next root behind =>
        obtain rfl := known.behind l root behind
        have other : l ≠ 0 := by
          rintro rfl
          rw [known.root] at behind
          cases behind
        simp only [List.map_cons, List.map_nil, List.sum_cons, List.sum_nil, Threads.size, weight, weight.fanning,
          if_pos, if_neg other]
        omega
      next => exact Nat.zero_le _
  | each l k visit =>
    simp only [perform]
    split
    next a found =>
      have inside : k < s.listed l := (List.getElem?_eq_some_iff.mp found).1
      have short : ((LogSystem.visit l a visit).map (Threads.size s.weight)).sum ≤ 8 := by
        cases visit <;> simp [LogSystem.visit, underLock, Threads.size, weight]
      simp only [List.map_append, List.sum_append, List.map_cons, List.map_nil, List.sum_cons, List.sum_nil,
        Threads.size, weight]
      omega
    next => exact Nat.zero_le _
  | append a level event => exact append_size a level event
  | peek l a =>
    simp only [perform]
    split <;> simp [underLock, Threads.size, weight]
  | eachLogger k =>
    simp only [perform]
    split
    next i found =>
      obtain ⟨inside, here⟩ := List.getElem?_eq_some_iff.mp found
      have tail : s.loggers.elements.drop k = i :: s.loggers.elements.drop (k + 1) := by
        rw [List.drop_eq_getElem_cons inside, here]
      simp only [List.map_cons, List.map_nil, List.sum_cons, List.sum_nil, Threads.size, weight, tail]
      omega
    next => exact Nat.zero_le _
  | dumpLogger l =>
    simp only [perform, underLock, List.map_cons, List.map_nil, List.cons_append, List.nil_append, List.sum_cons, List.sum_nil,
      Threads.size, weight]
    omega
  | _ => exact Nat.zero_le _

theorem Follows.still {a b : LogAct} (follows : Follows s a b) : grows b = false := by
  cases follows <;> rfl

theorem wanes (libc : Libc) : Threads.Wanes (actions libc) Known grows weight where
  still s a env next commands b known acted member := by
    obtain ⟨-, same⟩ := actions_some acted
    rw [(Prod.mk.inj same).2] at member
    exact (perform_follows member).still
  lighter s a env next commands known acted still := by
    obtain ⟨-, same⟩ := actions_some acted
    obtain ⟨rfl, rfl⟩ := Prod.mk.inj same
    obtain ⟨lists, loggers⟩ := perform_lists libc s env still
    have light := weight_le lists loggers
    refine ⟨light, Nat.le_trans (List.sum_le_sum fun command _ => ?_) (perform_size libc env known a)⟩
    cases command with
    | act b => exact Nat.succ_le_succ (light b)
    | _ => exact Nat.le_refl 1

variable {T : Type} [DecidableEq T]

theorem able {s : LogSystem} (alive : s.crashed = false) (a : LogAct) :
    ∃ env, (actions libc s a env).isSome = true := by
  refine ⟨⟨0, ⟨true, true, true⟩⟩, ?_⟩
  rw [actions, alive]
  rfl

/-- Without further calls the threads come to an end, however they take turns; where none of them can go on
no call is left, unless a null formatter has been used. -/
structure Returns (libc : Libc) (s : Threads LogSystem T LogLock LogAct) : Prop where
  ends : ¬ ∃ states : Nat → Threads LogSystem T LogLock LogAct, states 0 = s ∧
    ∀ n, ∃ t env, (machine libc T).step (states n) (.run t env) = some (states (n + 1))
  idle : ∀ last, (machine libc T).Path Anything s last → last.shared.crashed = false →
    (∀ t env, (machine libc T).step last (.run t env) = none) → ∀ t, last.program t = []

theorem calls_return [Fintype T] {s : Threads LogSystem T LogLock LogAct}
    (reached : (machine libc T).Reaches Anything s) :
    Returns libc s := by
  constructor
  · rintro ⟨states, first, moves⟩
    have all (n : Nat) : (machine libc T).Reaches Anything (states n) := by
      induction n with
      | zero => exact first ▸ reached
      | succ n ih =>
        obtain ⟨t, env, stepped⟩ := moves n
        exact .step ih trivial stepped
    exact Threads.comes_to_end (wanes libc) (fun n => (safe_of_reaches (all n)).known) moves
  · intro last path alive stuck t
    by_contra busy
    have safe := safe_of_reaches (reached.along path)
    have answers : Nonempty LogEnv := ⟨⟨0, ⟨true, true, true⟩⟩⟩
    obtain ⟨u, env, next, -, stepped⟩ := safe.no_deadlock LogLock.rank_lt (able alive) busy
    rw [show last.run (actions libc) u env = none from stuck u env] at stepped
    cases stepped

/-- One thread logs, and another one waits to take the appenders away. -/
def contention : List (Move (Fin 2) LogCall LogEnv) :=
  [.call 0 (.log 0 .error line), .run 0 ⟨1, ⟨true, true, true⟩⟩, .run 0 ⟨1, ⟨true, true, true⟩⟩,
    .call 1 (.object (.clearAppenders 0))]

theorem calls_return_contention : ∃ s : Threads LogSystem (Fin 2) LogLock LogAct,
    (s.owner (.logger 0) = some 0 ∧ (s.program 1).head? = some (.lock (.logger 0))) ∧ Returns noDates s := by
  obtain ⟨s, reached, test⟩ := Foundation.System.reaches_test (machine noDates (Fin 2)) Anything (fun _ _ => true)
    (fun _ _ _ => trivial) initial initial_start contention
    (fun s => s.owner (.logger 0) = some 0 ∧ (s.program 1).head? = some (.lock (.logger 0))) (by decide +kernel)
  exact ⟨s, of_decide_eq_true test, calls_return reached⟩

end LogSystem
end HpsSf.Log
