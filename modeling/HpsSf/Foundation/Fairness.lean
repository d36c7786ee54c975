import HpsSf.Foundation.System
import Mathlib.Order.WellFounded

/-! Runs of a transition system in time, and where a fair one leads.

Each label is a step of one actor or of the environment. A run may rest. It is
fair if no actor that is able to step from some time on rests forever.
-/

set_option autoImplicit false

namespace HpsSf.Foundation.System
variable {S L P : Type} {sys : System S L} {allowed : S → L → Prop}

structure Run (sys : System S L) (allowed : S → L → Prop) where
  state : Nat → S
  label : Nat → Option L
  begins : sys.start (state 0)
  moves : ∀ i l, label i = some l → allowed (state i) l ∧ sys.step (state i) l = some (state (i + 1))
  rests : ∀ i, label i = none → state (i + 1) = state i

def Able (sys : System S L) (actor : L → Option P) (p : P) (s : S) : Prop :=
  ∃ l, actor l = some p ∧ ∃ next, sys.step s l = some next

namespace Run
variable {run : sys.Run allowed} {actor : L → Option P}

def Fair (run : sys.Run allowed) (actor : L → Option P) : Prop :=
  ∀ p i, ∃ j, i ≤ j ∧ (¬ sys.Able actor p (run.state j) ∨ (run.label j).bind actor = some p)

theorem reaches (run : sys.Run allowed) (i : Nat) : sys.Reaches allowed (run.state i) := by
  induction i with
  | zero => exact .start run.begins
  | succ i ih =>
    cases moved : run.label i with
    | none =>
      rw [run.rests i moved]
      exact ih
    | some l =>
      obtain ⟨permitted, stepped⟩ := run.moves i l moved
      exact .step ih permitted stepped

/-- Short of the goal some actor can help, and keeps being able to until it does: its own
step lowers the rank, and any other step lowers the rank or changes neither rank nor helper. -/
structure Helps (sys : System S L) (allowed : S → L → Prop) (actor : L → Option P) {R : Type} [Preorder R]
    (goal known : S → Prop) (rank : S → R) (helper : S → P) : Prop where
  able : ∀ s, known s → ¬ goal s → sys.Able actor (helper s) s
  closer : ∀ s l next, known s → ¬ goal s → allowed s l → sys.step s l = some next → goal next ∨
    rank next < rank s ∨ rank next = rank s ∧ helper next = helper s ∧ actor l ≠ some (helper s)

theorem Helps.step {R : Type} [Preorder R] {goal known : S → Prop} {rank : S → R} {helper : S → P}
    (helps : Helps sys allowed actor goal known rank helper) (holds : ∀ i, known (run.state i)) {i : Nat}
    (short : ¬ goal (run.state i)) : goal (run.state (i + 1)) ∨ rank (run.state (i + 1)) < rank (run.state i) ∨
      rank (run.state (i + 1)) = rank (run.state i) ∧ helper (run.state (i + 1)) = helper (run.state i) ∧
        (run.label i).bind actor ≠ some (helper (run.state i)) := by
  cases moved : run.label i with
  | none =>
    rw [run.rests i moved]
    exact .inr (.inr ⟨rfl, rfl, nofun⟩)
  | some l =>
    obtain ⟨permitted, stepped⟩ := run.moves i l moved
    exact helps.closer _ _ _ (holds i) short permitted stepped

/-- A fair run reaches the goal from every time on. -/
theorem Fair.leads {R : Type} [Preorder R] [WellFoundedLT R] (fair : run.Fair actor) {goal known : S → Prop}
    {rank : S → R} {helper : S → P} (helps : Helps sys allowed actor goal known rank helper)
    (holds : ∀ i, known (run.state i)) (i : Nat) : ∃ j, i ≤ j ∧ goal (run.state j) := by
  generalize start : rank (run.state i) = r
  induction r using WellFoundedLT.induction generalizing i with
  | ind r ih =>
    subst start
    by_contra never
    have short (j : Nat) (later : i ≤ j) : ¬ goal (run.state j) := fun reached => never ⟨j, later, reached⟩
    have lower (j : Nat) (later : i ≤ j) : ¬ rank (run.state j) < rank (run.state i) := fun lower => by
      obtain ⟨k, after, reached⟩ := ih _ lower j rfl
      exact short k (Nat.le_trans later after) reached
    -- Nothing changes in rank and helper as long as the helper does not step.
    have same (j : Nat) (later : i ≤ j) :
        rank (run.state j) = rank (run.state i) ∧ helper (run.state j) = helper (run.state i) := by
      induction j, later using Nat.le_induction with
      | base => exact ⟨rfl, rfl⟩
      | succ j later before =>
        rcases helps.step holds (short j later) with reached | less | ⟨kept, helper, _⟩
        · exact absurd reached (short _ (Nat.le_succ_of_le later))
        · exact absurd (before.1 ▸ less) (lower _ (Nat.le_succ_of_le later))
        · exact ⟨kept.trans before.1, helper.trans before.2⟩
    obtain ⟨j, later, waiting | acts⟩ := fair (helper (run.state i)) i
    · exact waiting ((same j later).2 ▸ helps.able _ (holds j) (short j later))
    · rcases helps.step holds (short j later) with reached | less | ⟨_, _, other⟩
      · exact short _ (Nat.le_succ_of_le later) reached
      · exact lower _ (Nat.le_succ_of_le later) ((same j later).1 ▸ less)
      · exact other ((same j later).2 ▸ acts)

/-- As `Helps`, with the rank and the helper given by what stands in a state: a step leads
to the goal, to a lower rank with any helper, or is of another and leaves both. -/
structure Drives (sys : System S L) (allowed : S → L → Prop) (actor : L → Option P) {R : Type} [Preorder R]
    (goal : S → Prop) (stands : R → P → S → Prop) : Prop where
  able : ∀ r p s, stands r p s → sys.Able actor p s
  closer : ∀ r p s l next, stands r p s → allowed s l → sys.step s l = some next → goal next ∨
    (∃ lower < r, ∃ other, stands lower other next) ∨ stands r p next ∧ actor l ≠ some p

theorem Fair.arrives {R : Type} [Preorder R] [WellFoundedLT R] (fair : run.Fair actor) {goal : S → Prop}
    {stands : R → P → S → Prop} (drives : Drives sys allowed actor goal stands) {r : R} {p : P} {i : Nat}
    (begins : stands r p (run.state i)) : ∃ j, i ≤ j ∧ goal (run.state j) := by
  induction r using WellFoundedLT.induction generalizing p i with
  | ind r ih =>
    by_contra never
    have step (j : Nat) (later : i ≤ j) (here : stands r p (run.state j)) :
        stands r p (run.state (j + 1)) ∧ (run.label j).bind actor ≠ some p := by
      cases moved : run.label j with
      | none =>
        rw [run.rests j moved]
        exact ⟨here, nofun⟩
      | some l =>
        obtain ⟨permitted, stepped⟩ := run.moves j l moved
        obtain reached | ⟨lower, less, other, lowered⟩ | kept := drives.closer r p _ l _ here permitted stepped
        · exact absurd ⟨j + 1, Nat.le_succ_of_le later, reached⟩ never
        · obtain ⟨k, after, reached⟩ := ih lower less lowered
          exact absurd ⟨k, Nat.le_trans (Nat.le_succ_of_le later) after, reached⟩ never
        · exact kept
    have stays (j : Nat) (later : i ≤ j) : stands r p (run.state j) := by
      induction j, later using Nat.le_induction with
      | base => exact begins
      | succ j later before => exact (step j later before).1
    obtain ⟨j, later, waiting | acts⟩ := fair p i
    · exact waiting (drives.able r p _ (stays j later))
    · exact (step j later (stays j later)).2 acts

/-- The run that takes these steps and rests behind them. -/
theorem exists_replaying {check : S → L → Bool} (sound : ∀ s label, check s label = true → allowed s label)
    {labels : List L} {s final : S} (begins : sys.start s) (replayed : sys.replay check s labels = some final) :
    ∃ run : sys.Run allowed, ∀ i, sys.replay check s (labels.take i) = some (run.state i) := by
  have reached (i : Nat) : ∃ t, sys.replay check s (labels.take i) = some t := by
    rw [← List.take_append_drop i labels, replay_append] at replayed
    obtain ⟨t, before, _⟩ := Option.bind_eq_some_iff.mp replayed
    exact ⟨t, before⟩
  choose state at_state using reached
  refine ⟨⟨state, fun i => labels[i]?, ?_, fun i l moved => ?_, fun i rested => ?_⟩, at_state⟩
  · cases (at_state 0)
    exact begins
  · have next := at_state (i + 1)
    rw [List.take_add_one, moved, replay_append, at_state i, Option.bind_some] at next
    obtain ⟨checked, stepped⟩ := replay_one next
    exact ⟨sound _ _ checked, stepped⟩
  · have next := at_state (i + 1)
    rw [List.take_add_one, rested, Option.toList_none, List.append_nil, at_state i] at next
    exact (Option.some.inj next).symm

theorem exists_of_replay {check : S → L → Bool} (sound : ∀ s label, check s label = true → allowed s label)
    {labels : List L} {s final : S} (begins : sys.start s) (replayed : sys.replay check s labels = some final) :
    ∃ run : sys.Run allowed, ∀ i, labels.length ≤ i → run.state i = final := by
  obtain ⟨run, at_state⟩ := exists_replaying sound begins replayed
  refine ⟨run, fun i later => ?_⟩
  have last := at_state i
  rw [List.take_of_length_le later, replayed] at last
  exact (Option.some.inj last).symm

/-- A run is fair if in the end nobody is able to step. -/
theorem Fair.of_still {run : sys.Run allowed} {actor : L → Option P} {k : Nat}
    (still : ∀ i, k ≤ i → ∀ p, ¬ sys.Able actor p (run.state i)) : run.Fair actor :=
  fun p i => ⟨max i k, Nat.le_max_left i k, .inl (still _ (Nat.le_max_right i k) p)⟩

end Run
end HpsSf.Foundation.System
