import HpsSf.Log.Objects

/-! Whether the formatter that an appender keeps is the one it should log with.

The copy of a logger's formatter is written when the appender is added without
one and when the logger's formatter is set. Nothing takes it back when the
appender leaves, and an appender whose own formatter is withdrawn gets none.
-/

set_option autoImplicit false

namespace HpsSf.Log
open Foundation (System Text)

namespace Objects

def Holds (s : Objects) (l : LoggerPtr) (a : AppenderPtr) : Prop := a ∈ (s.logger l).appenders

instance (s : Objects) (l : LoggerPtr) (a : AppenderPtr) : Decidable (s.Holds l a) :=
  inferInstanceAs (Decidable (a ∈ _))

/-- The appender is attached to exactly this logger. -/
def Sole (s : Objects) (l : LoggerPtr) (a : AppenderPtr) : Prop := s.Holds l a ∧ ∀ other, s.Holds other a → other = l

/-- Apart from the first logger, the appender is attached to exactly the second. -/
def SoleBeside (s : Objects) (l kept : LoggerPtr) (a : AppenderPtr) : Prop :=
  kept ≠ l ∧ s.Holds kept a ∧ ∀ other, other ≠ l → s.Holds other a → other = kept

/-- The appender has a formatter of its own, or a copy of this logger's. -/
def Fits (s : Objects) (l : LoggerPtr) (a : AppenderPtr) : Prop :=
  (s.appender a).hasFormatter = true ∨
    (s.logger l).formatter.isSome = true ∧ (s.appender a).formatter = (s.logger l).formatter

def Current (s : Objects) : Prop := ∀ l a, s.Sole l a → s.Fits l a

/-- The operations that leave no appender behind with a wrong formatter. -/
def Careful (s : Objects) : ObjectOp → Prop
  | .addAppender l a =>
      (∀ other, other ≠ l → ¬ s.Holds other a) → (s.appender a).hasFormatter = true ∨
        (s.logger l).formatter.isSome = true ∧
          ((s.appender a).formatter = none ∨ (s.appender a).formatter = (s.logger l).formatter)
  | .delAppender l a =>
      a ∉ (s.logger l).appenders.erase a → ∀ kept, s.SoleBeside l kept a → s.Fits kept a
  | .clearAppenders l => ∀ kept a, s.SoleBeside l kept a → s.Fits kept a
  | .setFormatter l val => val = none → ∀ a, s.Sole l a → (s.appender a).hasFormatter = true
  | .setAppenderFormatter a val => val = none → ∀ l, ¬ s.Sole l a
  | .setPattern _ _ | .setLevel _ _ | .setAppenderLevel _ _ => True

variable {s next : Objects}

/-- Where the lists and the formatters are the same, nothing changes. -/
theorem current_congr (holds : ∀ l a, next.Holds l a ↔ s.Holds l a) (fits : ∀ l a, next.Fits l a ↔ s.Fits l a) :
    next.Current ↔ s.Current := by
  have sole (l : LoggerPtr) (a : AppenderPtr) : next.Sole l a ↔ s.Sole l a :=
    and_congr (holds l a) (forall_congr' fun other => imp_congr_left (holds other a))
  exact forall₂_congr fun l a => imp_congr (sole l a) (fits l a)

/-- Where one appender alone is concerned, it decides. -/
theorem current_iff_of_one {a : AppenderPtr} (current : s.Current)
    (holds : ∀ l b, b ≠ a → (next.Holds l b ↔ s.Holds l b)) (fits : ∀ l b, b ≠ a → (next.Fits l b ↔ s.Fits l b)) :
    next.Current ↔ ∀ l, next.Sole l a → next.Fits l a := by
  constructor
  · exact fun after l sole => after l a sole
  · intro one l b sole
    obtain rfl | other := eq_or_ne b a
    · exact one l sole
    · refine (fits l b other).mpr (current l b ⟨(holds l b other).mp sole.1, fun l' held => ?_⟩)
      exact sole.2 l' ((holds l' b other).mpr held)

section adding
variable (l l' : LoggerPtr) (a b : AppenderPtr)

@[simp] theorem addAppender_holds : (s.addAppender l a).Holds l' b ↔ s.Holds l' b ∨ l' = l ∧ b = a := by
  unfold Holds
  rw [addAppender_logger]
  obtain rfl | other := eq_or_ne l' l
  · simp
  · simp [other]

@[simp] theorem addAppender_formatter : ((s.addAppender l a).logger l').formatter = (s.logger l').formatter := by
  rw [addAppender_logger]
  obtain rfl | other := eq_or_ne l' l
  · simp
  · simp [other]

@[simp] theorem addAppender_hasFormatter :
    ((s.addAppender l a).appender b).hasFormatter = (s.appender b).hasFormatter := by
  rw [addAppender_appender]
  split <;> rfl

theorem addAppender_fits_of_ne (other : b ≠ a) : (s.addAppender l a).Fits l' b ↔ s.Fits l' b := by
  have same : (s.addAppender l a).appender b = s.appender b := by simp [addAppender_appender, other]
  simp [Fits, same]

theorem addAppender_fits_self : (s.addAppender l a).Fits l a ↔ (s.appender a).hasFormatter = true ∨
    (s.logger l).formatter.isSome = true ∧
      ((s.appender a).formatter = none ∨ (s.appender a).formatter = (s.logger l).formatter) := by
  unfold Fits
  rw [addAppender_hasFormatter, addAppender_formatter, addAppender_appender]
  cases copy : (s.appender a).formatter <;> simp [copy]

theorem addAppender_sole : (s.addAppender l a).Sole l' a ↔ l' = l ∧ ∀ other, other ≠ l → ¬ s.Holds other a := by
  unfold Sole
  simp only [addAppender_holds, and_true]
  constructor
  · rintro ⟨-, only⟩
    have here : l' = l := (only l (.inr rfl)).symm
    exact ⟨here, fun other distinct held => distinct ((only other (.inl held)).trans here)⟩
  · rintro ⟨rfl, nowhere⟩
    refine ⟨.inr rfl, fun other held => ?_⟩
    by_contra distinct
    exact nowhere other distinct (held.resolve_right distinct)

theorem addAppender_current (current : s.Current) :
    (s.addAppender l a).Current ↔ s.Careful (.addAppender l a) := by
  rw [current_iff_of_one current (a := a) (fun l' b other => by simp [other])
    fun l' b other => addAppender_fits_of_ne l l' a b other]
  simp only [addAppender_sole, Careful, ← addAppender_fits_self]
  constructor
  · exact fun one nowhere => one l ⟨rfl, nowhere⟩
  · rintro careful l' ⟨rfl, nowhere⟩
    exact careful nowhere

end adding

section removing
variable (l l' : LoggerPtr) (a b : AppenderPtr)

/-- Only the list of the logger is different. -/
theorem setAppenders_fits (appenders : List AppenderPtr) :
    (s.setLogger l { s.logger l with appenders := appenders }).Fits l' b ↔ s.Fits l' b := by
  unfold Fits
  obtain rfl | other := eq_or_ne l' l
  · simp
  · simp [setLogger_of_ne s _ other]

theorem setAppenders_holds (appenders : List AppenderPtr) :
    (s.setLogger l { s.logger l with appenders := appenders }).Holds l' b ↔
      if l' = l then b ∈ appenders else s.Holds l' b := by
  unfold Holds
  obtain rfl | other := eq_or_ne l' l
  · simp
  · simp [setLogger_of_ne s _ other, other]

/-- An appender that the logger no longer holds is left to the others. -/
theorem setAppenders_sole {appenders : List AppenderPtr} (gone : b ∉ appenders) :
    (s.setLogger l { s.logger l with appenders := appenders }).Sole l' b ↔ s.SoleBeside l l' b := by
  unfold Sole
  simp only [setAppenders_holds]
  constructor
  · rintro ⟨held, only⟩
    have other : l' ≠ l := by
      rintro rfl
      exact gone (by simpa using held)
    refine ⟨other, by simpa [other] using held, fun l'' distinct held'' => only l'' (by simpa [distinct] using held'')⟩
  · rintro ⟨other, held, only⟩
    refine ⟨by simpa [other] using held, fun l'' held'' => ?_⟩
    split at held''
    next => exact absurd held'' gone
    next distinct => exact only l'' distinct held''

theorem delAppender_current (current : s.Current) :
    (s.delAppender l a).Current ↔ s.Careful (.delAppender l a) := by
  have holds (l' : LoggerPtr) (b : AppenderPtr) (same : b ∈ (s.logger l).appenders.erase a ↔ s.Holds l b) :
      (s.delAppender l a).Holds l' b ↔ s.Holds l' b := by
    unfold delAppender
    rw [setAppenders_holds]
    split
    next here => rw [here, same]
    next => rfl
  have others (l' : LoggerPtr) (b : AppenderPtr) (other : b ≠ a) : (s.delAppender l a).Holds l' b ↔ s.Holds l' b :=
    holds l' b (List.mem_erase_of_ne other)
  by_cases twice : a ∈ (s.logger l).appenders.erase a
  · have unchanged : (s.delAppender l a).Current ↔ s.Current := by
      refine current_congr (fun l' b => ?_) fun l' b => setAppenders_fits l l' b _
      obtain rfl | other := eq_or_ne b a
      · exact holds l' b (iff_of_true twice (List.mem_of_mem_erase twice))
      · exact others l' b other
    exact iff_of_true (unchanged.mpr current) fun gone => absurd twice gone
  · rw [current_iff_of_one current others fun l' b _ => setAppenders_fits l l' b _]
    simp only [delAppender, setAppenders_sole l _ a twice, setAppenders_fits, Careful]
    exact ⟨fun one _ => one, fun careful => careful twice⟩

theorem clearAppenders_current : (s.clearAppenders l).Current → s.Careful (.clearAppenders l) := by
  intro after kept a sole
  exact (setAppenders_fits l kept a _).mp (after kept a ((setAppenders_sole l kept a List.not_mem_nil).mpr sole))

theorem current_clearAppenders (careful : s.Careful (.clearAppenders l)) : (s.clearAppenders l).Current := by
  intro kept a sole
  exact (setAppenders_fits l kept a _).mpr (careful kept a ((setAppenders_sole l kept a List.not_mem_nil).mp sole))

end removing

section setting
variable (l : LoggerPtr) (a : AppenderPtr) (val : Option LogFormatter)

theorem setFormatter_holds (l' : LoggerPtr) : (s.setFormatter l val).Holds l' a ↔ s.Holds l' a := by
  unfold Holds
  rw [setFormatter_logger]
  obtain rfl | other := eq_or_ne l' l
  · simp
  · simp [other]

theorem setFormatter_sole (l' : LoggerPtr) : (s.setFormatter l val).Sole l' a ↔ s.Sole l' a := by
  simp only [Sole, setFormatter_holds]

theorem setFormatter_fits_self (held : s.Holds l a) :
    (s.setFormatter l val).Fits l a ↔ (s.appender a).hasFormatter = true ∨ val.isSome = true := by
  unfold Fits
  rw [setFormatter_logger, setFormatter_appender]
  cases own : (s.appender a).hasFormatter with
  | true => simp [own]
  | false => simp [own, show a ∈ (s.logger l).appenders from held]

theorem setFormatter_fits_of_not_holds {l' : LoggerPtr} (distinct : l' ≠ l) (free : ¬ s.Holds l a) :
    (s.setFormatter l val).Fits l' a ↔ s.Fits l' a := by
  unfold Fits
  rw [setFormatter_logger, setFormatter_appender]
  simp [distinct, show a ∉ (s.logger l).appenders from free]

theorem setFormatter_current (current : s.Current) :
    (s.setFormatter l val).Current ↔ s.Careful (.setFormatter l val) := by
  constructor
  · rintro after rfl a sole
    have fits := after l a ((setFormatter_sole l a none l).mpr sole)
    simpa using (setFormatter_fits_self l a none sole.1).mp fits
  · intro careful l' a sole
    rw [setFormatter_sole] at sole
    obtain rfl | distinct := eq_or_ne l' l
    · refine (setFormatter_fits_self l' a val sole.1).mpr ?_
      cases val with
      | none => exact .inl (careful rfl a sole)
      | some val => exact .inr rfl
    · have free : ¬ s.Holds l a := fun held => distinct (sole.2 l held).symm
      exact (setFormatter_fits_of_not_holds l a val distinct free).mpr (current l' a sole)

theorem setAppenderFormatter_current (current : s.Current) :
    (s.setAppenderFormatter a val).Current ↔ s.Careful (.setAppenderFormatter a val) := by
  have fits (l : LoggerPtr) (b : AppenderPtr) (other : b ≠ a) :
      (s.setAppenderFormatter a val).Fits l b ↔ s.Fits l b := by
    simp [Fits, setAppenderFormatter, setAppender_of_ne s _ other]
  have holds (l : LoggerPtr) (b : AppenderPtr) : (s.setAppenderFormatter a val).Holds l b ↔ s.Holds l b := .rfl
  rw [current_iff_of_one current (fun l b _ => holds l b) fits]
  have sole (l : LoggerPtr) : (s.setAppenderFormatter a val).Sole l a ↔ s.Sole l a := .rfl
  have here (l : LoggerPtr) : (s.setAppenderFormatter a val).Fits l a ↔ val ≠ none := by
    cases val with
    | none => cases copy : (s.logger l).formatter <;> simp [Fits, setAppenderFormatter, copy]
    | some val => simp [Fits, setAppenderFormatter]
  simp only [sole, here, Careful]
  exact ⟨fun one absent l sole => one l sole absent, fun careful l sole absent => careful absent l sole⟩

end setting

/-- An operation keeps the copies current exactly when it is careful. -/
theorem apply_current_iff (current : s.Current) (op : ObjectOp) : (s.apply op).Current ↔ s.Careful op := by
  cases op with
  | addAppender l a => exact addAppender_current l a current
  | delAppender l a => exact delAppender_current l a current
  | clearAppenders l => exact ⟨clearAppenders_current l, current_clearAppenders l⟩
  | setFormatter l val => exact setFormatter_current l val current
  | setPattern l val =>
    refine iff_of_true ?_ trivial
    unfold apply setPattern
    dsimp only
    split
    next => exact current
    next => exact (setFormatter_current l _ current).mpr nofun
  | setLevel l level =>
    refine iff_of_true ((current_congr (fun l' b => ?_) fun l' b => ?_).mpr current) trivial
    · unfold Holds
      obtain rfl | other := eq_or_ne l' l <;> simp [apply, *, setLogger_of_ne]
    · unfold Fits
      obtain rfl | other := eq_or_ne l' l <;> simp [apply, *, setLogger_of_ne]
  | setAppenderFormatter a val => exact setAppenderFormatter_current a val current
  | setAppenderLevel a level =>
    have holds (l : LoggerPtr) (b : AppenderPtr) : (s.apply (.setAppenderLevel a level)).Holds l b ↔ s.Holds l b := .rfl
    refine iff_of_true ((current_congr holds fun l b => ?_).mpr current) trivial
    unfold Fits
    obtain rfl | other := eq_or_ne b a <;> simp [apply, *, setAppender_of_ne]

end Objects

/-- The objects, and the formatter that each appender was last given for itself. -/
structure Attachments where
  objects : Objects
  own : AppenderPtr → Option LogFormatter

namespace Attachments

def step (t : Attachments) (op : ObjectOp) : Attachments :=
  { objects := t.objects.apply op
    own := match op with
      | .setAppenderFormatter a val => Function.update t.own a val
      | _ => t.own }

def system : System Attachments ObjectOp where
  start t := t.objects.Fresh ∧ t.own = fun _ => none
  step t op := some (t.step op)

def Careful (t : Attachments) (op : ObjectOp) : Prop := t.objects.Careful op

/-- An appender of a single logger logs with its own formatter, or else with the logger's. -/
def InStep (t : Attachments) : Prop :=
  ∀ l a, t.objects.Sole l a → ∃ formatter, (t.objects.appender a).formatter = some formatter ∧
    if (t.objects.appender a).hasFormatter then t.own a = some formatter
    else (t.objects.logger l).formatter = some formatter

/-- `m_hasFormatter` says whether there is an own formatter, and then it is the one that is kept. -/
def Owned (t : Attachments) : Prop :=
  ∀ a, (t.objects.appender a).hasFormatter = (t.own a).isSome ∧
    ((t.own a).isSome = true → (t.objects.appender a).formatter = t.own a)

variable {t : Attachments}

theorem inStep_iff_current (owned : t.Owned) : t.InStep ↔ t.objects.Current := by
  refine forall₃_congr fun l a _ => ?_
  obtain ⟨flag, kept⟩ := owned a
  unfold Objects.Fits
  cases mine : t.own a with
  | some formatter =>
    rw [mine] at flag kept
    simp [flag, kept]
  | none =>
    rw [mine] at flag
    cases theirs : (t.objects.logger l).formatter <;> simp [flag]

/-- The operations on loggers leave appenders with a formatter of their own alone. -/
theorem apply_appender_of_own {s : Objects} {op : ObjectOp} {a : AppenderPtr}
    (others : ∀ val, op ≠ .setAppenderFormatter a val) :
    ((s.apply op).appender a).hasFormatter = (s.appender a).hasFormatter ∧
      ((s.appender a).hasFormatter = true → (s.appender a).formatter ≠ none →
        ((s.apply op).appender a).formatter = (s.appender a).formatter) := by
  have written (l : LoggerPtr) (val : Option LogFormatter) :
      ((s.setFormatter l val).appender a).hasFormatter = (s.appender a).hasFormatter ∧
        ((s.appender a).hasFormatter = true →
          ((s.setFormatter l val).appender a).formatter = (s.appender a).formatter) := by
    rw [Objects.setFormatter_appender]
    split
    next inherits => exact ⟨rfl, fun own => absurd own (by simp [inherits.2])⟩
    next => exact ⟨rfl, fun _ => rfl⟩
  cases op with
  | addAppender l b =>
    refine ⟨Objects.addAppender_hasFormatter l b a, fun _ present => ?_⟩
    simp [Objects.apply, Objects.addAppender_appender, present]
  | delAppender l b => exact ⟨rfl, fun _ _ => rfl⟩
  | clearAppenders l => exact ⟨rfl, fun _ _ => rfl⟩
  | setFormatter l val => exact (written l val).imp_right fun kept own _ => kept own
  | setPattern l val =>
    unfold Objects.apply Objects.setPattern
    dsimp only
    split
    next => exact ⟨rfl, fun _ _ => rfl⟩
    next => exact (written l _).imp_right fun kept own _ => kept own
  | setLevel l level => exact ⟨rfl, fun _ _ => rfl⟩
  | setAppenderFormatter b val =>
    have other : a ≠ b := fun same => others val (by rw [same])
    simp [Objects.apply, Objects.setAppenderFormatter, Objects.setAppender_of_ne s _ other]
  | setAppenderLevel b level => obtain rfl | other := eq_or_ne a b <;> simp [Objects.apply, *, Objects.setAppender_of_ne]

theorem step_own {op : ObjectOp} {a : AppenderPtr} (others : ∀ val, op ≠ .setAppenderFormatter a val) :
    (t.step op).own a = t.own a := by
  cases op with
  | setAppenderFormatter b val => exact Function.update_of_ne (fun same => others val (by rw [same])) ..
  | _ => rfl

theorem Owned.step (owned : t.Owned) (op : ObjectOp) : (t.step op).Owned := by
  intro a
  by_cases here : ∃ val, op = .setAppenderFormatter a val
  · obtain ⟨val, rfl⟩ := here
    simp [Attachments.step, Objects.apply, Objects.setAppenderFormatter]
  · have others : ∀ val, op ≠ .setAppenderFormatter a val := fun val same => here ⟨val, same⟩
    obtain ⟨flag, kept⟩ := owned a
    obtain ⟨flag', kept'⟩ := apply_appender_of_own (s := t.objects) others
    rw [step_own others]
    refine ⟨flag'.trans flag, fun mine => ?_⟩
    have present : (t.objects.appender a).formatter ≠ none := by
      rw [kept mine]
      exact Option.isSome_iff_ne_none.mp mine
    exact (kept' (flag.trans mine) present).trans (kept mine)

theorem owned_of_reaches {allowed : Attachments → ObjectOp → Prop} (reached : system.Reaches allowed t) : t.Owned := by
  refine reached.invariant (fun t begins a => ?_) fun t op next owned _ stepped => ?_
  · obtain ⟨fresh, none⟩ := begins
    simp [none, (fresh.appender a).1]
  · cases stepped
    exact owned.step op

theorem start_inStep (begins : system.start t) : t.InStep := by
  intro l a sole
  have held := sole.1
  rw [Objects.Holds, begins.1.logger] at held
  cases held

/-- A step keeps all appenders in step exactly when it is careful. -/
theorem step_inStep_iff {allowed : Attachments → ObjectOp → Prop} (reached : system.Reaches allowed t)
    (inStep : t.InStep) (op : ObjectOp) : (t.step op).InStep ↔ t.Careful op := by
  have owned := owned_of_reaches reached
  rw [inStep_iff_current (owned.step op)]
  exact Objects.apply_current_iff ((inStep_iff_current owned).mp inStep) op

/-- While all operations are careful, every appender of a single logger logs with the formatter it should. -/
theorem careful_inStep (reached : system.Reaches Careful t) : t.InStep := by
  refine reached.invariant_of (fun t reached => reached) (fun t => start_inStep)
    fun t op next before inStep careful stepped => ?_
  cases stepped
  exact (step_inStep_iff before inStep op).mpr careful

def initial : Attachments := ⟨.initial, fun _ => none⟩

theorem initial_start : system.start initial := ⟨Objects.initial_fresh, rfl⟩

def run (ops : List ObjectOp) : Attachments := ops.foldl step initial

/-- Two loggers share it once it has a formatter of its own, and the first gives it up. -/
def handedOver : Attachments :=
  run [.addAppender 0 0, .setAppenderFormatter 0 (some (.init "%m".toList)), .addAppender 1 0, .delAppender 0 0]

theorem careful_inStep_handedOver : handedOver.InStep := by
  have first : initial.Careful (.addAppender 0 0) := fun _ => .inr ⟨rfl, .inl rfl⟩
  have second : (run [.addAppender 0 0]).Careful (.setAppenderFormatter 0 (some (.init "%m".toList))) :=
    fun absent => nomatch absent
  have third : (run [.addAppender 0 0, .setAppenderFormatter 0 (some (.init "%m".toList))]).Careful (.addAppender 1 0) :=
    fun _ => .inl rfl
  have fourth : (run [.addAppender 0 0, .setAppenderFormatter 0 (some (.init "%m".toList)), .addAppender 1 0]).Careful
      (.delAppender 0 0) := fun _ _ _ => .inl rfl
  exact careful_inStep (.step (.step (.step (.step (.start initial_start) first rfl) second rfl) third rfl) fourth rfl)

theorem run_reaches (ops : List ObjectOp) : system.Reaches (fun _ _ => True) (run ops) := by
  unfold run
  have begins : system.Reaches (fun _ _ => True) initial := .start initial_start
  generalize initial = t at begins ⊢
  induction ops generalizing t with
  | nil => exact begins
  | cons op rest ih => exact ih (t.step op) (.step begins trivial rfl)

/-- Its own formatter is taken away while it is attached. -/
def withdrawn : Attachments :=
  run [.addAppender 0 0, .setAppenderFormatter 0 (some (.init "%m".toList)), .setAppenderFormatter 0 none]

/-- It goes from one logger to another, of a different format. -/
def moved : Attachments :=
  run [.setFormatter 1 (some (.init "%m".toList)), .addAppender 0 0, .delAppender 0 0, .addAppender 1 0]

/-- The first appender logs through null; the second in the format of the logger it has left. -/
theorem copy_out_of_step :
    (system.Reaches (fun _ _ => True) withdrawn ∧ withdrawn.objects.Sole 0 0 ∧
      (withdrawn.objects.appender 0).formatter = none ∧ ¬ withdrawn.InStep) ∧
    (system.Reaches (fun _ _ => True) moved ∧ moved.objects.Sole 1 0 ∧
      (moved.objects.appender 0).formatter = (moved.objects.logger 0).formatter ∧ ¬ moved.InStep) := by
  have sole : withdrawn.objects.Sole 0 0 := by
    refine ⟨by decide, fun other held => ?_⟩
    by_contra distinct
    simp [withdrawn, run, step, initial, Objects.initial, Objects.Holds, Objects.apply, Objects.addAppender_logger,
      Objects.setAppenderFormatter, Function.update_of_ne distinct, LoggerObject.create] at held
  have sole' : moved.objects.Sole 1 0 := by
    refine ⟨by decide, fun other held => ?_⟩
    by_contra distinct
    obtain rfl | beside := eq_or_ne other 0
    · exact absurd held (by decide)
    · simp [moved, run, step, initial, Objects.initial, Objects.Holds, Objects.apply, Objects.addAppender_logger,
        Objects.delAppender, Objects.setFormatter_logger, Objects.setLogger_of_ne _ _ beside,
        Function.update_of_ne distinct, Function.update_of_ne beside, LoggerObject.create] at held
  refine ⟨⟨run_reaches _, sole, rfl, fun inStep => ?_⟩, ⟨run_reaches _, sole', rfl, fun inStep => ?_⟩⟩
  · obtain ⟨formatter, kept, -⟩ := inStep 0 0 sole
    cases kept
  · obtain ⟨formatter, kept, own⟩ := inStep 1 0 sole'
    -- The two formatters differ in their patterns.
    have stale : (moved.objects.appender 0).formatter.map LogFormatter.pattern ≠
        (moved.objects.logger 1).formatter.map LogFormatter.pattern := by decide
    exact stale (congrArg _ (kept.trans own.symm))

end Attachments
end HpsSf.Log
