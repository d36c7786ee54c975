import HpsSf.Foundation.Outcome
import HpsSf.IOManager.Growth
import HpsSf.IOManager.Pending

/-! The indices into the table of contexts.

The tests compare the size of the table with a signed descriptor, so a negative
one passes them all. Beyond the table `addEvent` resizes it, and the size may not
be a number of the type that it is narrowed to.
-/

set_option autoImplicit false

namespace HpsSf.IOManager
open Foundation

variable {S F C T : Type}

/-- An index outside of `m_fdContexts`, or a negative size of it. -/
def Fault.ofTable : Fault → Bool
  | .outOfBounds | .lengthError => true
  | _ => false

def InBounds {A : Type} (result : Except Fault A) : Prop := ∀ fault, result = .error fault → fault.ofTable = false

namespace Registry

/-- Every slot holds a context, which has the index for its descriptor. -/
structure Slotted (registry : Registry S F C) : Prop where
  slot : ∀ (i id : Nat), registry.fdContexts[i]? = some id →
    ∃ ctx, registry.contexts[id]? = some ctx ∧ ctx.fd = i
  least : 32 ≤ registry.fdContexts.length
  small : registry.fdContexts.length < 2 ^ 31

/-- There is no slot for the descriptor, and none can be made. -/
def Slotless (registry : Registry S F C) (fd : Int) : Prop :=
  fd < 0 ∨ (registry.fdContexts.length : Int) ≤ fd ∧ 2 ^ 31 ≤ fd * 3 / 2

/-- The call stays inside the table, and refuses a descriptor that cannot have a slot. -/
def Answers (registry : Registry S F C) (ctl : EpollCall → Bool) (call : Call S F C) (fd : Int) : Prop :=
  InBounds (call.on ctl registry) ∧ (registry.Slotless fd → call.on ctl registry = .ok (registry, ⟨[], false⟩))

end Registry

/-- The descriptor is a slot's, or `addEvent` is called with one that a slot can be made for. -/
def Call.Within (registry : Registry S F C) (fd : Int) : Call S F C → Prop
  | .addEvent .. => 0 ≤ fd ∧ (fd < registry.fdContexts.length ∨ fd * 3 / 2 < 2 ^ 31)
  | _ => 0 ≤ fd

/-! ## The sections -/

section Sections

variable {A : Type}

/-- A fault that is not about the table. -/
def Fault.OffTable (fault : Fault) : Prop := fault.ofTable = false

theorem inBounds_iff {result : Except Fault A} : InBounds result ↔ Ensures Fault.OffTable (fun _ => True) result := by
  cases result with
  | ok value => exact iff_of_true nofun trivial
  | error fault => exact ⟨fun inBounds => inBounds fault rfl, fun off _ same => Except.error.inj same ▸ off⟩

theorem inBounds_ok (value : A) : InBounds (.ok value : Except Fault A) := nofun

variable {ctl : EpollCall → Bool} {ctx : FdContext S F C} {pending : Nat}

theorem getContext_offTable (event : Event) : Ensures Fault.OffTable (fun _ => True) (ctx.getContext event) := by
  cases event with
  | none => exact .error rfl
  | read | write => exact .ok trivial

theorem triggerEvent_offTable (event : Event) : Ensures Fault.OffTable (fun _ => True) (ctx.triggerEvent event) := by
  unfold FdContext.triggerEvent
  refine .ite (fun _ => (getContext_offTable event).bind fun slot _ => ?_) fun _ => .error rfl
  cases slot.scheduler with
  | none => exact .error rfl
  | some scheduler => cases slot.cb <;> exact .ok trivial

theorem triggerIf_offTable (mask : Mask) (event : Event) (before : Section S F C Unit) :
    Ensures Fault.OffTable (fun _ => True) (FdContext.triggerIf mask event before) := by
  unfold FdContext.triggerIf
  refine .ite (fun _ => ?_) fun _ => .pure trivial
  exact (triggerEvent_offTable event).bind fun _ _ => .pure trivial

/-- A section does not look at the table. -/
theorem run_offTable (op : Op S F C) : Ensures Fault.OffTable (fun _ => True) (ctx.run ctl pending op) := by
  cases op with
  | addEvent caller fd event cb =>
    have added : Ensures Fault.OffTable (fun _ => True) (ctx.addEvent ctl pending caller fd event cb) := by
      refine .ite (fun _ => .error rfl) fun _ => .ite (fun _ => ?_) fun _ => .pure trivial
      refine (getContext_offTable event).bind fun slot _ => .ite (fun _ => .error rfl) fun _ => ?_
      cases cb with
      | some cb => exact .pure trivial
      | none => exact .ite (fun _ => .pure trivial) fun _ => .error rfl
    exact added.map fun _ _ => trivial
  | delEvent fd event =>
    refine .ite (fun _ => .ite (fun _ => ?_) fun _ => .pure trivial) fun _ => .pure trivial
    exact (getContext_offTable event).bind fun _ _ => .pure trivial
  | cancelEvent fd event =>
    refine .ite (fun _ => .ite (fun _ => ?_) fun _ => .pure trivial) fun _ => .pure trivial
    exact (triggerEvent_offTable event).bind fun _ _ => .pure trivial
  | cancelAll fd =>
    refine .ite (fun _ => .pure trivial) fun _ => .ite (fun _ => ?_) fun _ => .pure trivial
    refine (triggerIf_offTable ..).bind fun first _ => (triggerIf_offTable ..).bind fun last _ => ?_
    exact .ite (fun _ => .pure trivial) fun _ => .error rfl
  | dispatch reported =>
    have dispatched : Ensures Fault.OffTable (fun _ => True) (ctx.dispatch ctl pending reported) := by
      refine .ite (fun _ => .pure trivial) fun _ => .ite (fun _ => ?_) fun _ => .pure trivial
      exact (triggerIf_offTable ..).bind fun first _ => triggerIf_offTable ..
    exact dispatched.map fun _ _ => trivial

end Sections

/-! ## The table -/

namespace Registry

variable {registry next : Registry S F C} {ctl : EpollCall → Bool} {fd : Int}

theorem Slotted.length_int (slotted : registry.Slotted) :
    int32 registry.fdContexts.length = registry.fdContexts.length :=
  int32_of_lt slotted.small

/-- Every test lets a negative descriptor through. -/
theorem Slotted.locate_negative (slotted : registry.Slotted) (negative : fd < 0) :
    registry.locate fd = .error .outOfBounds := by
  rw [locate, slotted.length_int, if_pos (by omega), entry, if_pos negative]
  rfl

theorem Slotted.locate_inside (slotted : registry.Slotted) (nonnegative : 0 ≤ fd)
    (inside : fd < registry.fdContexts.length) :
    ∃ id ctx, registry.locate fd = .ok (some id) ∧ registry.contexts[id]? = some ctx ∧ ctx.fd = fd := by
  have place : fd.toNat < registry.fdContexts.length := by omega
  obtain ⟨ctx, found, numbered⟩ := slotted.slot fd.toNat _ (List.getElem?_eq_getElem place)
  refine ⟨_, ctx, ?_, found, by omega⟩
  rw [locate, slotted.length_int, if_pos inside, entry, if_neg (by omega), List.getElem?_eq_getElem place]
  rfl

theorem Slotted.locate_beyond (slotted : registry.Slotted) (beyond : (registry.fdContexts.length : Int) ≤ fd) :
    registry.locate fd = .ok none := by
  rw [locate, slotted.length_int, if_neg (by omega)]

theorem Slotted.locate_some (slotted : registry.Slotted) {id : Nat} (located : registry.locate fd = .ok (some id)) :
    id < registry.contexts.length := by
  obtain negative | nonnegative := Int.lt_or_le fd 0
  · cases (slotted.locate_negative negative).symm.trans located
  obtain inside | beyond := Int.lt_or_le fd registry.fdContexts.length
  · obtain ⟨id', ctx, same, found, -⟩ := slotted.locate_inside nonnegative inside
    cases same.symm.trans located
    exact (List.getElem?_eq_some_iff.mp found).1
  · cases (slotted.locate_beyond beyond).symm.trans located

theorem Slotted.locate_none (slotted : registry.Slotted) (located : registry.locate fd = .ok none) : 32 ≤ fd := by
  obtain negative | nonnegative := Int.lt_or_le fd 0
  · cases (slotted.locate_negative negative).symm.trans located
  obtain inside | beyond := Int.lt_or_le fd registry.fdContexts.length
  · obtain ⟨id, ctx, same, -⟩ := slotted.locate_inside nonnegative inside
    cases same.symm.trans located
  · have least := slotted.least
    omega

theorem within_inBounds {id : Nat} {ctx : FdContext S F C} (found : registry.contexts[id]? = some ctx) (op : Op S F C) :
    InBounds (registry.within ctl id op) := by
  rw [within, found]
  exact inBounds_iff.mpr ((run_offTable op).map fun _ _ => trivial)

theorem Slotted.within (slotted : registry.Slotted) {id : Nat} {op : Op S F C} {answer : Answer S F C}
    (ran : registry.within ctl id op = .ok (next, answer)) : next.Slotted := by
  obtain ⟨ctx, out, found, effect, rfl, -⟩ := within_ok ran
  have inside := (List.getElem?_eq_some_iff.mp found).1
  refine ⟨fun i other at_place => ?_, slotted.least, slotted.small⟩
  obtain ⟨ctx', found', numbered⟩ := slotted.slot i other at_place
  obtain rfl | apart := eq_or_ne id other
  · cases found.symm.trans found'
    exact ⟨out.ctx, List.getElem?_set_self inside, effect.fd.trans numbered⟩
  · exact ⟨ctx', (List.getElem?_set_ne apart).trans found', numbered⟩

/-- After a growth the table has the size it was given, and all of its slots are filled. -/
theorem Slotted.grow {id : Nat} (slotted : registry.Slotted) (beyond : 32 ≤ fd)
    (grown : registry.grow fd = .ok (next, id)) : next.Slotted ∧ id < next.contexts.length := by
  obtain ⟨kept, fresh, first, last, rfl, entered⟩ := grow_ok grown
  change kept = registry.fdContexts.take (tableSize fd) at first
  change fresh = List.range' kept.length (tableSize fd - kept.length) at last
  have keeps : kept.length ≤ tableSize fd := by
    rw [first, List.length_take]
    omega
  have bound := tableSize_lt fd
  have size : (kept ++ List.range' registry.contexts.length fresh.length).length = tableSize fd := by
    rw [List.length_append, List.length_range', last, List.length_range']
    omega
  have slot (i id : Nat) (at_place : (kept ++ List.range' registry.contexts.length fresh.length)[i]? = some id) :
      ∃ ctx : FdContext S F C, (registry.contexts ++ fresh.map fun i : Nat => FdContext.fresh i)[id]? = some ctx ∧
        ctx.fd = i := by
    rw [List.getElem?_append] at at_place
    split at at_place
    next inside =>
      rw [first, List.getElem?_take] at at_place
      split at at_place
      next =>
        obtain ⟨ctx, found, numbered⟩ := slotted.slot i id at_place
        exact ⟨ctx, (List.getElem?_append_left (List.getElem?_eq_some_iff.mp found).1).trans found, numbered⟩
      next => cases at_place
    next outside =>
      obtain ⟨inside, rfl⟩ := List.getElem?_eq_some_iff.mp at_place
      rw [List.length_range'] at inside
      have created : fresh[i - kept.length]? = some i := by
        rw [last] at inside ⊢
        rw [List.getElem?_range' (by simpa using inside)]
        congr 1
        omega
      refine ⟨FdContext.fresh i, ?_, rfl⟩
      rw [List.getElem_range', List.getElem?_append_right (by omega)]
      simp [created]
  have place : (kept ++ List.range' registry.contexts.length fresh.length)[fd.toNat]? = some id := by
    unfold entry at entered
    split at entered
    next => cases entered
    next =>
      split at entered
      next id' at_place =>
        cases entered
        exact at_place
      next => cases entered
  have room := (List.getElem?_eq_some_iff.mp place).1
  obtain ⟨ctx, found, -⟩ := slot fd.toNat id place
  exact ⟨⟨slot, by dsimp only; omega, by dsimp only; omega⟩, (List.getElem?_eq_some_iff.mp found).1⟩

theorem grow_of_small (beyond : 32 ≤ fd) (small : fd * 3 / 2 < 2 ^ 31) :
    ∃ next id, registry.grow fd = .ok (next, id) := by
  have size : int32 (fd.toNat * 3 / 2) = (fd.toNat * 3 / 2 : Nat) := int32_of_lt (by omega)
  obtain ⟨resized, went, length⟩ : ∃ resized, registry.contextResize (fd.toNat * 3 / 2) = .ok resized ∧
      fd.toNat < resized.fdContexts.length := by
    unfold contextResize
    rw [size, if_neg (by omega)]
    refine ⟨_, rfl, ?_⟩
    simp only [Int.toNat_natCast, List.length_append, List.length_range', List.length_map, List.length_take]
    omega
  refine ⟨resized, resized.fdContexts[fd.toNat], ?_⟩
  have entered : resized.entry fd = .ok resized.fdContexts[fd.toNat] := by
    rw [entry, if_neg (by omega), List.getElem?_eq_getElem length]
  rw [grow, went]
  change (resized.entry fd >>= _) = _
  rw [entered]
  rfl

/-- The size is narrowed to a negative number, which `resize` does not take. -/
theorem grow_of_large (int : fd < 2 ^ 31) (large : 2 ^ 31 ≤ fd * 3 / 2) : registry.grow fd = .error .lengthError := by
  have size : 2 ^ 31 ≤ fd.toNat * 3 / 2 ∧ fd.toNat * 3 / 2 < 2 ^ 32 := by omega
  have negative : int32 (fd.toNat * 3 / 2) < 0 := by
    simp only [int32, BitVec.toInt_eq_toNat_cond, BitVec.toNat_ofNat, Nat.mod_eq_of_lt size.2]
    omega
  rw [grow, contextResize, if_pos negative]
  rfl

theorem Slotted.negative (slotted : registry.Slotted) {call : Call S F C} (on : call.fd = some fd) (negative : fd < 0) :
    call.on ctl registry = .error .outOfBounds := by
  cases call with
  | dispatch => cases on
  | _ =>
    cases on
    simp only [Call.on, addEvent, delEvent, cancelEvent, cancelAll, onKnown, slotted.locate_negative negative]
    rfl

theorem Slotted.inside (slotted : registry.Slotted) {call : Call S F C} (on : call.fd = some fd) (nonnegative : 0 ≤ fd)
    (inside : fd < registry.fdContexts.length) : InBounds (call.on ctl registry) := by
  obtain ⟨id, ctx, located, found, -⟩ := slotted.locate_inside nonnegative inside
  cases call with
  | dispatch => cases on
  | _ =>
    cases on
    simp only [Call.on, addEvent, delEvent, cancelEvent, cancelAll, onKnown, located]
    exact within_inBounds found _

/-- Which calls the table answers, in any state in which its slots are filled. -/
theorem Slotted.answers_iff (slotted : registry.Slotted) {call : Call S F C} (on : call.fd = some fd)
    (int : fd < 2 ^ 31) :
    registry.Answers ctl call fd ↔ call.Within registry fd := by
  obtain negative | nonnegative := Int.lt_or_le fd 0
  · -- A negative descriptor is an index.
    refine iff_of_false (fun answers => ?_) (fun within => ?_)
    · cases answers.1 _ (slotted.negative on negative)
    · cases call <;> simp only [Call.Within] at within <;> omega
  have filled : fd < registry.fdContexts.length → ¬ registry.Slotless fd := by
    unfold Slotless
    omega
  obtain inside | beyond := Int.lt_or_le fd registry.fdContexts.length
  · refine iff_of_true ⟨slotted.inside on nonnegative inside, fun slotless => absurd slotless (filled inside)⟩ ?_
    cases call with
    | addEvent => exact ⟨nonnegative, .inl inside⟩
    | _ => exact nonnegative
  cases call with
  | dispatch => cases on
  | addEvent caller fd' event cb =>
    cases on
    have least := slotted.least
    have grows : (Call.addEvent caller fd event cb).on ctl registry =
        (registry.grow fd >>= fun grown => grown.1.within ctl grown.2 (.addEvent caller fd event cb)) := by
      simp only [Call.on, addEvent, slotted.locate_beyond beyond]
      rfl
    obtain small | large := Int.lt_or_le (fd * 3 / 2) (2 ^ 31)
    · obtain ⟨next, id, grown⟩ := registry.grow_of_small (by omega) small
      have valid := (slotted.grow (by omega) grown).2
      refine iff_of_true ⟨?_, fun slotless => ?_⟩ ⟨nonnegative, .inr small⟩
      · rw [grows, grown]
        exact within_inBounds (List.getElem?_eq_getElem valid) _
      · unfold Slotless at slotless
        omega
    · refine iff_of_false (fun answers => ?_) (fun within => ?_)
      · cases answers.1 .lengthError (by rw [grows, registry.grow_of_large int large]; rfl)
      · simp only [Call.Within] at within
        omega
  | _ =>
    cases on
    have unknown : registry.onKnown ctl fd = fun _ => .ok (registry, ⟨[], false⟩) := by
      funext op
      rw [onKnown, slotted.locate_beyond beyond]
      rfl
    simp only [Answers, Call.on, delEvent, cancelEvent, cancelAll, unknown]
    exact iff_of_true ⟨inBounds_ok _, fun _ => trivial⟩ nonnegative

theorem slotted_initial : (initial : Registry S F C).Slotted := by
  refine ⟨fun i id at_place => ?_, by simp [initial], by simp [initial]⟩
  obtain ⟨inside, rfl⟩ := List.getElem?_eq_some_iff.mp at_place
  have bound : i < 32 := by simpa [initial] using inside
  exact ⟨FdContext.fresh i, by simp [initial, bound], rfl⟩

end Registry

/-! ## Overlapping calls -/

namespace Growing
variable [DecidableEq T]

/-- What a thread in `addEvent` has found out holds on. -/
def Holds (registry : Registry S F C) : Progress S F C → Prop
  | .outside => True
  | .short adding => 32 ≤ adding.fd
  | .found _ id => id < registry.contexts.length

structure Sound (s : Growing S F C T) : Prop where
  slotted : s.registry.Slotted
  threads : ∀ t, Holds s.registry (s.thread t)

theorem Holds.longer {registry next : Registry S F C} {progress : Progress S F C} (holds : Holds registry progress)
    (longer : registry.contexts.length ≤ next.contexts.length) : Holds next progress := by
  cases progress with
  | found adding id => exact Nat.lt_of_lt_of_le holds longer
  | _ => exact holds

theorem Sound.step {s next : Growing S F C T} (sound : s.Sound) {turn : Turn S F C T}
    (stepped : s.step turn = some next) :
    next.Sound := by
  -- One thread goes on with a registry that has at least the contexts of before.
  have goOn {registry : Registry S F C} (slotted : registry.Slotted)
      (longer : s.registry.contexts.length ≤ registry.contexts.length) (t : T) {progress : Progress S F C}
      (holds : Holds registry progress) : ({ s with registry := registry }.setThread t progress).Sound := by
    refine ⟨slotted, fun t' => ?_⟩
    obtain rfl | other := eq_or_ne t' t
    · simpa [setThread] using holds
    · simpa [setThread, other] using (sound.threads t').longer longer
  have sections {ctl : EpollCall → Bool} {registry : Registry S F C} {id : Nat} {op : Op S F C} {answer : Answer S F C}
      (ran : s.registry.within ctl id op = .ok (registry, answer)) :
      registry.Slotted ∧ s.registry.contexts.length ≤ registry.contexts.length := by
    refine ⟨sound.slotted.within ran, ?_⟩
    obtain ⟨ctx, out, -, -, rfl, -⟩ := Registry.within_ok ran
    simp
  cases turn with
  | check t adding =>
    simp only [Growing.step] at stepped
    split at stepped
    next id _ located =>
      cases stepped
      exact goOn sound.slotted (Nat.le_refl _) t (sound.slotted.locate_some located)
    next _ located =>
      cases stepped
      exact goOn sound.slotted (Nat.le_refl _) t (sound.slotted.locate_none located)
    next => cases stepped
  | grow t =>
    simp only [Growing.step] at stepped
    split at stepped
    next adding short =>
      split at stepped
      next registry id grown =>
        cases stepped
        have beyond := sound.threads t
        rw [short] at beyond
        obtain ⟨slotted, valid⟩ := sound.slotted.grow beyond grown
        refine goOn slotted ?_ t valid
        obtain ⟨kept, fresh, -, -, rfl, -⟩ := Registry.grow_ok grown
        simp
      next => cases stepped
    next => cases stepped
  | register t ctl =>
    simp only [Growing.step] at stepped
    split at stepped
    next adding id found =>
      split at stepped
      next registry answer ran =>
        cases stepped
        obtain ⟨slotted, longer⟩ := sections ran
        exact goOn slotted longer t trivial
      next => cases stepped
    next => cases stepped
  | other ctl id op =>
    simp only [Growing.step] at stepped
    split at stepped
    next registry answer ran =>
      cases stepped
      obtain ⟨slotted, longer⟩ := sections ran
      exact ⟨slotted, fun t => (sound.threads t).longer longer⟩
    next => cases stepped

theorem sound_of_reaches {allowed : Growing S F C T → Turn S F C T → Prop} {s : Growing S F C T}
    (reached : (growing S F C T).Reaches allowed s) : s.Sound := by
  refine reached.invariant (fun s begins => ?_) fun s turn next sound _ stepped => sound.step stepped
  rw [show s = ⟨.initial, fun _ => .outside⟩ from begins]
  exact ⟨Registry.slotted_initial, fun _ => trivial⟩

/-- A resize in a call that overlaps with others stays in bounds on the same condition. -/
theorem grow_inBounds_iff {allowed : Growing S F C T → Turn S F C T → Prop} {s : Growing S F C T}
    (reached : (growing S F C T).Reaches allowed s) {t : T} {adding : Adding S F C} (short : s.thread t = .short adding)
    (int : adding.fd < 2 ^ 31) : InBounds (s.registry.grow adding.fd) ↔ adding.fd * 3 / 2 < 2 ^ 31 := by
  have beyond := (sound_of_reaches reached).threads t
  rw [short] at beyond
  obtain small | large := Int.lt_or_le (adding.fd * 3 / 2) (2 ^ 31)
  · obtain ⟨next, id, grown⟩ := s.registry.grow_of_small beyond small
    rw [grown]
    exact iff_of_true (inBounds_ok _) small
  · rw [s.registry.grow_of_large int large]
    exact iff_of_false (fun inBounds => nomatch inBounds _ rfl) (by omega)

/-- In every state the slots are filled, and a call stays inside the table exactly
when it is not for a negative descriptor and needs no table that is too large. -/
theorem call_answers_iff {allowed : Growing S F C T → Turn S F C T → Prop} {s : Growing S F C T}
    (reached : (growing S F C T).Reaches allowed s) (ctl : EpollCall → Bool) {call : Call S F C} {fd : Int}
    (on : call.fd = some fd) (int : fd < 2 ^ 31) :
    s.registry.Slotted ∧ s.registry.Answers ctl call fd ↔ call.Within s.registry fd := by
  have slotted := (sound_of_reaches reached).slotted
  rw [and_iff_right slotted]
  exact slotted.answers_iff on int

theorem call_answers_iff_shrunk :
    ∃ s, (growing Unit Nat Nat (Fin 2)).Reaches (fun _ _ => True) s ∧ s.registry.fdContexts.length = 48 ∧
      s.registry.Slotted ∧ s.registry.Answers (fun _ => true) (.addEvent ⟨some (), 1, true⟩ 60 .read none) 60 := by
  obtain ⟨s, reached, test⟩ := System.reaches_test (growing Unit Nat Nat (Fin 2)) (fun _ _ => True)
    (fun _ _ => true) (fun _ _ _ => trivial) ⟨.initial, fun _ => .outside⟩ rfl largerFirst
    (fun s => s.registry.fdContexts.length = 48) (by decide)
  refine ⟨s, reached, of_decide_eq_true test, ?_⟩
  exact (call_answers_iff reached _ rfl (by decide)).mpr ⟨by decide, .inr (by decide)⟩

/-- All four calls take a negative descriptor for an index, and `addEvent` throws for a large one. -/
theorem negative_descriptor_indexes :
    (growing Unit Nat Nat (Fin 2)).Reaches (fun _ _ => True) ⟨.initial, fun _ => .outside⟩ ∧
    (∀ call ∈ ([.addEvent ⟨some (), 1, true⟩ (-1) .read none, .delEvent (-1) .read, .cancelEvent (-1) .read,
        .cancelAll (-1)] : List (Call Unit Nat Nat)),
      call.on (fun _ => true) .initial = .error .outOfBounds ∧ ¬ Registry.initial.Answers (fun _ => true) call (-1)) ∧
    (Call.addEvent ⟨some (), 1, true⟩ 1431655766 .read none).on (fun _ => true) (.initial : Registry Unit Nat Nat) =
        .error .lengthError ∧
      ¬ (.initial : Registry Unit Nat Nat).Answers (fun _ => true)
        (.addEvent ⟨some (), 1, true⟩ 1431655766 .read none) 1431655766 := by
  refine ⟨.start rfl, fun call member => ?_, by decide, fun answers => ?_⟩
  · have indexed : call.on (fun _ => true) .initial = .error .outOfBounds := by
      revert call
      decide
    exact ⟨indexed, fun answers => nomatch answers.1 _ indexed⟩
  · exact nomatch answers.1 .lengthError (by decide)

end Growing
end HpsSf.IOManager
