import HpsSf.Config.Load

/-! `fromString` of a variable whose listeners may throw.

The listeners are called before the assignment, so one that throws keeps the
value from changing after others have been told of it. There is no `return true`:
the caller hears of a failure whatever has happened.
-/

set_option autoImplicit false

namespace HpsSf.Config
open Foundation (Text)

variable {V C : Type}

/-- What a conversion or a listener throws. -/
inductive Thrown where
  /-- A `std::exception`. -/
  | exception
  | other
  deriving DecidableEq, Repr

/-- What a call leaves behind, whom it told, and how it came back. -/
structure Attempt (V C R : Type) where
  var : ConfigVar V C
  told : List (Notification V C)
  result : Except Thrown R

/-- The calls of the listeners, up to the first one that throws. -/
def callAll (throws : C → V → V → Option Thrown) (old new : V) :
    List (Nat × C) → List (Notification V C) × Option Thrown
  | [] => ([], none)
  | listener :: rest =>
      match throws listener.2 old new with
      | some thrown => ([⟨listener, old, new⟩], some thrown)
      | none =>
          let (told, thrown) := callAll throws old new rest
          (⟨listener, old, new⟩ :: told, thrown)

/-- Either no listener throws and all are called, or those up to the first that throws. -/
theorem callAll_cases (throws : C → V → V → Option Thrown) (old new : V) (cbs : List (Nat × C)) :
    ((∀ listener ∈ cbs, throws listener.2 old new = none) ∧
      callAll throws old new cbs = (cbs.map fun listener => ⟨listener, old, new⟩, none)) ∨
    ∃ front listener rest thrown, cbs = front ++ listener :: rest ∧ throws listener.2 old new = some thrown ∧
      callAll throws old new cbs = ((front ++ [listener]).map fun listener => ⟨listener, old, new⟩, some thrown) := by
  induction cbs with
  | nil => exact .inl ⟨nofun, rfl⟩
  | cons first rest ih =>
    rw [callAll]
    cases threw : throws first.2 old new with
    | some thrown => exact .inr ⟨[], first, rest, thrown, rfl, threw, rfl⟩
    | none =>
      obtain ⟨quiet, called⟩ | ⟨front, listener, behind, thrown, rfl, threw', called⟩ := ih
      · exact .inl ⟨List.forall_mem_cons.mpr ⟨threw, quiet⟩, by simp [called]⟩
      · exact .inr ⟨first :: front, listener, behind, thrown, rfl, threw', by simp [called]⟩

variable [DecidableEq V]

namespace ConfigVar

/-- `setValue` where listeners may throw. -/
def trySetValue (throws : C → V → V → Option Thrown) (var : ConfigVar V C) (v : V) : Attempt V C Unit :=
  if v = var.val then ⟨var, [], .ok ()⟩
  else
    match callAll throws var.val v var.cbs with
    | (told, none) => ⟨var.assign v, told, .ok ()⟩
    -- The assignment is behind the loop.
    | (told, some thrown) => ⟨var, told, .error thrown⟩

def fromString (fromStr : Text → Except Thrown V) (throws : C → V → V → Option Thrown) (var : ConfigVar V C)
    (val : Text) : Attempt V C Bool :=
  let body : Attempt V C Unit :=
    match fromStr val with
    | .error thrown => ⟨var, [], .error thrown⟩
    | .ok v => var.trySetValue throws v
  { var := body.var
    told := body.told
    result :=
      match body.result with
      | .error .other => .error .other
      | .error .exception => .ok false
      -- The end of the `try` block leads to the same `return false`.
      | .ok () => .ok false }

end ConfigVar

/-! ## What must come of it -/

section
variable (fromStr : Text → Except Thrown V) (before : ConfigVar V C) (val : Text) (after : Attempt V C Bool)

/-- The variable holds the converted value, and a change has been told to every listener. -/
def Converted : Prop :=
  ∃ v, fromStr val = .ok v ∧ after.var.val = v ∧
    (v ≠ before.val → after.told = before.cbs.map fun listener => ⟨listener, before.val, v⟩)

structure AllOrNothing : Prop where
  accepted : after.result = .ok true ↔ Converted fromStr before val after
  refused : after.result ≠ .ok true → after.result = .ok false ∧ after.var = before ∧ after.told = []

end

namespace ConfigVar
variable {fromStr : Text → Except Thrown V} {throws : C → V → V → Option Thrown} {var : ConfigVar V C} {v : V}

/-- Where no listener throws, the value is set as ever. -/
theorem trySetValue_quiet (quiet : ∀ listener ∈ var.cbs, throws listener.2 var.val v = none) :
    var.trySetValue throws v = ⟨(var.setValue v).1, (var.setValue v).2, .ok ()⟩ := by
  unfold trySetValue setValue notify
  split
  · rfl
  · obtain ⟨-, called⟩ | ⟨front, listener, rest, thrown, whole, threw, -⟩ := callAll_cases throws var.val v var.cbs
    · rw [called]
    · rw [quiet listener (by simp [whole])] at threw
      cases threw

/-- With listeners that do not throw, this is the `fromString` that loading makes use of. -/
theorem fromString_quiet {setting : Setting V C} {val : Text}
    (quiet : ∀ listener ∈ setting.var.cbs, ∀ v, throws listener.2 setting.var.val v = none) :
    let after := setting.var.fromString (fun text => (setting.fromStr text).elim (.error .exception) .ok) throws val
    (setting.fromString val).1.var = after.var ∧ (setting.fromString val).2 = after.told ∧ after.result = .ok false := by
  simp only [fromString, Setting.fromString]
  cases setting.fromStr val with
  | none => exact ⟨rfl, rfl, rfl⟩
  | some v =>
    simp only [Option.elim_some, trySetValue_quiet fun listener member => quiet listener member v]
    exact ⟨trivial, trivial, trivial⟩

/-- The caller never hears of a success. -/
theorem fromString_result (fromStr : Text → Except Thrown V) (throws : C → V → V → Option Thrown)
    (var : ConfigVar V C) (val : Text) : (var.fromString fromStr throws val).result ≠ .ok true := by
  unfold fromString
  dsimp only
  split <;> exact nofun

/-- `fromString` is all or nothing on exactly the strings whose conversion fails with a
`std::exception`, whatever listeners there are. -/
theorem all_or_nothing_iff (fromStr : Text → Except Thrown V) (throws : C → V → V → Option Thrown)
    (var : ConfigVar V C) (val : Text) :
    AllOrNothing fromStr var val (var.fromString fromStr throws val) ↔ fromStr val = .error .exception := by
  have never := fromString_result fromStr throws var val
  constructor
  · rintro ⟨accepted, refused⟩
    obtain ⟨result, kept, told⟩ := refused never
    have unconverted := mt accepted.mpr never
    cases converted : fromStr val with
    | error thrown =>
      cases thrown with
      | exception => rfl
      | other => simp [fromString, converted] at result
    | ok v =>
      exfalso
      by_cases same : v = var.val
      · exact unconverted ⟨v, converted, by simp [fromString, converted, trySetValue, same], fun other => absurd same other⟩
      obtain ⟨-, called⟩ | ⟨front, listener, rest, thrown, -, -, called⟩ := callAll_cases throws var.val v var.cbs
      · have changed : (var.fromString fromStr throws val).var.val = v := by
          simp [fromString, converted, trySetValue, same, called, assign]
        exact same (by rw [← changed, kept])
      · -- The listener that throws has been called itself.
        simp [fromString, converted, trySetValue, same, called] at told
  · intro failed
    have outcome : var.fromString fromStr throws val = ⟨var, [], .ok false⟩ := by simp [fromString, failed]
    rw [outcome]
    refine ⟨⟨by simp, ?_⟩, fun _ => ⟨rfl, rfl, rfl⟩⟩
    rintro ⟨v, converted, -⟩
    cases converted.symm.trans failed

/-- A variable with two listeners. -/
def twoListeners : ConfigVar Nat String := ⟨0, [(1, "first"), (2, "second")], by decide⟩

/-- The value 1 is read, and nobody or the second listener throws. -/
def accepted : Attempt Nat String Bool := twoListeners.fromString (fun _ => .ok 1) (fun _ _ _ => none) []

def interrupted : Attempt Nat String Bool :=
  twoListeners.fromString (fun _ => .ok 1) (fun cb _ _ => if cb = "second" then some .exception else none) []

/-- A success is reported as a failure; and where the second listener throws, both have
been told of a change that does not take place. -/
theorem success_reported_as_failure :
    (accepted.var.val = 1 ∧ accepted.result = .ok false ∧ ¬ AllOrNothing (fun _ => .ok 1) twoListeners [] accepted) ∧
    interrupted.var.val = 0 ∧ interrupted.result = .ok false ∧
      interrupted.told = [⟨(1, "first"), 0, 1⟩, ⟨(2, "second"), 0, 1⟩] ∧
      ¬ AllOrNothing (fun _ => .ok 1) twoListeners [] interrupted := by
  refine ⟨⟨rfl, rfl, ?_⟩, rfl, rfl, by decide, ?_⟩
  · rintro ⟨-, refused⟩
    exact absurd (congrArg ConfigVar.val (refused nofun).2.1) (by decide)
  · rintro ⟨-, refused⟩
    exact absurd (refused nofun).2.2 (by decide)

end ConfigVar
end HpsSf.Config
