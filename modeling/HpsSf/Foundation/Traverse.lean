import Mathlib.Data.List.Forall2
import Mathlib.Data.Option.Basic

/-! Loops over a list whose passes may fail. -/

set_option autoImplicit false

namespace HpsSf.Foundation

variable {A B : Type} {f : A → Option B}

/-- The loop succeeds when every pass does, and gives the results in order. -/
theorem mapM_eq_some_iff {values : List A} {results : List B} :
    values.mapM f = some results ↔ List.Forall₂ (fun value result => f value = some result) values results := by
  induction values generalizing results with
  | nil => simp [eq_comm]
  | cons value rest ih =>
    rw [List.mapM_cons, List.forall₂_cons_left_iff]
    constructor
    · intro all
      obtain ⟨first, passed, all⟩ := Option.bind_eq_some_iff.mp all
      obtain ⟨later, others, same⟩ := Option.bind_eq_some_iff.mp all
      exact ⟨first, later, passed, ih.mp others, (Option.some.inj same).symm⟩
    · rintro ⟨first, later, passed, others, rfl⟩
      rw [passed, ih.mpr others]
      rfl

/-- A loop whose passes give their values back. -/
theorem mapM_eq_self_iff {f : A → Option A} {values : List A} :
    values.mapM f = some values ↔ ∀ value ∈ values, f value = some value := by
  rw [mapM_eq_some_iff, List.forall₂_same]

/-- A loop in which nothing is thrown. -/
theorem mapM_eq_ok {E : Type} {f : A → Except E B} {g : A → B} {values : List A}
    (each : ∀ value ∈ values, f value = .ok (g value)) : values.mapM f = .ok (values.map g) := by
  induction values with
  | nil => rfl
  | cons value rest ih =>
    rw [List.mapM_cons, each value (List.mem_cons_self ..), ih fun other member => each other (List.mem_cons_of_mem _ member)]
    rfl

/-- Two loops in a row fail and succeed as one loop with both passes. -/
theorem mapM_bind_mapM {C : Type} {g : B → Option C} (values : List A) :
    (values.mapM f).bind (fun results => results.mapM g) = values.mapM fun value => (f value).bind g := by
  induction values with
  | nil => rfl
  | cons value rest ih =>
    rw [List.mapM_cons, List.mapM_cons, ← ih]
    cases f value with
    | none => rfl
    | some first =>
      cases others : rest.mapM f with
      | none => cases seen : g first <;> simp [seen]
      | some later => simp [List.mapM_cons]

/-- Two lists that are related both ways are related at every element. -/
theorem exists_of_forall₂_both {R : A → B → Prop} {S : B → A → Prop} {first : List A} {second : List B}
    (forth : List.Forall₂ R first second) (back : List.Forall₂ S second first) {x : A} (member : x ∈ first) :
    ∃ y, R x y ∧ S y x := by
  induction forth with
  | nil => cases member
  | cons related _ ih =>
    cases back with
    | cons returned rest =>
      obtain rfl | later := List.mem_cons.mp member
      · exact ⟨_, related, returned⟩
      · exact ih rest later

theorem exists_of_forall₂_right {R : A → B → Prop} {first : List A} {second : List B}
    (related : List.Forall₂ R first second) {y : B} (member : y ∈ second) : ∃ x ∈ first, R x y := by
  induction related with
  | nil => cases member
  | cons here _ ih =>
    obtain rfl | later := List.mem_cons.mp member
    · exact ⟨_, List.mem_cons_self .., here⟩
    · obtain ⟨x, member, there⟩ := ih later
      exact ⟨x, List.mem_cons_of_mem _ member, there⟩

/-- A container is taken apart into elements and assembled from elements. -/
structure Parts (V E : Type) where
  elements : V → List E
  assemble : List E → V
  whole : ∀ v, assemble (elements v) = v
  /-- Assembling invents nothing. -/
  inside : ∀ parts, ∀ x ∈ elements (assemble parts), x ∈ parts

namespace Parts
variable {V E : Type} (parts : Parts V E) {pass : E → Option E} {v w : V}

/-- The container that is assembled from what comes back of the elements. -/
def passed (pass : E → Option E) (v : V) : Option V := ((parts.elements v).mapM pass).map parts.assemble

theorem passed_self (each : ∀ x ∈ parts.elements v, pass x = some x) : parts.passed pass v = some v := by
  rw [passed, mapM_eq_self_iff.mpr each, Option.map_some, parts.whole]

/-- Every element of what comes back is what comes back of some element. -/
theorem mem_passed (result : parts.passed pass v = some w) {y : E} (member : y ∈ parts.elements w) :
    ∃ x ∈ parts.elements v, pass x = some y := by
  obtain ⟨results, through, rfl⟩ := Option.map_eq_some_iff.mp result
  exact exists_of_forall₂_right (mapM_eq_some_iff.mp through) (parts.inside results y member)

theorem passed_again (again : ∀ x y, pass x = some y → pass y = some y) (result : parts.passed pass v = some w) :
    parts.passed pass w = some w := by
  refine parts.passed_self fun y member => ?_
  obtain ⟨x, -, same⟩ := parts.mem_passed result member
  exact again x y same

end Parts

end HpsSf.Foundation
