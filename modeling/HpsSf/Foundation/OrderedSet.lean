import Mathlib.Data.List.Nodup
import Mathlib.Logic.Function.Basic

/-! Sets ordered by a key of their elements, as sorted lists. -/

set_option autoImplicit false

namespace HpsSf.Foundation

variable {A K : Type} [LT K]

/-- `std::set` with `operator<` on a key: no two elements have the same key. -/
structure OrderedSet (key : A → K) where
  elements : List A
  sorted : elements.Pairwise fun x y => key x < key y

namespace OrderedSet

variable {key : A → K}

def empty : OrderedSet key := ⟨[], .nil⟩

@[ext] theorem ext {first second : OrderedSet key} (same : first.elements = second.elements) : first = second := by
  cases first
  cases second
  cases same
  rfl

variable [DecidableLT K]

/-- The place of a new element; an element with its key stays as it is. -/
def insertInto (key : A → K) (x : A) : List A → List A
  | [] => [x]
  | y :: rest =>
    if key x < key y then x :: y :: rest
    else if key y < key x then y :: insertInto key x rest
    else y :: rest

theorem mem_insertInto {x z : A} {elements : List A} (member : z ∈ insertInto key x elements) :
    z = x ∨ z ∈ elements := by
  induction elements with
  | nil => exact Or.inl (List.mem_singleton.mp member)
  | cons y rest ih =>
    rw [insertInto] at member
    split at member
    · exact List.mem_cons.mp member
    split at member
    · obtain rfl | later := List.mem_cons.mp member
      · exact Or.inr (List.mem_cons_self ..)
      · exact (ih later).imp id (List.mem_cons_of_mem _)
    · exact Or.inr member

theorem mem_insertInto_of_mem {x z : A} {elements : List A} (member : z ∈ elements) : z ∈ insertInto key x elements := by
  induction elements with
  | nil => cases member
  | cons y rest ih =>
    rw [insertInto]
    split
    · exact List.mem_cons_of_mem _ member
    split
    · obtain rfl | later := List.mem_cons.mp member
      · exact List.mem_cons_self ..
      · exact List.mem_cons_of_mem _ (ih later)
    · exact member

/-- An element whose key is new is put in. -/
theorem mem_insertInto_self [Std.Trichotomous (α := K) (· < ·)] {x : A} {elements : List A}
    (absent : ∀ y ∈ elements, key y ≠ key x) : x ∈ insertInto key x elements := by
  induction elements with
  | nil => exact List.mem_singleton_self x
  | cons y rest ih =>
    obtain ⟨other, absent⟩ := List.forall_mem_cons.mp absent
    rw [insertInto]
    split
    · exact List.mem_cons_self ..
    next notBelow =>
      split
      · exact List.mem_cons_of_mem _ (ih absent)
      next notAbove => exact absurd (Std.Trichotomous.trichotomous _ _ notAbove notBelow) other

section Order

variable [Trans (α := K) (β := K) (γ := K) (· < ·) (· < ·) (· < ·)]

theorem sorted_insertInto (x : A) {elements : List A} (sorted : elements.Pairwise fun x y => key x < key y) :
    (insertInto key x elements).Pairwise fun x y => key x < key y := by
  induction elements with
  | nil => exact List.pairwise_singleton _ x
  | cons y rest ih =>
    obtain ⟨first, later⟩ := List.pairwise_cons.mp sorted
    rw [insertInto]
    split
    next before =>
      refine List.pairwise_cons.mpr ⟨fun z member => ?_, sorted⟩
      obtain rfl | behind := List.mem_cons.mp member
      · exact before
      · exact Trans.trans before (first z behind)
    split
    next after =>
      refine List.pairwise_cons.mpr ⟨fun z member => ?_, ih later⟩
      obtain rfl | behind := mem_insertInto member
      · exact after
      · exact first z behind
    · exact sorted

/-- `std::set::insert` -/
def insert (set : OrderedSet key) (x : A) : OrderedSet key :=
  ⟨insertInto key x set.elements, sorted_insertInto x set.sorted⟩

variable [Std.Irrefl (α := K) (· < ·)]

theorem insertInto_last {x : A} {elements : List A} (greatest : ∀ y ∈ elements, key y < key x) :
    insertInto key x elements = elements ++ [x] := by
  induction elements with
  | nil => rfl
  | cons y rest ih =>
    have below := greatest y (List.mem_cons_self ..)
    have above : ¬ key x < key y := fun above => Std.Irrefl.irrefl _ (Trans.trans below above : key y < key y)
    rw [insertInto, if_neg above, if_pos below, ih fun z member => greatest z (List.mem_cons_of_mem _ member)]
    rfl

/-- Elements that come in order are all kept, in that order. -/
theorem foldl_insert (set : OrderedSet key) {later : List A}
    (sorted : (set.elements ++ later).Pairwise fun x y => key x < key y) :
    (later.foldl insert set).elements = set.elements ++ later := by
  induction later generalizing set with
  | nil => exact (List.append_nil _).symm
  | cons x later ih =>
    have greatest : ∀ y ∈ set.elements, key y < key x := fun y member =>
      (List.pairwise_append.mp sorted).2.2 y member x (List.mem_cons_self ..)
    have inserted : (set.insert x).elements = set.elements ++ [x] := insertInto_last greatest
    rw [List.foldl_cons, ih, inserted, List.append_assoc]
    · rfl
    · rw [inserted, List.append_assoc]
      exact sorted

omit [Std.Irrefl (α := K) (· < ·)] in
theorem mem_foldl_insert {later : List A} {set : OrderedSet key} {z : A}
    (member : z ∈ (later.foldl insert set).elements) : z ∈ set.elements ∨ z ∈ later := by
  induction later generalizing set with
  | nil => exact .inl member
  | cons x later ih =>
    obtain before | behind := ih member
    · obtain rfl | old := mem_insertInto before
      · exact .inr (List.mem_cons_self ..)
      · exact .inl old
    · exact .inr (List.mem_cons_of_mem _ behind)

end Order

/-! ## Lookup -/

/-- `std::set::find`: neither key is below the other. -/
def find (set : OrderedSet key) (x : A) : Option A :=
  set.elements.find? fun y => ¬ key y < key x ∧ ¬ key x < key y

variable [Std.Trichotomous (α := K) (· < ·)]

theorem find_some {set : OrderedSet key} {x y : A} (found : set.find x = some y) :
    y ∈ set.elements ∧ key y = key x := by
  have apart := List.find?_some found
  rw [decide_eq_true_iff] at apart
  exact ⟨List.mem_of_find?_eq_some found, Std.Trichotomous.trichotomous _ _ apart.1 apart.2⟩

variable [Std.Irrefl (α := K) (· < ·)]

theorem find_none {set : OrderedSet key} {x : A} : set.find x = none ↔ ∀ y ∈ set.elements, key y ≠ key x := by
  constructor
  · intro missing y member same
    have apart := List.find?_eq_none.mp missing y member
    rw [same, decide_eq_true_iff] at apart
    exact apart ⟨Std.Irrefl.irrefl _, Std.Irrefl.irrefl _⟩
  · intro different
    refine List.find?_eq_none.mpr fun y member apart => different y member ?_
    rw [decide_eq_true_iff] at apart
    exact Std.Trichotomous.trichotomous _ _ apart.1 apart.2

omit [DecidableLT K] [Std.Trichotomous (α := K) (· < ·)] in
/-- Two elements with the same key are one. -/
theorem eq_of_key {set : OrderedSet key} {x y : A} (first : x ∈ set.elements) (second : y ∈ set.elements)
    (same : key x = key y) : x = y := by
  have keys : (set.elements.map key).Pairwise (· < ·) := List.pairwise_map.mpr set.sorted
  have distinct : (set.elements.map key).Nodup := by
    apply keys.imp
    rintro a b below rfl
    exact Std.Irrefl.irrefl a below
  exact List.inj_on_of_nodup_map distinct first second same

/-- An element finds itself. -/
theorem find_self {set : OrderedSet key} {x : A} (member : x ∈ set.elements) : set.find x = some x := by
  cases found : set.find x with
  | none => exact absurd rfl (find_none.mp found x member)
  | some y =>
    obtain ⟨inside, same⟩ := find_some found
    rw [eq_of_key inside member same]

/-! ## Loops that write under the keys -/

section Loops

variable {V : Type} [DecidableEq K]

omit [LT K] [DecidableLT K] [Std.Trichotomous (α := K) (· < ·)] [Std.Irrefl (α := K) (· < ·)] in
/-- A loop leaves what is under other keys. -/
theorem foldl_update_other (write : A → V → V) (elements : List A) (m : K → V) {k : K}
    (other : ∀ x ∈ elements, key x ≠ k) :
    elements.foldl (fun m x => Function.update m (key x) (write x (m (key x)))) m k = m k := by
  induction elements generalizing m with
  | nil => rfl
  | cons x rest ih =>
    rw [List.foldl_cons, ih _ fun y member => other y (List.mem_cons_of_mem _ member),
      Function.update_of_ne (other x (List.mem_cons_self ..)).symm]

omit [DecidableLT K] [Std.Trichotomous (α := K) (· < ·)] in
/-- Every element writes to what was there before the loop. -/
theorem foldl_update_at (write : A → V → V) {elements : List A} (sorted : elements.Pairwise fun x y => key x < key y)
    (m : K → V) {x : A} (member : x ∈ elements) :
    elements.foldl (fun m x => Function.update m (key x) (write x (m (key x)))) m (key x) = write x (m (key x)) := by
  induction elements generalizing m with
  | nil => cases member
  | cons y rest ih =>
    obtain ⟨first, later⟩ := List.pairwise_cons.mp sorted
    have apart : ∀ z ∈ rest, key z ≠ key y := fun z behind same =>
      Std.Irrefl.irrefl _ (same ▸ first z behind : key z < key z)
    rw [List.foldl_cons]
    obtain rfl | behind := List.mem_cons.mp member
    · rw [foldl_update_other write rest _ apart, Function.update_self]
    · rw [ih later _ behind, Function.update_of_ne (apart x behind)]

end Loops

end OrderedSet
end HpsSf.Foundation
