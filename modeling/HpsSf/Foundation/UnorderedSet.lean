import Mathlib.Data.List.Nodup
import Mathlib.Data.List.Perm.Subperm

/-! Sets that are hashed by a key of their elements, as lists in some order of iteration. -/

set_option autoImplicit false

namespace HpsSf.Foundation

variable {A K : Type}

/-- `std::unordered_set` with a hash of a key: no two elements have the same key. -/
structure UnorderedSet (key : A → K) where
  elements : List A
  distinct : (elements.map key).Nodup

namespace UnorderedSet

variable {key : A → K}

def empty : UnorderedSet key := ⟨[], .nil⟩

@[ext] theorem ext {first second : UnorderedSet key} (same : first.elements = second.elements) : first = second := by
  cases first
  cases second
  cases same
  rfl

variable [DecidableEq K]

/-- An element with the key of another one is not inserted. Where a new element
goes is left to the table; here it is the end. -/
def insert (set : UnorderedSet key) (x : A) : UnorderedSet key :=
  if present : key x ∈ set.elements.map key then set
  else ⟨set.elements ++ [x], by
    rw [List.map_append]
    exact List.nodup_append.mpr ⟨set.distinct, List.nodup_singleton _, fun k before _ last same =>
      present (List.mem_singleton.mp last ▸ same ▸ before)⟩⟩

theorem mem_insert {set : UnorderedSet key} {x z : A} (member : z ∈ (set.insert x).elements) :
    z = x ∨ z ∈ set.elements := by
  unfold insert at member
  split at member
  · exact .inr member
  · exact (List.mem_append.mp member).symm.imp_left List.mem_singleton.mp

theorem mem_foldl_insert {later : List A} {set : UnorderedSet key} {z : A}
    (member : z ∈ (later.foldl insert set).elements) : z ∈ set.elements ∨ z ∈ later := by
  induction later generalizing set with
  | nil => exact .inl member
  | cons x later ih =>
    obtain before | behind := ih member
    · obtain rfl | old := mem_insert before
      · exact .inr (List.mem_cons_self ..)
      · exact .inl old
    · exact .inr (List.mem_cons_of_mem _ behind)

/-- Distinct elements are all inserted. -/
theorem foldl_insert (set : UnorderedSet key) {later : List A} (distinct : ((set.elements ++ later).map key).Nodup) :
    (later.foldl insert set).elements = set.elements ++ later := by
  induction later generalizing set with
  | nil => exact (List.append_nil _).symm
  | cons x later ih =>
    have absent : key x ∉ set.elements.map key := by
      intro present
      rw [List.map_append, List.map_cons] at distinct
      exact (List.nodup_append.mp distinct).2.2 _ present _ (List.mem_cons_self ..) rfl
    have inserted : (set.insert x).elements = set.elements ++ [x] := by rw [insert, dif_neg absent]
    rw [List.foldl_cons, ih, inserted, List.append_assoc]
    · rfl
    · rw [inserted, List.append_assoc]
      exact distinct

omit [DecidableEq K] in
/-- Where all keys of a set are in another set of the same size, both have the same keys. -/
theorem exists_of_keys {first second : UnorderedSet key}
    (keys : ∀ x ∈ first.elements, ∃ y ∈ second.elements, key y = key x)
    (size : second.elements.length ≤ first.elements.length) {y : A} (member : y ∈ second.elements) :
    ∃ x ∈ first.elements, key x = key y := by
  have subset : first.elements.map key ⊆ second.elements.map key := by
    intro k present
    obtain ⟨x, inside, rfl⟩ := List.mem_map.mp present
    obtain ⟨y, found, same⟩ := keys x inside
    exact same ▸ List.mem_map_of_mem found
  have perm := (List.subperm_of_subset first.distinct subset).perm_of_length_le (by simpa using size)
  exact List.mem_map.mp (perm.mem_iff.mpr (List.mem_map_of_mem member))

end UnorderedSet
end HpsSf.Foundation
