import Mathlib.Algebra.BigOperators.Fin
import Mathlib.Algebra.Order.BigOperators.Group.Finset

/-! Totals over a finite family of parties, one of which takes a step. -/

set_option autoImplicit false

namespace HpsSf.Foundation

variable {ι : Type} [Fintype ι]

/-- Sum of a natural-valued reading over all parties. -/
def tally (reading : ι → Nat) : Nat := ∑ party, reading party

theorem tally_congr {before after : ι → Nat} (same : ∀ party, after party = before party) :
    tally after = tally before :=
  Finset.sum_congr rfl fun party _ => same party

theorem tally_le {before after : ι → Nat} (le : ∀ party, before party ≤ after party) :
    tally before ≤ tally after :=
  Finset.sum_le_sum fun party _ => le party

theorem tally_lt {before after : ι → Nat} (mover : ι) (le : ∀ party, after party ≤ before party)
    (lt : after mover < before mover) : tally after < tally before :=
  Finset.sum_lt_sum (fun party _ => le party) ⟨mover, Finset.mem_univ mover, lt⟩

theorem reading_le_tally (reading : ι → Nat) (party : ι) : reading party ≤ tally reading :=
  Finset.single_le_sum (fun _ _ => Nat.zero_le _) (Finset.mem_univ party)

theorem tally_eq_zero_iff (reading : ι → Nat) : tally reading = 0 ↔ ∀ party, reading party = 0 := by
  simp [tally, Finset.sum_eq_zero_iff]

/-- A reading of at most one per party totals at most the number of parties. -/
theorem tally_le_card (reading : ι → Nat) (small : ∀ party, reading party ≤ 1) :
    tally reading ≤ Fintype.card ι := by
  have bounded := Finset.sum_le_card_nsmul Finset.univ reading 1 fun party _ => small party
  simpa [tally] using bounded

section
variable [DecidableEq ι]

theorem tally_split (reading : ι → Nat) (mover : ι) :
    tally reading = reading mover + ∑ party ∈ Finset.univ.erase mover, reading party :=
  (Finset.add_sum_erase _ reading (Finset.mem_univ mover)).symm

/-- Only the mover's reading changes, so only its difference shows in the total. -/
theorem tally_change (before after : ι → Nat) (mover : ι)
    (others : ∀ party, party ≠ mover → after party = before party) :
    tally after + before mover = tally before + after mover := by
  have rest : ∑ party ∈ Finset.univ.erase mover, after party =
      ∑ party ∈ Finset.univ.erase mover, before party :=
    Finset.sum_congr rfl fun party member => others party (Finset.ne_of_mem_erase member)
  rw [tally_split after mover, tally_split before mover, rest]
  omega

/-- The mover replaces its own value in a family of values. -/
theorem tally_update {α : Type} (reading : α → Nat) (family : ι → α) (mover : ι) (value : α) :
    tally (fun party => reading (Function.update family mover value party)) + reading (family mover) =
      tally (fun party => reading (family party)) + reading value := by
  have change := tally_change (fun party => reading (family party))
    (fun party => reading (Function.update family mover value party)) mover
    fun party other => by rw [Function.update_of_ne other]
  simpa only [Function.update_self] using change

theorem readings_le_tally (reading : ι → Nat) {first second : ι} (distinct : first ≠ second) :
    reading first + reading second ≤ tally reading := by
  have other : second ∈ Finset.univ.erase first :=
    Finset.mem_erase.mpr ⟨distinct.symm, Finset.mem_univ second⟩
  have rest : reading second ≤ ∑ party ∈ Finset.univ.erase first, reading party :=
    Finset.single_le_sum (fun _ _ => Nat.zero_le _) other
  rw [tally_split reading first]
  omega

end

end HpsSf.Foundation
