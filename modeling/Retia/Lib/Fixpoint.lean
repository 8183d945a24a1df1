import Mathlib

/-!
# Delta iteration

A monotone operator `F` on a complete lattice is iterated by rounds that do not recompute
everything: a round adds to what is known so far some of what `F` derives from it, and it may leave
out what `F` already derived from what was known a round earlier.

The state of such an iteration is what was known before the last round and what is known now.
`DeltaInv` says that nothing underivable is known and that everything derivable from the earlier
knowledge is known. It is kept by every round (`DeltaInv.round`), and when a round adds nothing the
iteration has reached the least fixpoint (`DeltaInv.eq_lfp`).
-/

namespace Retia

variable {α : Type*} [CompleteLattice α]

/-- The invariant of a delta iteration of `F` that knew `old` before its last round and knows
`total` now. -/
structure DeltaInv (F : α →o α) (old total : α) : Prop where
  /-- Everything known is derivable. -/
  sound : total ≤ F.lfp
  /-- Everything that follows from the earlier knowledge is known. -/
  closed : F old ≤ total

namespace DeltaInv

variable {F : α →o α} {old total out : α}

/-- A round that adds derivable facts, and with them everything derivable. -/
theorem round (hsound : total ≤ F.lfp) (hout : out ≤ F total) (hcomplete : F total ≤ total ⊔ out) :
    DeltaInv F total (total ⊔ out) where
  sound := by
    refine sup_le hsound ?_
    calc
      out ≤ F total := hout
      _ ≤ F F.lfp := F.monotone hsound
      _ = F.lfp := F.map_lfp
  closed := hcomplete

/-- An iteration whose last round added nothing has reached the least fixpoint. -/
theorem eq_lfp (h : DeltaInv F total total) : total = F.lfp :=
  le_antisymm h.sound (F.lfp_le h.closed)

end DeltaInv

end Retia
