import Mathlib

/-!
# Auxiliary variables

A condition on assignments that has auxiliary variables says something about the other variables
only: that the auxiliary ones *can* be chosen such that the condition holds. This is the projection
of the condition to the other variables (`Project`).

Projection does not commute with conjunction in general, since both conditions would have to choose
the same values. It does when each condition has its own auxiliary variables (`project_and`).
-/

namespace Retia

variable {V D : Type*}

/-- The variables that are not in `base` can be chosen such that the condition holds. -/
def Project (base : Set V) (P : (V → D) → Prop) (σ : V → D) : Prop := ∃ τ, Set.EqOn τ σ base ∧ P τ

theorem dependsOn_iff {P : (V → D) → Prop} {s : Set V} (h : DependsOn P s)
    {σ τ : V → D} (heq : Set.EqOn σ τ s) : P σ ↔ P τ :=
  Eq.to_iff (h heq)

/-- A condition without auxiliary variables is its own projection. -/
theorem project_of_dependsOn {base : Set V} {P : (V → D) → Prop} (h : DependsOn P base)
    {σ : V → D} : Project base P σ ↔ P σ :=
  ⟨fun ⟨_, heq, hτ⟩ => (dependsOn_iff h heq).1 hτ, fun hσ => ⟨σ, Set.eqOn_refl σ base, hσ⟩⟩

/-- A projection depends on no other variables than the condition. -/
theorem dependsOn_project {s : Set V} (base : Set V) {P : (V → D) → Prop}
    (h : DependsOn P s) : DependsOn (Project base P) s := by
  classical
  have hmove : ∀ σ τ : V → D, (∀ x ∈ s, σ x = τ x) → Project base P σ → Project base P τ := by
    rintro σ τ heq ⟨ρ, hρ, hP⟩
    -- the choice for `σ`, on the variables that matter
    refine ⟨fun x => if x ∈ s then ρ x else τ x, fun x hx => ?_, ?_⟩
    · by_cases hs : x ∈ s
      · exact (if_pos hs).trans ((hρ hx).trans (heq x hs))
      · exact if_neg hs
    · exact (dependsOn_iff h fun x hs => if_pos hs).2 hP
  exact fun σ τ heq => propext ⟨hmove σ τ heq, hmove τ σ fun x hx => (heq x hx).symm⟩

/-- **Conditions with auxiliary variables of their own** are projected one by one. -/
theorem project_and {base A B : Set V} (hdisjoint : Disjoint A B) {P Q : (V → D) → Prop}
    (hP : DependsOn P (base ∪ A)) (hQ : DependsOn Q (base ∪ B)) {σ : V → D} :
    Project base (fun τ => P τ ∧ Q τ) σ ↔ Project base P σ ∧ Project base Q σ := by
  classical
  constructor
  · rintro ⟨τ, heq, hPτ, hQτ⟩
    exact ⟨⟨τ, heq, hPτ⟩, ⟨τ, heq, hQτ⟩⟩
  · rintro ⟨⟨τ₁, heq₁, hP₁⟩, ⟨τ₂, heq₂, hQ₂⟩⟩
    -- the values of `A` are those of the first choice, all others those of the second one
    let τ : V → D := fun x => if x ∈ A then τ₁ x else τ₂ x
    have hbase : ∀ x ∈ base, τ₁ x = τ₂ x := fun x hx => (heq₁ hx).trans (heq₂ hx).symm
    have hτ₁ : Set.EqOn τ τ₁ (base ∪ A) := by
      intro x hx
      by_cases hA : x ∈ A
      · exact if_pos hA
      · exact (if_neg hA).trans (hbase x (hx.resolve_right hA)).symm
    have hτ₂ : Set.EqOn τ τ₂ (base ∪ B) := by
      intro x hx
      by_cases hA : x ∈ A
      · exact (if_pos hA).trans (hbase x (hx.resolve_right (Set.disjoint_left.1 hdisjoint hA)))
      · exact if_neg hA
    exact ⟨τ, fun x hx => (hτ₂ (.inl hx)).trans (heq₂ hx), (dependsOn_iff hP hτ₁).2 hP₁,
      (dependsOn_iff hQ hτ₂).2 hQ₂⟩

end Retia
