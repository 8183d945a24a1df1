import Mathlib.Data.List.Forall2

/-!
# Runs that can fail

Rules for `Except`: what it means that a sequence of fallible steps succeeded.

* `bind_ok` — a step and what follows it;
* `foldlM_induction` — an invariant of a fallible loop;
* `mapM_eq_ok_iff` — a fallible function applied to every element of a list.
-/

namespace Retia

open List

variable {ε : Type} {α β : Type}

variable {f : α → Except ε β} {x : Except ε α} {r : List β} {b : β}

theorem bind_ok : x >>= f = .ok b ↔ ∃ a, x = .ok a ∧ f a = .ok b := by
  cases x with
  | error e | ok a => simp [bind, Except.bind]

theorem except_map_eq_ok {f : α → β} : f <$> x = .ok b ↔ ∃ a, x = .ok a ∧ f a = b := by
  cases x with
  | error e | ok a => simp [Functor.map, Except.map]

theorem except_pure_eq_ok {a b : α} : (pure a : Except ε α) = .ok b ↔ a = b := by
  simp [pure, Except.pure]

theorem mapError_eq_ok {ε' : Type} {f : ε → ε'} {a : α} : x.mapError f = .ok a ↔ x = .ok a := by
  cases x <;> simp [Except.mapError]

/-- **Invariants of loops.** What holds at the start and is kept by every step that succeeds holds
at the end. -/
theorem foldlM_induction {σ : Type} {α : Type*} {step : σ → α → Except ε σ} {P : σ → Prop}
    (hstep : ∀ {s a s'}, P s → step s a = .ok s' → P s') {l : List α} {s s' : σ}
    (h : P s) (hrun : l.foldlM step s = .ok s') : P s' := by
  induction l generalizing s with
  | nil =>
    cases hrun
    exact h
  | cons a l ih =>
    rw [foldlM_cons, bind_ok] at hrun
    obtain ⟨s₁, hs₁, hrun⟩ := hrun
    exact ih (hstep h hs₁) hrun

variable {l : List α}

theorem mapM_cons_eq_ok {a : α} : (a :: l).mapM f = .ok r ↔ ∃ b bs, f a = .ok b ∧
    l.mapM f = .ok bs ∧ r = b :: bs := by
  rw [mapM_cons, bind_ok]
  constructor
  · rintro ⟨b, hb, h⟩
    obtain ⟨bs, hbs, h⟩ := bind_ok.1 h
    exact ⟨b, bs, hb, hbs, (except_pure_eq_ok.1 h).symm⟩
  · rintro ⟨b, bs, hb, hbs, rfl⟩
    exact ⟨b, hb, bind_ok.2 ⟨bs, hbs, rfl⟩⟩

/-- A fallible map succeeds with the list of the results of its elements. -/
theorem mapM_eq_ok_iff : l.mapM f = .ok r ↔ List.Forall₂ (fun a b => f a = .ok b) l r := by
  induction l generalizing r with
  | nil =>
    rw [mapM_nil, except_pure_eq_ok, forall₂_nil_left_iff, eq_comm]
  | cons a l ih =>
    rw [mapM_cons_eq_ok, forall₂_cons_left_iff]
    simp only [ih]

/-- The elements of the result are the results of the elements. -/
theorem mem_of_mapM_eq_ok (h : l.mapM f = .ok r) : b ∈ r ↔ ∃ a ∈ l, f a = .ok b := by
  induction l generalizing r with
  | nil =>
    rw [mapM_nil, except_pure_eq_ok] at h
    simp [← h]
  | cons a l ih =>
    obtain ⟨b₀, bs, hb, hbs, rfl⟩ := mapM_cons_eq_ok.1 h
    rw [mem_cons, ih hbs, exists_mem_cons_iff, hb, Except.ok.injEq, eq_comm]

/-- An element of the left of two related lists has a partner on the right. -/
theorem exists_of_forall₂ {α β : Type*} {R : α → β → Prop} {l : List α}
    {l' : List β} (h : List.Forall₂ R l l') {a : α} (ha : a ∈ l) : ∃ b ∈ l', R a b := by
  induction h with
  | nil => simp at ha
  | cons hab _ ih =>
    rcases mem_cons.1 ha with rfl | ha
    · exact ⟨_, mem_cons_self, hab⟩
    · obtain ⟨b, hb, hr⟩ := ih ha
      exact ⟨b, mem_cons_of_mem _ hb, hr⟩

/-- Every element of a list that was mapped has a result. -/
theorem exists_of_mapM_eq_ok (h : l.mapM f = .ok r) {a : α} (ha : a ∈ l) : ∃ b ∈ r, f a = .ok b :=
  exists_of_forall₂ (mapM_eq_ok_iff.1 h) ha

/-- The same value, or failure on both sides. -/
def SameOutcome (x y : Except ε α) : Prop := ∀ a, x = .ok a ↔ y = .ok a

end Retia
