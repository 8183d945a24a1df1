import Mathlib

/-!
# Graphs with costs

A finite directed graph whose edges have costs that are not negative, in an ordered additive monoid,
and its walks.

A **walk** is given by the list of its nodes, and grows at its end. The cost is summed up in the
same order. Edges can be closed: `ok u v` says that a walk may take an edge from `u` to `v`.

* `CostGraph`, `Walk` — graphs and walks;
* `Walk.nonneg`, `Walk.head`, `Walk.getLast?` — what a walk looks like;
* `Walk.bounded` — a bound that one edge preserves holds along every walk.
-/

namespace Retia

/-- A graph on the nodes `0 … n - 1`, by the edges that leave each node. -/
structure CostGraph (n : Nat) (C : Type) [Zero C] [LE C] where
  out : Fin n → List (Fin n × C)
  nonneg : ∀ u, ∀ e ∈ out u, 0 ≤ e.2

section

variable {n : Nat} {C : Type} [AddCommMonoid C] [LinearOrder C]

/-- A walk from `s`: its end, its nodes and its cost. -/
inductive Walk (g : CostGraph n C) (ok : Fin n → Fin n → Prop) (s : Fin n) :
    Fin n → List (Fin n) → C → Prop where
  | nil : Walk g ok s s [s] 0
  | snoc {u v : Fin n} {path : List (Fin n)} {c w : C} (hwalk : Walk g ok s u path c)
    (hedge : (v, w) ∈ g.out u) (hok : ok u v) :
      Walk g ok s v (path ++ [v]) (c + w)

variable {g : CostGraph n C} {ok : Fin n → Fin n → Prop} {s t : Fin n} {path : List (Fin n)} {c : C}

theorem Walk.nonneg [IsOrderedAddMonoid C] (h : Walk g ok s t path c) : 0 ≤ c := by
  induction h with
  | nil => exact le_rfl
  | snoc _ hedge _ ih => exact add_nonneg ih (g.nonneg _ _ hedge)

theorem Walk.mono {ok' : Fin n → Fin n → Prop} (hok : ∀ u v, ok u v → ok' u v)
    (h : Walk g ok s t path c) : Walk g ok' s t path c := by
  induction h with
  | nil => exact .nil
  | snoc _ hedge h ih => exact .snoc ih hedge (hok _ _ h)

theorem Walk.head (h : Walk g ok s t path c) : ∃ rest, path = s :: rest := by
  induction h with
  | nil => exact ⟨[], rfl⟩
  | snoc _ _ _ ih =>
    obtain ⟨rest, rfl⟩ := ih
    exact ⟨rest ++ [_], rfl⟩

theorem Walk.getLast? (h : Walk g ok s t path c) : path.getLast? = some t := by
  cases h <;> simp

/-- **The end of a walk is bounded** by its cost if the start is, and each edge keeps the bound. -/
theorem Walk.bounded {P : Fin n → C → Prop} (hstart : P s 0)
    (hstep : ∀ u c v w, P u c → (v, w) ∈ g.out u → ok u v → P v (c + w))
    (h : Walk g ok s t path c) : P t c := by
  induction h with
  | nil => exact hstart
  | snoc _ hedge hok ih => exact hstep _ _ _ _ ih hedge hok

end

end Retia
