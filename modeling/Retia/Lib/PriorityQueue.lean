import Mathlib

/-!
# Priority queues

A queue is the list of its items. Of a library it is only known that `peek` shows an item of the
greatest priority: which one of several, is its own affair, and what follows holds for every choice.

* `drain_perm`, `pairwise_drain` — popped one after the other, the items come in descending order;
* `drain_truncate` — a queue from which items have been popped gives the rest of them.
-/

namespace Retia

open List

/-- A priority queue, by what it shows. -/
structure PriorityQueue (K P : Type) [LE P] where
  peek : List (K × P) → Option (K × P)
  peek_eq_none : ∀ q, peek q = none → q = []
  mem_of_peek : ∀ q x, peek q = some x → x ∈ q
  le_of_peek : ∀ q x, peek q = some x → ∀ y ∈ q, y.2 ≤ x.2

namespace PriorityQueue

variable {K P : Type} [DecidableEq K]

/-- `push`: a key that is there already gets the new priority. -/
def push (q : List (K × P)) (k : K) (p : P) : List (K × P) := (k, p) :: q.filter (·.1 ≠ k)

theorem push_of_notMem {q : List (K × P)} {k : K} (h : k ∉ q.map Prod.fst) (p : P) :
    push q k p = (k, p) :: q := by
  rw [push, filter_eq_self.2]
  intro x hx
  simpa using fun heq => h (mem_map.2 ⟨x, hx, heq⟩)

variable [LE P] [DecidableEq P] (Q : PriorityQueue K P)

omit [DecidableEq K] [DecidableEq P] in
theorem exists_peek {q : List (K × P)} (h : q ≠ []) : ∃ x, Q.peek q = some x :=
  Option.ne_none_iff_exists'.1 fun hnone => h (Q.peek_eq_none _ hnone)

/-- A queue that shows the first of several items. -/
def first {P : Type} [LinearOrder P] : PriorityQueue K P where
  peek := argmax Prod.snd
  peek_eq_none _ h := argmax_eq_none.1 h
  mem_of_peek _ _ h := argmax_mem h
  le_of_peek _ _ h _ hy := le_of_mem_argmax hy h

/-- `pop`, without the item. -/
def pop (q : List (K × P)) : List (K × P) :=
  match Q.peek q with
  | none => q
  | some x => q.erase x

theorem mem_of_mem_pop {q : List (K × P)} {x : K × P} (h : x ∈ Q.pop q) : x ∈ q := by
  rw [pop] at h
  split at h
  · exact h
  · exact mem_of_mem_erase h

/-- `pop` while there are more than `k` items. -/
def truncate (k : Nat) (q : List (K × P)) : List (K × P) := Q.pop^[q.length - k] q

/-- The items in the order in which they are popped. -/
def drain (q : List (K × P)) : List (K × P) :=
  match _h : Q.peek q with
  | none => []
  | some x => x :: drain (q.erase x)
termination_by q.length
decreasing_by
  rw [length_erase_of_mem (Q.mem_of_peek q x _h)]
  exact Nat.sub_one_lt (length_pos_of_mem (Q.mem_of_peek q x _h)).ne'

theorem drain_perm (q : List (K × P)) : (Q.drain q).Perm q := by
  fun_induction drain Q q with
  | case1 q h => rw [Q.peek_eq_none q h]
  | case2 q x h ih => exact (ih.cons x).trans (perm_cons_erase (Q.mem_of_peek q x h)).symm

theorem pairwise_drain (q : List (K × P)) : (Q.drain q).Pairwise fun a b => b.2 ≤ a.2 := by
  fun_induction drain Q q with
  | case1 q h => exact Pairwise.nil
  | case2 q x h ih =>
    refine pairwise_cons.2 ⟨fun y hy => Q.le_of_peek q x h y ?_, ih⟩
    exact mem_of_mem_erase ((Q.drain_perm _).mem_iff.1 hy)

theorem drain_pop (q : List (K × P)) : Q.drain (Q.pop q) = (Q.drain q).tail := by
  cases h : Q.peek q with
  | none =>
    have hnil : Q.drain q = [] := by rw [← perm_nil, ← Q.peek_eq_none q h]; exact Q.drain_perm q
    rw [pop, h, hnil, tail_nil]
  | some x =>
    have hcons : Q.drain q = x :: Q.drain (q.erase x) := by
      rw [drain]
      split <;> simp_all
    rw [pop, h, hcons, tail_cons]

theorem drain_truncate (k : Nat) (q : List (K × P)) :
    Q.drain (Q.truncate k q) = (Q.drain q).drop (q.length - k) := by
  rw [truncate]
  generalize q.length - k = n
  induction n generalizing q with
  | zero => rfl
  | succ n ih => rw [Function.iterate_succ_apply, ih, drain_pop, ← drop_one, drop_drop, Nat.add_comm]

end PriorityQueue

end Retia
