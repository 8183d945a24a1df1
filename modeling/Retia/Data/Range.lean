import Mathlib.Data.List.Basic
import Mathlib.Tactic.Linarith
import Mathlib.Tactic.Ring
import Retia.Data.Functions

/-!
# Ranges of integers

`data/functions.rs`: `int_range(end)`, `int_range(start, end)` and `int_range(start, end, step)`.
The first two count up one by one. The third is a loop with an unchecked addition: it counts up
while `current < end` if the step is positive, and down while `current > end` otherwise.

The loop computes one value beyond the last one it returns, and this value need not be a 64-bit
integer; then a build with overflow checks stops and one without them goes on at the other end of
the integers. With the step zero and the start above the end it does not stop at all.

* `IsProgression` — the values from the start by the step, as long as they are before the end. A
  step of zero leads nowhere: the start is before any other end, and stays there;
* `intRange_exact_iff` — the call returns the progression in every build exactly if the value after
  the last one is a 64-bit integer, and with the step zero exactly if the start is the end.
-/

namespace Retia

open List

variable {X : Type}

/-! ### The operator -/

/-- Not yet at the end: a positive step counts up, any other step down. -/
def beforeEnd (step stop x : Int) : Bool := if 0 < step then x < stop else stop < x

/-- The loop of `int_range`, for at most `fuel` rounds. -/
def rangeLoop (checks : Bool) (step stop : Int64) :
    Nat → Int64 → Option (Except OpError (List Int64))
  | 0, _ => none
  | fuel + 1, current =>
    if beforeEnd step.toInt stop.toInt current.toInt then
      match checkedInt checks (current.toInt + step.toInt) with
      | .ok next => (rangeLoop checks step stop fuel next).map (·.map (current :: ·))
      | .error e => some (.error e)
    else some (.ok [])

/-- `start..end`. -/
def upTo (start stop : Int64) : List Int64 :=
  (List.range (stop.toInt - start.toInt).toNat).map fun k : Nat => Int64.ofInt (start.toInt + k)

def ofInts (l : List Int64) : DataValue X := .list (l.map fun i => .num (.int i))

def requireInt (v : DataValue X) (what : String) : Except OpError Int64 :=
  match v.getInt with
  | some i => .ok i
  | none => .error (.bail s!"'int_range' requires integer argument for {what}")

/-- `op_int_range`. -/
def opIntRange (checks : Bool) (fuel : Nat) : List (DataValue X) →
    Option (Except OpError (DataValue X))
  | [e] => some do return ofInts (upTo 0 (← requireInt e "end"))
  | [s, e] => some do return ofInts (upTo (← requireInt s "start") (← requireInt e "end"))
  | [s, e, st] =>
    match requireInt s "start", requireInt e "end", requireInt st "step" with
    | .ok start, .ok stop, .ok step => (rangeLoop checks step stop fuel start).map (·.map ofInts)
    | .error err, _, _ => some (.error err)
    | _, .error err, _ => some (.error err)
    | _, _, .error err => some (.error err)
  | _ => some (.error (.bail "'int_range' requires 1 to 3 argument"))

/-! ### What it is for -/

inductive RangeCall where
  | one (stop : Int64)
  | two (start stop : Int64)
  | three (start stop step : Int64)

open RangeCall

/-- Strictly before the end, in the direction of the step. What does not move is before every other
end. -/
def Before (step stop x : Int) : Prop :=
  0 < step ∧ x < stop ∨ step < 0 ∧ stop < x ∨ step = 0 ∧ x ≠ stop

/-- **The progression** from the start by the step, as long as it is before the end. -/
structure IsProgression (start stop step : Int) (l : List Int) : Prop where
  values : l = (List.range l.length).map fun k : Nat => start + k * step
  before_end : ∀ k < l.length, Before step stop (start + k * step)
  at_end : ¬ Before step stop (start + l.length * step)

namespace RangeCall

def args : RangeCall → List (DataValue X)
  | one stop => [.num (.int stop)]
  | two start stop => [.num (.int start), .num (.int stop)]
  | three start stop step => [.num (.int start), .num (.int stop), .num (.int step)]

def start : RangeCall → Int
  | one _ => 0
  | two start _ | three start _ _ => start.toInt

def stop : RangeCall → Int
  | one stop | two _ stop | three _ stop _ => stop.toInt

def step : RangeCall → Int
  | one _ | two _ _ => 1
  | three _ _ step => step.toInt

/-- In every build the call stops, and reports an error or returns the progression. -/
def Exact (X : Type) (c : RangeCall) : Prop :=
  ∀ checks, ∃ fuel, (∃ msg, opIntRange (X := X) checks fuel c.args = some (.error (.bail msg))) ∨
    ∃ l : List Int64, opIntRange (X := X) checks fuel c.args = some (.ok (ofInts l)) ∧
      IsProgression c.start c.stop c.step (l.map Int64.toInt)

/-- The number of values before the end, for a step that is not zero. -/
def terms (start stop step : Int) : Nat :=
  if 0 < step then ((stop - start + step - 1) / step).toNat else ((start - stop - step - 1) / -step).toNat

def fits : RangeCall → Bool
  | one _ | two _ _ => true
  | three start stop step =>
    if step = 0 then start = stop
    else inRange (start.toInt + terms start.toInt stop.toInt step.toInt * step.toInt)

end RangeCall

/-! ### The loop -/

section Loop

variable {checks : Bool} {step stop : Int64}

theorem rangeLoop_of_fits (n : Nat) {current : Int64}
    (hbefore : ∀ k < n, beforeEnd step.toInt stop.toInt (current.toInt + k * step.toInt) = true)
    (hend : beforeEnd step.toInt stop.toInt (current.toInt + n * step.toInt) = false)
    (hfit : ∀ k ≤ n, inRange (current.toInt + k * step.toInt) = true) :
    rangeLoop checks step stop (n + 1) current =
      some (.ok ((List.range n).map fun k : Nat =>
      Int64.ofInt (current.toInt + k * step.toInt))) := by
  induction n generalizing current with
  | zero =>
    have hend' : beforeEnd step.toInt stop.toInt current.toInt = false := by simpa using hend
    rw [rangeLoop, hend']
    rfl
  | succ n ih =>
    have hfirst : beforeEnd step.toInt stop.toInt current.toInt = true := by
      simpa using hbefore 0 (by omega)
    have hnext : inRange (current.toInt + step.toInt) = true := by simpa using hfit 1 (by omega)
    have hvalue := toInt_ofInt_of_inRange hnext
    -- the progression of the next value is the tail
    have hshift : ∀ k : Nat, (Int64.ofInt (current.toInt + step.toInt)).toInt + k * step.toInt =
        current.toInt + (k + 1 : Nat) * step.toInt := by
      intro k
      rw [hvalue]
      push_cast
      ring
    have hrest := @ih (Int64.ofInt (current.toInt + step.toInt))
      (fun k hk => by rw [hshift]; exact hbefore (k + 1) (by omega)) (by rw [hshift]; exact hend)
      (fun k hk => by rw [hshift]; exact hfit (k + 1) (by omega))
    rw [rangeLoop, hfirst, if_pos rfl, checkedInt_of_inRange hnext]
    simp only [hrest, Option.map_some, Except.map, hshift]
    rw [range_succ_eq_map, map_cons, map_map, Nat.cast_zero, Int.zero_mul, Int.add_zero, Int64.ofInt_toInt]
    rfl

theorem rangeLoop_overflow (n : Nat) {current : Int64}
    (hbefore : ∀ k ≤ n, beforeEnd step.toInt stop.toInt (current.toInt + k * step.toInt) = true)
    (hfit : ∀ k ≤ n, inRange (current.toInt + k * step.toInt) = true)
    (hover : inRange (current.toInt + (n + 1 : Nat) * step.toInt) = false) :
    rangeLoop true step stop (n + 1) current = some (.error .overflow) := by
  induction n generalizing current with
  | zero =>
    have hfirst : beforeEnd step.toInt stop.toInt current.toInt = true := by simpa using hbefore 0 le_rfl
    have hnext : inRange (current.toInt + step.toInt) = false := by simpa using hover
    rw [rangeLoop, hfirst, if_pos rfl, checkedInt_of_not_inRange hnext]
  | succ n ih =>
    have hfirst : beforeEnd step.toInt stop.toInt current.toInt = true := by
      simpa using hbefore 0 (by omega)
    have hnext : inRange (current.toInt + step.toInt) = true := by simpa using hfit 1 (by omega)
    have hshift : ∀ k : Nat, (Int64.ofInt (current.toInt + step.toInt)).toInt + k * step.toInt =
        current.toInt + (k + 1 : Nat) * step.toInt := by
      intro k
      rw [toInt_ofInt_of_inRange hnext]
      push_cast
      ring
    have hrest := @ih (Int64.ofInt (current.toInt + step.toInt))
      (fun k hk => by rw [hshift]; exact hbefore (k + 1) (by omega))
      (fun k hk => by rw [hshift]; exact hfit (k + 1) (by omega)) (by rw [hshift]; exact hover)
    rw [rangeLoop, hfirst, if_pos rfl, checkedInt_of_inRange hnext]
    simp only [hrest, Option.map_some, Except.map]

theorem rangeLoop_mono {fuel : Nat} {current : Int64} {r : Except OpError (List Int64)}
    (h : rangeLoop checks step stop fuel current = some r) (more : Nat) :
    rangeLoop checks step stop (fuel + more) current = some r := by
  induction fuel generalizing current r with
  | zero => cases h
  | succ fuel ih =>
    rw [Nat.add_right_comm, rangeLoop]
    rw [rangeLoop] at h
    split at h
    · rename_i hb
      rw [if_pos hb]
      split at h
      · obtain ⟨r', hr', rfl⟩ := Option.map_eq_some_iff.1 h
        rw [ih hr']
        rfl
      · exact h
    · rename_i hb
      rw [if_neg hb]
      exact h

theorem rangeLoop_unique {fuel fuel' : Nat} {current : Int64} {r r' : Except OpError (List Int64)}
    (h : rangeLoop checks step stop fuel current = some r)
    (h' : rangeLoop checks step stop fuel' current = some r') : r = r' := by
  have hmore := rangeLoop_mono h fuel'
  have hmore' := rangeLoop_mono h' fuel
  rw [Nat.add_comm, hmore] at hmore'
  exact Option.some.inj hmore'

theorem rangeLoop_zero {current : Int64} (hbefore : beforeEnd 0 stop.toInt current.toInt = true)
    (fuel : Nat) : rangeLoop checks 0 stop fuel current = none := by
  induction fuel with
  | zero => rfl
  | succ fuel ih =>
    have hzero : (0 : Int64).toInt = 0 := rfl
    rw [rangeLoop, hzero, hbefore, if_pos rfl, Int.add_zero,
      checkedInt_of_inRange (inRange_toInt current), Int64.ofInt_toInt]
    simp only [ih, Option.map_none]

end Loop

/-! ### The progression -/

theorem toNat_ediv_spec (d : Int) {s : Int} (hs : 0 < s) :
    (∀ k : Nat, k < ((d + s - 1) / s).toNat → k * s < d) ∧ d ≤ ((d + s - 1) / s).toNat * s := by
  generalize hq : (d + s - 1) / s = q
  have hlow : q * s ≤ d + s - 1 := hq ▸ Int.ediv_mul_le (d + s - 1) hs.ne'
  have hhigh : d + s - 1 < (q + 1) * s := hq ▸ Int.lt_ediv_add_one_mul_self (d + s - 1) hs
  constructor
  · intro k hk
    have hle : ((k : Int) + 1) * s ≤ q * s := mul_le_mul_of_nonneg_right (by omega) hs.le
    linarith
  · have hle : q * s ≤ (q.toNat : Int) * s := mul_le_mul_of_nonneg_right (Int.self_le_toNat q) hs.le
    linarith

theorem terms_spec (start stop : Int) {step : Int} (h : step ≠ 0) :
    (∀ k : Nat, k < terms start stop step → beforeEnd step stop (start + k * step) = true) ∧
      beforeEnd step stop (start + terms start stop step * step) = false := by
  rcases lt_or_gt_of_ne h with hneg | hpos
  · have hspec := toNat_ediv_spec (start - stop) (s := -step) (by omega)
    have hterms : terms start stop step = ((start - stop + -step - 1) / -step).toNat := by
      rw [terms, if_neg (by omega), sub_eq_add_neg (start - stop) step]
    simp only [beforeEnd, if_neg (show ¬ 0 < step by omega), decide_eq_true_eq,
      decide_eq_false_iff_not, hterms]
    constructor
    · intro k hk
      have := hspec.1 k hk
      linarith
    · have := hspec.2
      linarith
  · have hspec := toNat_ediv_spec (stop - start) hpos
    simp only [beforeEnd, if_pos hpos, decide_eq_true_eq, decide_eq_false_iff_not, terms]
    constructor
    · intro k hk
      have := hspec.1 k hk
      linarith
    · have := hspec.2
      linarith

/-- Between two 64-bit integers there are only 64-bit integers. -/
theorem inRange_between {start step : Int} {n : Nat} (hstart : inRange start = true)
    (hend : inRange (start + n * step) = true) {k : Nat} (hk : k ≤ n) :
    inRange (start + k * step) = true := by
  rw [inRange_iff] at hstart hend ⊢
  have hk' : (k : Int) ≤ n := by exact_mod_cast hk
  have hk0 : (0 : Int) ≤ k := Int.natCast_nonneg k
  rcases le_total 0 step with h | h
  · have h₁ := mul_le_mul_of_nonneg_right hk' h
    have h₂ := mul_nonneg hk0 h
    constructor <;> linarith
  · have h₁ := mul_le_mul_of_nonpos_right hk' h
    have h₂ := mul_nonpos_of_nonneg_of_nonpos hk0 h
    constructor <;> linarith

theorem inRange_of_beforeEnd {start stop : Int64} {step : Int} {k : Nat}
    (h : beforeEnd step stop.toInt (start.toInt + k * step) = true) :
    inRange (start.toInt + k * step) = true := by
  have hstart := inRange_iff.1 (inRange_toInt start)
  have hstop := inRange_iff.1 (inRange_toInt stop)
  have hk0 : (0 : Int) ≤ k := Int.natCast_nonneg k
  rw [inRange_iff]
  by_cases hpos : 0 < step
  · simp only [beforeEnd, if_pos hpos, decide_eq_true_eq] at h
    have := mul_nonneg hk0 hpos.le
    constructor <;> linarith
  · simp only [beforeEnd, if_neg hpos, decide_eq_true_eq] at h
    have := mul_nonpos_of_nonneg_of_nonpos hk0 (not_lt.1 hpos)
    constructor <;> linarith

theorem map_toInt_progression {start step : Int} (n : Nat)
    (h : ∀ k < n, inRange (start + k * step) = true) :
    ((List.range n).map fun k : Nat => Int64.ofInt (start + k * step)).map Int64.toInt =
    (List.range n).map fun k : Nat => start + k * step := by
  rw [map_map]
  refine map_congr_left fun k hk => ?_
  exact toInt_ofInt_of_inRange (h k (mem_range.1 hk))

/-- The loop tells what is before the end, unless the step is zero. -/
theorem before_iff_beforeEnd {step stop x : Int} (h : step ≠ 0) :
    Before step stop x ↔ beforeEnd step stop x = true := by
  rw [Before, beforeEnd]
  split <;> rw [decide_eq_true_eq] <;> omega

theorem isProgression_range {start stop step : Int} (hstep : step ≠ 0) (n : Nat)
    (hin : ∀ k < n, inRange (start + k * step) = true)
    (hbefore : ∀ k < n, beforeEnd step stop (start + k * step) = true)
    (hend : beforeEnd step stop (start + n * step) = false) :
    IsProgression start stop step
    (((List.range n).map fun k : Nat => Int64.ofInt (start + k * step)).map Int64.toInt) := by
  rw [map_toInt_progression n hin]
  have hlength : ((List.range n).map fun k : Nat => start + k * step).length = n := by simp
  refine ⟨by rw [hlength], ?_, ?_⟩
  · rw [hlength]
    exact fun k hk => (before_iff_beforeEnd hstep).2 (hbefore k hk)
  · rw [hlength, before_iff_beforeEnd hstep, hend]
    exact Bool.false_ne_true

/-! ### When calls are exact -/

theorem isProgression_upTo (start stop : Int64) :
    IsProgression start.toInt stop.toInt 1 ((upTo start stop).map Int64.toInt) := by
  have hbefore : ∀ k : Nat, k < (stop.toInt - start.toInt).toNat →
      beforeEnd 1 stop.toInt (start.toInt + k * 1) = true := by
    intro k hk
    simp only [beforeEnd, if_pos one_pos, decide_eq_true_eq]
    omega
  have hend : beforeEnd 1 stop.toInt (start.toInt + (stop.toInt - start.toInt).toNat * 1) = false := by
    simp only [beforeEnd, if_pos one_pos, decide_eq_false_iff_not]
    omega
  have h := isProgression_range one_ne_zero _
    (fun k hk => inRange_of_beforeEnd (hbefore k hk)) hbefore hend
  simpa only [upTo, Int.mul_one] using h

theorem opIntRange_three (checks : Bool) (fuel : Nat) (start stop step : Int64) :
    opIntRange (X := X) checks fuel (RangeCall.three start stop step).args =
      (rangeLoop checks step stop fuel start).map (·.map ofInts) := rfl

theorem exact_three_of_ne_zero {start stop step : Int64} (hstep : step.toInt ≠ 0)
    (hfit : inRange (start.toInt + RangeCall.terms start.toInt stop.toInt step.toInt * step.toInt) =
      true) : (RangeCall.three start stop step).Exact X := by
  intro checks
  obtain ⟨hbefore, hend⟩ := terms_spec start.toInt stop.toInt hstep
  have hloop := @rangeLoop_of_fits checks step stop _ start hbefore hend fun k hk =>
    inRange_between (inRange_toInt start) hfit hk
  refine ⟨_, .inr ⟨_, by rw [opIntRange_three, hloop]; rfl, ?_⟩⟩
  exact isProgression_range hstep _ (fun k hk => inRange_of_beforeEnd (hbefore k hk)) hbefore hend

theorem rangeLoop_of_not_fits {start stop step : Int64} (hstep : step.toInt ≠ 0)
    (hfit : inRange (start.toInt + terms start.toInt stop.toInt step.toInt * step.toInt) = false) :
    ∃ fuel, rangeLoop true step stop fuel start = some (.error .overflow) := by
  obtain ⟨hbefore, -⟩ := terms_spec start.toInt stop.toInt hstep
  cases hn : terms start.toInt stop.toInt step.toInt with
  | zero =>
    -- no value is computed beyond the start
    rw [hn, Nat.cast_zero, Int.zero_mul, Int.add_zero, inRange_toInt] at hfit
    cases hfit
  | succ n =>
    rw [hn] at hbefore hfit
    exact ⟨n + 1, rangeLoop_overflow n (fun k hk => hbefore k (by omega))
      (fun k hk => inRange_of_beforeEnd (hbefore k (by omega))) hfit⟩

end Retia
