import Mathlib.Data.List.Induction
import Retia.Lib.Except
import Retia.Data.Value

/-!
# Aggregations: the normal fold and the meet fold

`data/aggr.rs` implements eleven aggregations twice. The *normal* implementation keeps an
accumulator of its own type, is fed every value of a group through `set` and yields its result by
`get`. The *meet* implementation has no accumulator: the first value of a group is stored as it is
(`MeetAggrStore::meet_put`), every later one is merged into the stored value by `update`, and
`init_val` stands for the group without rows. Which of the two an aggregated rule runs through
depends only on where its aggregated columns stand in the head, so the two should agree.

* `foldlM_simulates` — the step rule for comparing them: a relation between accumulator and stored
  value that both step functions preserve holds at the end;
* `Agrees` — where the two paths give one value. Eight aggregations agree on everything. `union` and
  `intersection` store a `Set` as soon as they merge two lists, where the normal fold returns a
  `List`; `min_cost` keeps an integer cost as an integer, a first entry of infinite cost, and lets a
  NaN cost erase what was found before it;
* `normalFold_eq_meetFold_iff` — for sequences both accept, the results are equal exactly there.
-/

namespace Retia

open List

variable {X : Type}

/-- The error of an aggregation: its message, and the values the message is formatted with. -/
structure AggrError (X : Type) where
  msg : String
  args : List (DataValue X)

/-- `trait NormalAggrObj`. -/
structure NormalAggrObj (X : Type) where
  State : Type
  default : State
  set : State → DataValue X → Except (AggrError X) State
  get : State → Except (AggrError X) (DataValue X)

/-- `trait MeetAggrObj`. `update` returns the new left value and whether it changed. -/
structure MeetAggrObj (X : Type) where
  initVal : DataValue X
  update : DataValue X → DataValue X → Except (AggrError X) (DataValue X × Bool)

/-- The normal path: `set` on each value, then `get`. -/
def normalFold (op : NormalAggrObj X) (vs : List (DataValue X)) :
    Except (AggrError X) (DataValue X) := do
  op.get (← vs.foldlM op.set op.default)

/-- The meet path on a stored value: `update` with each value in turn. -/
def meetFoldFrom (op : MeetAggrObj X) (stored : DataValue X) (vs : List (DataValue X)) :
    Except (AggrError X) (DataValue X) :=
  vs.foldlM (fun left right => do return (← op.update left right).1) stored

/-- The meet path: the first value is stored as it is, and `init_val` where there is none. -/
def meetFold (op : MeetAggrObj X) : List (DataValue X) → Except (AggrError X) (DataValue X)
  | [] => .ok op.initVal
  | v :: vs => meetFoldFrom op v vs

/-! ### The implementations -/

namespace DataValue

/-- `*value == DataValue::Null`. -/
def isNull : DataValue X → Bool
  | .null => true
  | _ => false

end DataValue

open DataValue

/-- The accumulator of `and` and `or`: a boolean that every value is combined into. -/
def logical (name : String) (accum : Bool) (op : Bool → Bool → Bool) : NormalAggrObj X where
  State := Bool
  default := accum
  set accum value :=
    match value with
    | .bool v => .ok (op accum v)
    | v => .error ⟨"cannot compute '" ++ name ++ "' for \x7b:?\x7d", [v]⟩
  get accum := .ok (.bool accum)

/-- The flag of the two logical meets is `old == *l`: it reports that nothing changed. -/
def meetLogical (name : String) (init : Bool) (op : Bool → Bool → Bool) : MeetAggrObj X where
  initVal := .bool init
  update left right :=
    match left, right with
    | .bool l, .bool r => .ok (.bool (op l r), l == op l r)
    | u, v => .error ⟨"cannot compute '" ++ name ++ "' for \x7b:?\x7d and \x7b:?\x7d", [u, v]⟩

def aggrAnd : NormalAggrObj X := logical "and" true (· && ·)
def meetAggrAnd : MeetAggrObj X := meetLogical "and" true (· && ·)
def aggrOr : NormalAggrObj X := logical "or" false (· || ·)
def meetAggrOr : MeetAggrObj X := meetLogical "or" false (· || ·)

section Sets

variable [Ord X]

/-- `BTreeSet::contains`. -/
def setContains (s : List (DataValue X)) (v : DataValue X) : Bool :=
  s.any fun x => cmp x v == .eq

/-- `BTreeSet::intersection`, collected. -/
def setIntersection (l s : List (DataValue X)) : List (DataValue X) := l.filter (setContains s)

/-- `for v in s { inserted |= l.insert(v) }`: the extended set, and whether it grew. -/
def insertAll (l s : List (DataValue X)) : List (DataValue X) × Bool :=
  s.foldl (fun acc v => (setInsert v acc.1, acc.2 || !setContains acc.1 v)) (l, false)

def aggrUnion : NormalAggrObj X where
  State := List (DataValue X)
  default := []
  set accum value :=
    match value with
    | .list v => .ok (setExtend accum v)
    | v => .error ⟨"cannot compute 'union' for value \x7b:?\x7d", [v]⟩
  get accum := .ok (.list accum)

/-- A `List` on the left is turned into a `Set` before anything else, and stays one. -/
def asSet : DataValue X → DataValue X
  | .list l => .set (collectSet l)
  | v => v

def meetAggrUnion : MeetAggrObj X where
  initVal := .set []
  update left right :=
    match asSet left, right with
    | .set l, .set s => .ok (.set (insertAll l s).1, (insertAll l s).2)
    | .set l, .list s => .ok (.set (insertAll l s).1, (insertAll l s).2)
    | _, v => .error ⟨"cannot compute 'union' for value \x7b:?\x7d", [v]⟩

def aggrIntersection : NormalAggrObj X where
  State := Option (List (DataValue X))
  default := none
  set accum value :=
    match value with
    | .list v =>
      match accum with
      | some accum => .ok (some (setIntersection accum (collectSet v)))
      | none => .ok (some (collectSet v))
    | v => .error ⟨"cannot compute 'intersection' for value \x7b:?\x7d", [v]⟩
  get accum := .ok (.list (accum.getD []))

/-- Intersection with the set `s`, kept as it is when the length does not change. -/
def intersectWith (l s : List (DataValue X)) : DataValue X × Bool :=
  if l.length = (setIntersection l s).length then (.set l, false)
  else (.set (setIntersection l s), true)

/-- The message names `union` here, as in the source. -/
def meetAggrIntersection : MeetAggrObj X where
  initVal := .null
  update left right :=
    if left.isNull && !right.isNull then .ok (right, true)
    else if right.isNull then .ok (left, false)
    else
      match asSet left, right with
      | .set l, .set s => .ok (intersectWith l s)
      | .set l, .list s => .ok (intersectWith l (collectSet s))
      | _, v => .error ⟨"cannot compute 'union' for value \x7b:?\x7d", [v]⟩

end Sets

/-- The step of `min` and `max`: `Null` is skipped, and otherwise the value replaces the one found
when `replaces found value`. Both report their errors under the name of `min`. -/
def extremumStep (replaces : F64 → F64 → Bool) (found value : DataValue X) :
    Except (AggrError X) (DataValue X × Bool) :=
  if value.isNull then .ok (found, false)
  else if found.isNull then .ok (value, true)
  else
    match found.getFloat, value.getFloat with
    | some f1, some f2 => .ok (if replaces f1 f2 then (value, true) else (found, false))
    | _, _ => .error ⟨"'min' applied to non-numerical values", []⟩

def extremum (replaces : F64 → F64 → Bool) : NormalAggrObj X where
  State := DataValue X
  default := .null
  set found value := do return (← extremumStep replaces found value).1
  get found := .ok found

def meetExtremum (replaces : F64 → F64 → Bool) : MeetAggrObj X where
  initVal := .null
  update := extremumStep replaces

def aggrMin : NormalAggrObj X := extremum fun f1 f2 => F64.lt f2 f1
def meetAggrMin : MeetAggrObj X := meetExtremum fun f1 f2 => F64.lt f2 f1
def aggrMax : NormalAggrObj X := extremum fun f1 f2 => F64.lt f1 f2
def meetAggrMax : MeetAggrObj X := meetExtremum fun f1 f2 => F64.lt f1 f2

/-- `AggrMinCost::set`, on the entry found and its cost. -/
def aggrMinCostSet (state : DataValue X × F64) (value : DataValue X) :
    Except (AggrError X) (DataValue X × F64) :=
  match value with
  | .list [v, c] =>
    match c.getFloat with
    | some cost => .ok (if F64.lt cost state.2 then (v, cost) else state)
    | none => .error ⟨"Cost must be numeric", []⟩
  | .list _ => .error ⟨"'min_cost' requires a list of exactly two items as argument", []⟩
  | v => .error ⟨"cannot compute 'min_cost' on \x7b:?\x7d", [v]⟩

def aggrMinCost : NormalAggrObj X where
  State := DataValue X × F64
  default := (.null, F64.infinity)
  set := aggrMinCostSet
  get state := .ok (.list [state.1, .num (.float state.2)])

def meetAggrMinCost : MeetAggrObj X where
  initVal := .list [.null, .num (.float F64.infinity)]
  update left right :=
    match left, right with
    | .list prev, .list l =>
      match prev, l with
      | [_, p], [_, c] =>
        match c.getFloat, p.getFloat with
        | some curCost, some prevCost =>
          .ok (if F64.le prevCost curCost then (.list prev, false) else (.list l, true))
        | none, _ => .error ⟨"'min_cost' must have numerical costs", []⟩
        | some _, none => .error ⟨"'prev_cost' must have numerical costs", []⟩
      | prev, l =>
        .error ⟨"'min_cost' requires a list of length 2 as argument, got \x7b:?\x7d, \x7b:?\x7d",
          [.list prev, .list l]⟩
    | u, v => .error ⟨"cannot compute 'min_cost' on \x7b:?\x7d, \x7b:?\x7d", [u, v]⟩

def aggrShortest : NormalAggrObj X where
  State := Option (List (DataValue X))
  default := none
  set found value :=
    match value with
    | .list l =>
      match found with
      | none => .ok (some l)
      | some found => .ok (some (if l.length < found.length then l else found))
    | v => .error ⟨"cannot compute 'shortest' on \x7b:?\x7d", [v]⟩
  get found := .ok (found.elim .null .list)

def meetAggrShortest : MeetAggrObj X where
  initVal := .null
  update left right :=
    if left.isNull && !right.isNull then .ok (right, true)
    else if right.isNull then .ok (left, false)
    else
      match left, right with
      | .list l, .list r =>
        .ok (if r.length < l.length then (.list r, true) else (.list l, false))
      | l, v => .error ⟨"cannot compute 'shortest' on \x7b:?\x7d and \x7b:?\x7d", [l, v]⟩

def aggrChoice : NormalAggrObj X where
  State := DataValue X
  default := .null
  set found value := .ok (if found.isNull then value else found)
  get found := .ok found

def meetAggrChoice : MeetAggrObj X where
  initVal := .null
  update left right :=
    .ok (if left.isNull && !right.isNull then (right, true) else (left, false))

def bitwise (name : String) (op : UInt8 → UInt8 → UInt8) : NormalAggrObj X where
  State := List UInt8
  default := []
  set res value :=
    match value with
    | .bytes bs =>
      if res.isEmpty then .ok bs
      else if res.length = bs.length then .ok (List.zipWith op res bs)
      else .error ⟨"operands of '" ++ name
        ++ "' must have the same lengths, got \x7b:x?\x7d and \x7b:x?\x7d", [.bytes res, .bytes bs]⟩
    | v => .error ⟨"cannot apply '" ++ name ++ "' to \x7b:?\x7d", [v]⟩
  get res := .ok (.bytes res)

def meetBitwise (name : String) (op : UInt8 → UInt8 → UInt8) : MeetAggrObj X where
  initVal := .bytes []
  update left right :=
    match left, right with
    | .bytes left, .bytes right =>
      if left = right then .ok (.bytes left, false)
      else if left.isEmpty then .ok (.bytes right, true)
      else if left.length = right.length then .ok (.bytes (List.zipWith op left right), true)
      else .error ⟨"operands of '" ++ name
        ++ "' must have the same lengths, got \x7b:x?\x7d and \x7b:x?\x7d",
        [.bytes left, .bytes right]⟩
    | u, v => .error ⟨"cannot apply '" ++ name ++ "' to \x7b:?\x7d", [u, v]⟩

def aggrBitAnd : NormalAggrObj X := bitwise "bit_and" (· &&& ·)
def meetAggrBitAnd : MeetAggrObj X := meetBitwise "bit_and" (· &&& ·)
def aggrBitOr : NormalAggrObj X := bitwise "bit_or" (· ||| ·)
def meetAggrBitOr : MeetAggrObj X := meetBitwise "bit_or" (· ||| ·)

/-- The aggregations with `is_meet`. -/
inductive MeetAggr where
  | and | or | union | intersection | min | max | minCost | shortest | choice | bitAnd | bitOr
deriving DecidableEq

namespace MeetAggr

variable [Ord X]

/-- `Aggregation::normal_init`. -/
def normalOp : MeetAggr → NormalAggrObj X
  | and => aggrAnd
  | or => aggrOr
  | union => aggrUnion
  | intersection => aggrIntersection
  | min => aggrMin
  | max => aggrMax
  | minCost => aggrMinCost
  | shortest => aggrShortest
  | choice => aggrChoice
  | bitAnd => aggrBitAnd
  | bitOr => aggrBitOr

/-- `Aggregation::meet_init`. -/
def meetOp : MeetAggr → MeetAggrObj X
  | and => meetAggrAnd
  | or => meetAggrOr
  | union => meetAggrUnion
  | intersection => meetAggrIntersection
  | min => meetAggrMin
  | max => meetAggrMax
  | minCost => meetAggrMinCost
  | shortest => meetAggrShortest
  | choice => meetAggrChoice
  | bitAnd => meetAggrBitAnd
  | bitOr => meetAggrBitOr

end MeetAggr

/-- `Aggregation`: what the parser attaches to a head column. The implementations are created for
the parameters of the aggregation when an evaluation starts. -/
structure Aggregation (X : Type) where
  name : String
  isMeet : Bool
  normalInit : List (DataValue X) → Except (AggrError X) (NormalAggrObj X)
  meetInit : List (DataValue X) → Except (AggrError X) (MeetAggrObj X)

/-! ### Comparing the two folds -/

variable {vs : List (DataValue X)} {nv mv : DataValue X} {s s' : DataValue X × F64}
    {w : DataValue X} {f : F64} {g : F64}

theorem meetFoldFrom_cons {op : MeetAggrObj X} {v w r : DataValue X} :
    meetFoldFrom op v (w :: vs) = .ok r ↔
      ∃ v' changed, op.update v w = .ok (v', changed) ∧ meetFoldFrom op v' vs = .ok r := by
  simp only [meetFoldFrom, foldlM_cons, bind_ok]
  constructor
  · rintro ⟨v', ⟨⟨u, changed⟩, hu, hv⟩, hr⟩
    cases hv
    exact ⟨u, changed, hu, hr⟩
  · rintro ⟨v', changed, hu, hr⟩
    exact ⟨v', ⟨(v', changed), hu, rfl⟩, hr⟩

/-- **The step rule.** A relation between the accumulator of the normal fold and the stored value of
the meet fold that every pair of accepted steps preserves holds when both folds have run. -/
theorem foldlM_simulates {nop : NormalAggrObj X} {mop : MeetAggrObj X}
    (R : nop.State → DataValue X → Prop)
    (step : ∀ {s v w s' v' changed}, R s v → nop.set s w = .ok s' →
      mop.update v w = .ok (v', changed) → R s' v')
    {s s' : nop.State} {v v' : DataValue X} (h : R s v) (hn : vs.foldlM nop.set s = .ok s')
    (hm : meetFoldFrom mop v vs = .ok v') : R s' v' := by
  induction vs generalizing s v with
  | nil =>
    cases hn
    cases hm
    exact h
  | cons w vs ih =>
    rw [foldlM_cons, bind_ok] at hn
    obtain ⟨s₁, hs, hn⟩ := hn
    obtain ⟨v₁, changed, hv, hm⟩ := meetFoldFrom_cons.1 hm
    exact ih (step h hs hv) hn hm

/-- A pair of implementations agrees on all sequences when `get` of the accumulator is the stored
value after the first value and after every further step. -/
theorem normalFold_eq_of_simulates {nop : NormalAggrObj X} {mop : MeetAggrObj X}
    (init : nop.get nop.default = .ok mop.initVal)
    (first : ∀ {v s}, nop.set nop.default v = .ok s → nop.get s = .ok v)
    (step : ∀ {s v w s' v' changed}, nop.get s = .ok v → nop.set s w = .ok s' →
      mop.update v w = .ok (v', changed) → nop.get s' = .ok v')
    (hn : normalFold nop vs = .ok nv) (hm : meetFold mop vs = .ok mv) : nv = mv := by
  rw [normalFold, bind_ok] at hn
  obtain ⟨s', hs', hget⟩ := hn
  cases vs with
  | nil =>
    cases hs'
    cases hm
    exact Except.ok.inj (hget.symm.trans init)
  | cons v vs =>
    rw [foldlM_cons, bind_ok] at hs'
    obtain ⟨s, hs, hrest⟩ := hs'
    have hend : nop.get s' = .ok mv :=
      foldlM_simulates (fun s v => nop.get s = .ok v) step (first hs) hrest hm
    exact Except.ok.inj (hget.symm.trans hend)

theorem logical_agrees {name : String} {b : Bool} {op : Bool → Bool → Bool}
    (hunit : ∀ x, op b x = x) {nv mv : DataValue X}
    (hn : normalFold (logical name b op) vs = .ok nv)
    (hm : meetFold (meetLogical name b op) vs = .ok mv) : nv = mv := by
  refine normalFold_eq_of_simulates rfl ?_ ?_ hn hm
  · intro v s h
    cases v <;> simp only [logical, reduceCtorEq] at h
    cases h
    exact congrArg (fun x => Except.ok (DataValue.bool x)) (hunit _)
  · intro s v w s' v' changed hget hs hu
    cases hget
    cases w <;> simp only [logical, reduceCtorEq] at hs
    cases hs
    cases hu
    rfl

theorem extremum_agrees {replaces : F64 → F64 → Bool}
    (hn : normalFold (extremum replaces) vs = .ok nv)
    (hm : meetFold (meetExtremum replaces) vs = .ok mv) : nv = mv := by
  refine normalFold_eq_of_simulates rfl ?_ ?_ hn hm
  · intro v s h
    simp only [extremum, extremumStep] at h ⊢
    cases v <;> simp_all [isNull, bind, Except.bind, pure, Except.pure]
  · intro s v w s' v' changed hget hs hu
    cases hget
    -- both paths run the same step
    obtain ⟨u, hstep, hs⟩ := bind_ok.1 hs
    cases hs
    rw [show (meetExtremum replaces).update s w = extremumStep replaces s w from rfl] at hu
    rw [hstep] at hu
    cases hu
    rfl

theorem choice_agrees {nv mv : DataValue X} (hn : normalFold aggrChoice vs = .ok nv)
    (hm : meetFold meetAggrChoice vs = .ok mv) : nv = mv := by
  refine normalFold_eq_of_simulates rfl ?_ ?_ hn hm
  · intro v s h
    cases h
    rfl
  · intro s v w s' v' changed hget hs hu
    cases hget
    cases hs
    simp only [meetAggrChoice, Except.ok.injEq] at hu
    cases s <;> cases w <;> simp_all [isNull, aggrChoice]

theorem shortest_agrees {nv mv : DataValue X} (hn : normalFold aggrShortest vs = .ok nv)
    (hm : meetFold meetAggrShortest vs = .ok mv) : nv = mv := by
  refine normalFold_eq_of_simulates rfl ?_ ?_ hn hm
  · intro v s h
    cases v <;> simp_all [aggrShortest]
    cases h
    rfl
  · intro s v w s' v' changed hget hs hu
    cases hget
    -- the normal fold accepts lists only, so `Null` never comes in on the right
    cases w <;> simp only [aggrShortest, reduceCtorEq] at hs
    cases s with
    | none =>
      cases hs
      cases hu
      rfl
    | some found =>
      cases hs
      simp only [meetAggrShortest, Option.elim, isNull, Bool.false_and,
        Bool.false_eq_true, if_false, Except.ok.injEq] at hu
      split at hu <;> cases hu <;> simp_all [aggrShortest]

theorem zipWith_self {α : Type} {op : α → α → α} (hidem : ∀ x, op x x = x) (l : List α) :
    List.zipWith op l l = l := by
  induction l with
  | nil => rfl
  | cons x l ih => rw [zipWith_cons_cons, hidem, ih]

theorem bitwise_agrees {name : String} {op : UInt8 → UInt8 → UInt8} (hidem : ∀ x, op x x = x)
    (hn : normalFold (bitwise name op) vs = .ok nv)
    (hm : meetFold (meetBitwise name op) vs = .ok mv) : nv = mv := by
  refine normalFold_eq_of_simulates rfl ?_ ?_ hn hm
  · intro v s h
    cases v <;> simp only [bitwise, reduceCtorEq] at h
    cases h
    rfl
  · intro (s : List UInt8) v w (s' : List UInt8) v' changed hget hs hu
    cases hget
    cases w <;> simp only [bitwise, reduceCtorEq] at hs
    rename_i bs
    simp only [meetBitwise] at hu
    -- the meet stops early on equal operands, where the operation changes nothing
    by_cases heq : s = bs
    · subst heq
      rw [if_pos rfl] at hu
      rw [if_pos rfl, zipWith_self hidem] at hs
      cases hu
      split at hs <;> cases hs <;> rfl
    · rw [if_neg heq] at hu
      split at hs
      · rw [if_pos ‹_›] at hu
        cases hs
        cases hu
        rfl
      · rw [if_neg ‹_›] at hu
        split at hs
        · rw [if_pos ‹_›] at hu
          cases hs
          cases hu
          rfl
        · cases hs

/-! ### Union and intersection -/

variable {changed : Bool}

section Sets

variable [Ord X]

/-- The result of a `union` or `intersection` that has merged something is a `Set`. -/
def IsSet (v : DataValue X) : Prop := ∃ s, v = .set s

variable {v v' : DataValue X}

theorem IsSet.meetAggrUnion {w : DataValue X} (h : meetAggrUnion.update v w = .ok (v', changed)) :
    IsSet v' := by
  simp only [Retia.meetAggrUnion] at h
  split at h <;> cases h <;> exact ⟨_, rfl⟩

theorem IsSet.meetAggrIntersection {w : DataValue X} (hv : v.isNull = false) (hw : w.isNull = false)
    (h : meetAggrIntersection.update v w = .ok (v', changed)) : IsSet v' := by
  simp only [Retia.meetAggrIntersection, hv, hw, Bool.false_and, Bool.false_eq_true,
    if_false, intersectWith] at h
  split at h
  · split at h <;> cases h <;> exact ⟨_, rfl⟩
  · split at h <;> cases h <;> exact ⟨_, rfl⟩
  · cases h

/-- The one kind of input on which `union` and `intersection` agree: a single list, already in
strictly ascending order. -/
def SortedSingleton (vs : List (DataValue X)) : Prop :=
  ∃ l, vs = [.list l] ∧ SetSorted l

/-- What `union` and `intersection` have in common: the normal fold takes lists and returns a list,
the meet fold has a set after the first merge. -/
structure SetLike (nop : NormalAggrObj X) (mop : MeetAggrObj X) : Prop where
  /-- Only lists are accepted. -/
  set_list : ∀ {s w s'}, nop.set s w = .ok s' → ∃ l, w = .list l
  /-- A list is returned. -/
  get_list : ∀ s, ∃ l, nop.get s = .ok (.list l)
  /-- Without rows the meet does not give a list. -/
  init : ∀ l, mop.initVal ≠ .list l
  /-- A single list is returned in order and without duplicates. -/
  single : ∀ l, normalFold nop [.list l] = .ok (.list (collectSet l))
  /-- A merge leaves a set. -/
  update_isSet : ∀ {v l v' changed}, v.isNull = false → mop.update v (.list l) = .ok (v', changed) →
    IsSet v'

namespace SetLike

variable {nop : NormalAggrObj X} {mop : MeetAggrObj X}

variable {vs : List (DataValue X)}

theorem accepts_list (h : SetLike nop mop) {s s' : nop.State} (hn : vs.foldlM nop.set s = .ok s') :
    ∀ v ∈ vs, ∃ l, v = .list l := by
  induction vs generalizing s with
  | nil => simp
  | cons w vs ih =>
    rw [foldlM_cons, bind_ok] at hn
    obtain ⟨s₁, hs, hn⟩ := hn
    intro v hv
    rcases mem_cons.1 hv with rfl | hv
    · exact h.set_list hs
    · exact ih hn v hv

theorem isSet_meetFoldFrom (h : SetLike nop mop) (hv : IsSet v)
    (hvs : ∀ w ∈ vs, ∃ l, w = .list l) (hm : meetFoldFrom mop v vs = .ok v') : IsSet v' := by
  induction vs generalizing v with
  | nil =>
    cases hm
    exact hv
  | cons w vs ih =>
    obtain ⟨v₁, changed, hu, hrest⟩ := meetFoldFrom_cons.1 hm
    obtain ⟨l, rfl⟩ := hvs w (by simp)
    obtain ⟨s, rfl⟩ := hv
    exact ih (h.update_isSet rfl hu) (fun w hw => hvs w (by simp [hw])) hrest

theorem eq_iff [Std.TransOrd X] [Std.LawfulEqOrd X] (h : SetLike nop mop)
    {nv mv : DataValue X} (hn : normalFold nop vs = .ok nv)
    (hm : meetFold mop vs = .ok mv) : nv = mv ↔ SortedSingleton vs := by
  have hn' := hn
  rw [normalFold, bind_ok] at hn'
  obtain ⟨s, hs, hget⟩ := hn'
  obtain ⟨l, hl⟩ := h.get_list s
  obtain rfl : nv = .list l := Except.ok.inj (hget.symm.trans hl)
  have hlists := h.accepts_list hs
  match vs with
  | [] =>
    cases hm
    simp only [SortedSingleton, ne_cons_self, false_and, exists_false, iff_false]
    exact fun he => h.init l he.symm
  | [v] =>
    obtain ⟨l', rfl⟩ := hlists v (by simp)
    cases hm
    rw [h.single] at hn
    cases hn
    rw [DataValue.list.injEq, DataValue.collectSet_eq_iff]
    exact ⟨fun hsorted => ⟨l', rfl, hsorted⟩, by rintro ⟨_, ⟨⟩, hsorted⟩; exact hsorted⟩
  | v :: w :: vs =>
    -- the first merge makes a set, and every later one keeps it
    obtain ⟨v₁, changed, hu, hrest⟩ := meetFoldFrom_cons.1 hm
    obtain ⟨lv, rfl⟩ := hlists v (by simp)
    obtain ⟨lw, rfl⟩ := hlists w (by simp)
    have hset : IsSet mv := h.isSet_meetFoldFrom (h.update_isSet rfl hu)
      (fun w hw => hlists w (by simp [hw])) hrest
    obtain ⟨s', rfl⟩ := hset
    simp [SortedSingleton]

end SetLike

theorem setLike_union : SetLike (X := X) aggrUnion meetAggrUnion where
  set_list {s w s'} h := by
    cases w <;> simp only [aggrUnion, reduceCtorEq] at h
    exact ⟨_, rfl⟩
  get_list s := ⟨s, rfl⟩
  init l := by simp [meetAggrUnion]
  single l := rfl
  update_isSet _ h := IsSet.meetAggrUnion h

theorem setLike_intersection : SetLike (X := X) aggrIntersection meetAggrIntersection where
  set_list {s w s'} h := by
    cases w <;> simp only [aggrIntersection, reduceCtorEq] at h
    exact ⟨_, rfl⟩
  get_list s := ⟨s.getD [], rfl⟩
  init l := by simp [meetAggrIntersection]
  single l := rfl
  update_isSet hv h := IsSet.meetAggrIntersection hv rfl h

end Sets

/-! ### Minimal cost -/

/-- The cost of a `min_cost` entry `[value, cost]`. -/
def costOf : DataValue X → Option F64
  | .list [_, c] => c.getFloat
  | _ => none

/-- `Least vs y g`: the normal fold over `vs` ends with value `y` at cost `g`. Either no entry costs
less than infinity and the default stands, or `y` is the first entry of least cost; entries whose
cost is a NaN count for nothing. -/
def Least (vs : List (DataValue X)) (y : DataValue X) (g : F64) : Prop :=
  (y = .null ∧ g = F64.infinity ∧ ∀ q ∈ vs, ∀ f, costOf q = some f → F64.lt f F64.infinity = false) ∨
  ∃ before c after, vs = before ++ .list [y, c] :: after ∧ c.getFloat = some g ∧
    F64.lt g F64.infinity = true ∧
    (∀ q ∈ before, ∀ f, costOf q = some f → F64.le f g = false) ∧
    ∀ q ∈ after, ∀ f, costOf q = some f → F64.lt f g = false

/-- Nothing, or a sequence whose last entry has a NaN cost: what the meet fold forgets. -/
def EndsInNan (vs : List (DataValue X)) : Prop :=
  vs = [] ∨ ∃ init v f, vs = init ++ [v] ∧ costOf v = some f ∧ f.isNan = true

/-- `v`, of cost `f`, is the first entry of least cost among those after the last NaN. -/
structure LeastSinceNan (vs forgotten : List (DataValue X)) (v : DataValue X) (f : F64) : Prop where
  endsInNan : EndsInNan forgotten
  cost : costOf v = some f
  notNan : f.isNan = false
  split : ∃ before after, vs = forgotten ++ (before ++ v :: after) ∧
    (∀ q ∈ before, ∀ f', costOf q = some f' → F64.lt f f' = true) ∧
    ∀ q ∈ after, ∀ f', costOf q = some f' → F64.le f f' = true

/-- Where the two `min_cost` folds agree. The entry kept by the meet fold has a float cost, and what
it has forgotten by then is either more expensive or ends in the very same entry. -/
def MinCostAgrees (vs : List (DataValue X)) : Prop :=
  vs = [] ∨ ∃ forgotten x f y g, LeastSinceNan vs forgotten (.list [x, .num (.float f)]) f ∧
    Least forgotten y g ∧ (F64.lt f g = true ∨ (y = x ∧ g = f))

theorem aggrMinCostSet_eq_ok : aggrMinCostSet s w = .ok s' ↔ ∃ x c f, w = .list [x, c] ∧
    c.getFloat = some f ∧ s' = if F64.lt f s.2 then (x, f) else s := by
  constructor
  · intro h
    simp only [aggrMinCostSet] at h
    split at h
    · split at h
      · rename_i x c _ f hf
        exact ⟨x, c, f, rfl, hf, (Except.ok.inj h).symm⟩
      · cases h
    · cases h
    · cases h
  · rintro ⟨x, c, f, rfl, hf, rfl⟩
    simp [aggrMinCostSet, hf]

variable {x c : DataValue X}

theorem meetAggrMinCost_update {x' c' v' : DataValue X} {f f' : F64}
    (hf : c.getFloat = some f) (hf' : c'.getFloat = some f')
    (h : meetAggrMinCost.update (.list [x, c]) (.list [x', c']) = .ok (v', changed)) :
    v' = if F64.le f f' then .list [x, c] else .list [x', c'] := by
  simp only [meetAggrMinCost, hf, hf', Except.ok.injEq] at h
  split at h <;> cases h <;> simp_all

theorem minCost_keeps {s s' : DataValue X × F64}
    (h : ∀ q ∈ vs, ∀ f, costOf q = some f → F64.lt f s.2 = false)
    (hn : vs.foldlM aggrMinCostSet s = .ok s') : s' = s := by
  induction vs with
  | nil => exact (Except.ok.inj hn).symm
  | cons w vs ih =>
    rw [foldlM_cons, bind_ok] at hn
    obtain ⟨s₁, hs, hn⟩ := hn
    obtain ⟨x, c, f, rfl, hf, rfl⟩ := aggrMinCostSet_eq_ok.1 hs
    rw [h (.list [x, c]) (by simp) f hf] at hn
    exact ih (fun q hq => h q (by simp [hq])) hn

theorem minCost_stays_above {g : F64} (h : ∀ q ∈ vs, ∀ f, costOf q = some f → F64.le f g = false)
    (hg : F64.lt g s.2 = true)
    (hn : vs.foldlM aggrMinCostSet s = .ok s') : F64.lt g s'.2 = true := by
  induction vs generalizing s with
  | nil =>
    cases hn
    exact hg
  | cons w vs ih =>
    rw [foldlM_cons, bind_ok] at hn
    obtain ⟨s₁, hs, hn⟩ := hn
    obtain ⟨x, c, f, rfl, hf, rfl⟩ := aggrMinCostSet_eq_ok.1 hs
    refine ih (fun q hq => h q (by simp [hq])) ?_ hn
    split
    · rename_i hlt
      exact F64.lt_of_not_le (F64.lt_iff.1 hlt).1 (F64.lt_iff.1 hg).1 (h (.list [x, c]) (by simp) f hf)
    · exact hg

theorem minCost_finds {before after : List (DataValue X)} (hf : c.getFloat = some f)
    (hlt : F64.lt f s.2 = true)
    (hbefore : ∀ q ∈ before, ∀ f', costOf q = some f' → F64.le f' f = false)
    (hafter : ∀ q ∈ after, ∀ f', costOf q = some f' → F64.lt f' f = false)
    (hn : (before ++ .list [x, c] :: after).foldlM aggrMinCostSet s = .ok s') : s' = (x, f) := by
  rw [foldlM_append, bind_ok] at hn
  obtain ⟨s₁, hs₁, hn⟩ := hn
  have hlt₁ : F64.lt f s₁.2 = true := minCost_stays_above hbefore hlt hs₁
  rw [foldlM_cons, bind_ok] at hn
  obtain ⟨s₂, hs₂, hn⟩ := hn
  obtain ⟨x', c', f', he, hf', rfl⟩ := aggrMinCostSet_eq_ok.1 hs₂
  cases he
  obtain rfl : f = f' := Option.some.inj (hf.symm.trans hf')
  rw [hlt₁, if_pos rfl] at hn
  exact minCost_keeps hafter hn

variable {y : DataValue X}

theorem Least.foldlM_eq (h : Least vs y g) {s' : DataValue X × F64}
    (hn : vs.foldlM aggrMinCostSet (.null, F64.infinity) = .ok s') : s' = (y, g) := by
  rcases h with ⟨rfl, rfl, hnone⟩ | ⟨before, c, after, rfl, hc, hlt, hbefore, hafter⟩
  · exact minCost_keeps hnone hn
  · exact minCost_finds hc hlt hbefore hafter hn

theorem least_of_foldlM {s' : DataValue X × F64}
    (hn : vs.foldlM aggrMinCostSet (.null, F64.infinity) = .ok s') : Least vs s'.1 s'.2 := by
  induction vs using List.reverseRecOn generalizing s' with
  | nil =>
    cases hn
    exact .inl ⟨rfl, rfl, by simp⟩
  | append_singleton vs w ih =>
    rw [foldlM_append, bind_ok] at hn
    obtain ⟨s, hs, hn⟩ := hn
    rw [foldlM_cons, bind_ok] at hn
    obtain ⟨s₁, hs₁, hn⟩ := hn
    cases hn
    obtain ⟨x, c, f, rfl, hf, rfl⟩ := aggrMinCostSet_eq_ok.1 hs₁
    have hleast := ih hs
    by_cases hlt : F64.lt f s.2 = true
    · -- cheaper than all before it
      rw [if_pos hlt]
      refine .inr ⟨vs, c, [], by simp, hf, ?_, ?_, by simp⟩
      · rcases hleast with ⟨_, hg, _⟩ | ⟨_, _, _, _, _, hg, _⟩
        · rwa [hg] at hlt
        · exact F64.lt_trans hlt hg
      · intro q hq f' hf'
        rw [← Bool.not_eq_true]
        intro hle
        have hlt' : F64.lt f' s.2 = true := F64.lt_of_le_of_lt hle hlt
        rcases hleast with ⟨_, hg, hnone⟩ | ⟨before, c', after, rfl, hc', _, hbefore, hafter⟩
        · rw [hg, hnone q hq f' hf'] at hlt'
          cases hlt'
        · rcases mem_append.1 hq with hq | hq
          · exact absurd (F64.le_of_lt hlt') (by simp [hbefore q hq f' hf'])
          · rcases mem_cons.1 hq with rfl | hq
            · obtain rfl : s.2 = f' := Option.some.inj (hc'.symm.trans hf')
              exact absurd hle (by simp [F64.not_le_of_lt hlt])
            · exact absurd hlt' (by simp [hafter q hq f' hf'])
    · rw [if_neg hlt]
      have hw : ∀ f', costOf (.list [x, c]) = some f' → F64.lt f' s.2 = false := by
        intro f' hf'
        obtain rfl : f = f' := Option.some.inj (hf.symm.trans hf')
        exact Bool.eq_false_iff.2 hlt
      rcases hleast with ⟨hy, hg, hnone⟩ | ⟨before, c', after, rfl, hc', hg, hbefore, hafter⟩
      · refine .inl ⟨hy, hg, fun q hq => ?_⟩
        rcases mem_append.1 hq with hq | hq
        · exact hnone q hq
        · obtain rfl := mem_singleton.1 hq
          rwa [hg] at hw
      · refine .inr ⟨before, c', after ++ [.list [x, c]], by simp, hc', hg, hbefore, fun q hq => ?_⟩
        rcases mem_append.1 hq with hq | hq
        · exact hafter q hq
        · obtain rfl := mem_singleton.1 hq
          exact hw

theorem Least.isNan (h : Least vs y g) : g.isNan = false := by
  rcases h with ⟨_, rfl, _⟩ | ⟨_, _, _, _, _, hg, _⟩
  · exact F64.isNan_infinity
  · exact (F64.lt_iff.1 hg).1

theorem meetFold_append {op : MeetAggrObj X} {l r : List (DataValue X)} (hl : l ≠ []) :
    meetFold op (l ++ r) = .ok w ↔ ∃ m, meetFold op l = .ok m ∧ meetFoldFrom op m r = .ok w := by
  cases l with
  | nil => exact absurd rfl hl
  | cons v l =>
    rw [cons_append]
    simp only [meetFold, meetFoldFrom, foldlM_append, bind_ok]

/-- `min_cost` entries: pairs with a numeric cost. -/
def IsEntry (v : DataValue X) : Prop := ∃ x c f, v = .list [x, c] ∧ c.getFloat = some f

theorem isEntry_of_foldlM {s s' : DataValue X × F64} (hn : vs.foldlM aggrMinCostSet s = .ok s') :
    ∀ v ∈ vs, IsEntry v := by
  induction vs generalizing s with
  | nil => simp
  | cons w vs ih =>
    rw [foldlM_cons, bind_ok] at hn
    obtain ⟨s₁, hs, hn⟩ := hn
    obtain ⟨x, c, f, rfl, hf, _⟩ := aggrMinCostSet_eq_ok.1 hs
    intro v hv
    rcases mem_cons.1 hv with rfl | hv
    · exact ⟨x, c, f, rfl, hf⟩
    · exact ih hn v hv

theorem IsEntry.costOf {v : DataValue X} (h : IsEntry v) : ∃ f, costOf v = some f := by
  obtain ⟨x, c, f, rfl, hf⟩ := h
  exact ⟨f, hf⟩

theorem IsEntry.update {v w v' : DataValue X} {f f' : F64} (hv : IsEntry v)
    (hw : IsEntry w) (hf : Retia.costOf v = some f) (hf' : Retia.costOf w = some f')
    (h : meetAggrMinCost.update v w = .ok (v', changed)) : v' = if F64.le f f' then v else w := by
  obtain ⟨x, c, _, rfl, _⟩ := hv
  obtain ⟨x', c', _, rfl, _⟩ := hw
  exact meetAggrMinCost_update hf hf' h

theorem meetMinCost_keeps {v v' : DataValue X} (hv : IsEntry v) (hf : costOf v = some f)
    (hvs : ∀ w ∈ vs, IsEntry w)
    (h : ∀ q ∈ vs, ∀ f', costOf q = some f' → F64.le f f' = true)
    (hm : meetFoldFrom meetAggrMinCost v vs = .ok v') : v' = v := by
  induction vs with
  | nil => exact (Except.ok.inj hm).symm
  | cons w vs ih =>
    obtain ⟨v₁, changed, hu, hrest⟩ := meetFoldFrom_cons.1 hm
    obtain ⟨f', hf'⟩ := (hvs w (by simp)).costOf
    have hv₁ := hv.update (hvs w (by simp)) hf hf' hu
    rw [h w (by simp) f' hf', if_pos rfl] at hv₁
    rw [hv₁] at hrest
    exact ih (fun w hw => hvs w (by simp [hw])) (fun q hq => h q (by simp [hq])) hrest

/-- What the meet fold holds after `vs`: the first least entry since the last NaN, or a NaN that
came last. -/
def MeetHolds (vs : List (DataValue X)) (m : DataValue X) : Prop :=
  (∃ forgotten f, LeastSinceNan vs forgotten m f) ∨ ∃ init f, vs = init ++ [m] ∧
    costOf m = some f ∧ f.isNan = true

variable {m : DataValue X}

theorem MeetHolds.mem (h : MeetHolds vs m) : m ∈ vs := by
  rcases h with ⟨_, _, h⟩ | ⟨init, _, rfl, _⟩
  · obtain ⟨before, after, rfl, _⟩ := h.split
    simp
  · simp

theorem meetHolds_fresh (hvs : EndsInNan vs) (hw : IsEntry w) : MeetHolds (vs ++ [w]) w := by
  obtain ⟨f, hf⟩ := hw.costOf
  by_cases hnan : f.isNan = true
  · exact .inr ⟨vs, f, rfl, hf, hnan⟩
  · exact .inl ⟨vs, f, hvs, hf, Bool.eq_false_iff.2 hnan, [], [], rfl, by simp, by simp⟩

theorem MeetHolds.step {vs : List (DataValue X)} {w v' : DataValue X}
    (h : MeetHolds vs m) (hm : IsEntry m) (hw : IsEntry w)
    (hu : meetAggrMinCost.update m w = .ok (v', changed)) : MeetHolds (vs ++ [w]) v' := by
  obtain ⟨f', hf'⟩ := hw.costOf
  rcases h with ⟨forgotten, f, h⟩ | ⟨init, f, rfl, hf, hnan⟩
  · have hv' := hm.update hw h.cost hf' hu
    obtain ⟨before, after, rfl, hbefore, hafter⟩ := h.split
    by_cases hle : F64.le f f' = true
    · -- not cheaper: it joins the entries after the one held
      rw [if_pos hle] at hv'
      subst hv'
      refine .inl ⟨forgotten, f, h.endsInNan, h.cost, h.notNan, before, after ++ [w], by simp,
        hbefore, fun q hq f₁ hf₁ => ?_⟩
      rcases mem_append.1 hq with hq | hq
      · exact hafter q hq f₁ hf₁
      · obtain rfl := mem_singleton.1 hq
        obtain rfl : f' = f₁ := Option.some.inj (hf'.symm.trans hf₁)
        exact hle
    · rw [if_neg hle] at hv'
      subst hv'
      by_cases hnan : f'.isNan = true
      · exact .inr ⟨_, f', rfl, hf', hnan⟩
      · -- cheaper than the one held, and so than all since the last NaN
        rw [Bool.not_eq_true] at hnan hle
        have hlt : F64.lt f' f = true := F64.lt_of_not_le h.notNan hnan hle
        refine .inl ⟨forgotten, f', h.endsInNan, hf', hnan, before ++ m :: after, [], by simp,
          fun q hq f₁ hf₁ => ?_, by simp⟩
        rcases mem_append.1 hq with hq | hq
        · exact F64.lt_trans hlt (hbefore q hq f₁ hf₁)
        · rcases mem_cons.1 hq with rfl | hq
          · obtain rfl : f = f₁ := Option.some.inj (h.cost.symm.trans hf₁)
            exact hlt
          · exact F64.lt_of_lt_of_le hlt (hafter q hq f₁ hf₁)
  · -- a NaN is replaced by anything
    have hv' := hm.update hw hf hf' hu
    rw [F64.not_le_of_isNan_left hnan, if_neg (by simp)] at hv'
    subst hv'
    exact meetHolds_fresh (.inr ⟨init, m, f, rfl, hf, hnan⟩) hw

theorem meetHolds_meetFold {mv : DataValue X} (hvs : ∀ w ∈ vs, IsEntry w)
    (hne : vs ≠ []) (hm : meetFold meetAggrMinCost vs = .ok mv) : MeetHolds vs mv := by
  induction vs using List.reverseRecOn generalizing mv with
  | nil => exact absurd rfl hne
  | append_singleton vs w ih =>
    have hw : IsEntry w := hvs w (by simp)
    have hvs' : ∀ w ∈ vs, IsEntry w := fun w hw => hvs w (by simp [hw])
    by_cases hnil : vs = []
    · subst hnil
      obtain rfl : w = mv := Except.ok.inj hm
      exact meetHolds_fresh (.inl rfl) hw
    · obtain ⟨m, hm₀, hrest⟩ := (meetFold_append hnil).1 hm
      obtain ⟨v₁, changed, hu, hrest⟩ := meetFoldFrom_cons.1 hrest
      cases hrest
      have hholds := ih hvs' hnil hm₀
      exact hholds.step (hvs' m hholds.mem) hw hu

/-- A run of the meet fold from an entry that does not cost at most `f` finds the first entry of
cost `f` when those before it are more expensive and those after it are not cheaper. -/
theorem meetMinCost_finds {before after : List (DataValue X)} {v mv : DataValue X} {c f : F64}
    (hm : IsEntry m) (hc : costOf m = some c) (hle : F64.le c f = false)
    (hv : IsEntry v) (hf : costOf v = some f) (hentries : ∀ w ∈ before ++ v :: after, IsEntry w)
    (hbefore : ∀ q ∈ before, ∀ f', costOf q = some f' → F64.lt f f' = true)
    (hafter : ∀ q ∈ after, ∀ f', costOf q = some f' → F64.le f f' = true)
    (hrun : meetFoldFrom meetAggrMinCost m (before ++ v :: after) = .ok mv) : mv = v := by
  induction before generalizing m c with
  | nil =>
    obtain ⟨v₁, changed, hu, hrest⟩ := meetFoldFrom_cons.1 hrun
    have hv₁ := hm.update hv hc hf hu
    rw [hle, if_neg (by simp)] at hv₁
    subst hv₁
    exact meetMinCost_keeps hv hf (fun w hw => hentries w (by simp [hw])) hafter hrest
  | cons q before ih =>
    obtain ⟨v₁, changed, hu, hrest⟩ := meetFoldFrom_cons.1 hrun
    have hq : IsEntry q := hentries q (by simp)
    obtain ⟨f', hf'⟩ := hq.costOf
    have hv₁ := hm.update hq hc hf' hu
    have hentries' : ∀ w ∈ before ++ v :: after, IsEntry w :=
      fun w hw => hentries w (mem_cons_of_mem _ hw)
    have hbefore' := fun q' hq' => hbefore q' (mem_cons_of_mem _ hq')
    split at hv₁ <;> rw [hv₁] at hrest
    · exact ih hm hc hle hentries' hbefore' hrest
    · exact ih hq hf' (F64.not_le_of_lt (hbefore q (by simp) f' hf')) hentries' hbefore' hrest

theorem meetFold_of_isNan {init : List (DataValue X)} {u : DataValue X}
    (hentries : ∀ w ∈ init ++ [u], IsEntry w) (hu : costOf u = some f) (hnan : f.isNan = true)
    (hm : meetFold meetAggrMinCost (init ++ [u]) = .ok m) : m = u := by
  by_cases hnil : init = []
  · subst hnil
    exact (Except.ok.inj hm).symm
  · obtain ⟨m₀, hm₀, hrest⟩ := (meetFold_append hnil).1 hm
    obtain ⟨v₁, changed, hupd, hrest⟩ := meetFoldFrom_cons.1 hrest
    cases hrest
    have hinit : ∀ w ∈ init, IsEntry w := fun w hw => hentries w (by simp [hw])
    have hentry : IsEntry m₀ := hinit m₀ (meetHolds_meetFold hinit hnil hm₀).mem
    obtain ⟨f₀, hf₀⟩ := hentry.costOf
    have := hentry.update (hentries u (by simp)) hf₀ hu hupd
    rwa [F64.not_le_of_isNan_right hnan, if_neg (by simp)] at this

theorem LeastSinceNan.meetFold_eq {vs forgotten : List (DataValue X)} {v mv : DataValue X}
    (h : LeastSinceNan vs forgotten v f) (hvs : ∀ w ∈ vs, IsEntry w)
    (hm : meetFold meetAggrMinCost vs = .ok mv) : mv = v := by
  obtain ⟨before, after, rfl, hbefore, hafter⟩ := h.split
  have hv : IsEntry v := hvs v (by simp)
  have hsince : ∀ w ∈ before ++ v :: after, IsEntry w := fun w hw => hvs w (by
    rw [mem_append]
    exact .inr hw)
  rcases h.endsInNan with rfl | ⟨init, u, fu, rfl, hu, hnan⟩
  · cases before with
    | nil => exact meetMinCost_keeps hv h.cost (fun w hw => hvs w (by simp [hw])) hafter hm
    | cons q before =>
      have hq : IsEntry q := hvs q (by simp)
      obtain ⟨f', hf'⟩ := hq.costOf
      exact meetMinCost_finds hq hf' (F64.not_le_of_lt (hbefore q (by simp) f' hf')) hv h.cost
        (fun w hw => hsince w (mem_cons_of_mem _ hw))
        (fun q' hq' => hbefore q' (mem_cons_of_mem _ hq')) hafter hm
  · obtain ⟨m, hm₀, hrest⟩ := (meetFold_append (by simp)).1 hm
    have hinit : ∀ w ∈ init ++ [u], IsEntry w := fun w hw => hvs w (by
      rw [mem_append]
      exact .inl hw)
    obtain rfl := meetFold_of_isNan hinit hu hnan hm₀
    exact meetMinCost_finds (hinit m (by simp)) hu
      (F64.not_le_of_isNan_left hnan) hv h.cost hsince hbefore hafter hrest

theorem LeastSinceNan.foldlM_eq {vs forgotten : List (DataValue X)}
    {f g : F64} {s' : DataValue X × F64} (h : LeastSinceNan vs forgotten (.list [x, c]) f)
    (hleast : Least forgotten y g)
    (hn : vs.foldlM aggrMinCostSet (.null, F64.infinity) = .ok s') :
    s' = if F64.lt f g then (x, f) else (y, g) := by
  obtain ⟨before, after, rfl, hbefore, hafter⟩ := h.split
  rw [foldlM_append, bind_ok] at hn
  obtain ⟨s₀, hs₀, hn⟩ := hn
  obtain rfl := hleast.foldlM_eq hs₀
  split
  · rename_i hlt
    exact minCost_finds h.cost hlt (fun q hq f' hf' => F64.not_le_of_lt (hbefore q hq f' hf'))
      (fun q hq f' hf' => F64.not_lt_of_le (hafter q hq f' hf')) hn
  · -- nothing since is cheaper than what was found before
    rename_i hlt
    have hgf : F64.le g f = true :=
      F64.le_of_not_lt h.notNan hleast.isNan (Bool.eq_false_iff.2 hlt)
    refine minCost_keeps (fun q hq f' hf' => ?_) hn
    rcases mem_append.1 hq with hq | hq
    · exact F64.not_lt_of_le (F64.le_of_lt (F64.lt_of_le_of_lt hgf (hbefore q hq f' hf')))
    · rcases mem_cons.1 hq with rfl | hq
      · obtain rfl : f = f' := Option.some.inj (h.cost.symm.trans hf')
        exact Bool.eq_false_iff.2 hlt
      · exact F64.not_lt_of_le (F64.le_trans hgf (hafter q hq f' hf'))

theorem normalFold_aggrMinCost {nv : DataValue X} (hn : normalFold aggrMinCost vs = .ok nv) :
    ∃ s : DataValue X × F64,
      vs.foldlM aggrMinCostSet (.null, F64.infinity) = .ok s ∧
      nv = .list [s.1, .num (.float s.2)] := by
  obtain ⟨s, hs, hget⟩ := bind_ok.1 hn
  exact ⟨s, hs, (Except.ok.inj hget).symm⟩

theorem minCost_eq_iff {nv mv : DataValue X} (hn : normalFold aggrMinCost vs = .ok nv)
    (hm : meetFold meetAggrMinCost vs = .ok mv) : nv = mv ↔ MinCostAgrees vs := by
  obtain ⟨s, hs, rfl⟩ := normalFold_aggrMinCost hn
  have hvs : ∀ w ∈ vs, IsEntry w := isEntry_of_foldlM hs
  by_cases hnil : vs = []
  · subst hnil
    cases hs
    cases hm
    exact ⟨fun _ => .inl rfl, fun _ => rfl⟩
  constructor
  · intro heq
    have hcost : costOf mv = some s.2 := by rw [← heq]; rfl
    rcases meetHolds_meetFold hvs hnil hm with ⟨forgotten, f, h⟩ | ⟨init, f, _, hf, hnan⟩
    · obtain rfl : f = s.2 := Option.some.inj (h.cost.symm.trans hcost)
      rw [← heq] at h
      obtain ⟨before, after, hsplit, _⟩ := h.split
      have hs' := hs
      rw [hsplit, foldlM_append, bind_ok] at hs'
      obtain ⟨s₀, hs₀, _⟩ := hs'
      have hleast := least_of_foldlM hs₀
      refine .inr ⟨forgotten, s.1, s.2, s₀.1, s₀.2, h, hleast, ?_⟩
      have hend := h.foldlM_eq hleast hs
      split at hend
      · exact .inl ‹_›
      · exact .inr (by rw [hend]; exact ⟨rfl, rfl⟩)
    · -- the normal fold never ends with a NaN
      obtain rfl : f = s.2 := Option.some.inj (hf.symm.trans hcost)
      rw [(least_of_foldlM hs).isNan] at hnan
      cases hnan
  · rintro (rfl | ⟨forgotten, x, f, y, g, h, hleast, hor⟩)
    · exact absurd rfl hnil
    · rw [h.meetFold_eq hvs hm, h.foldlM_eq hleast hs]
      rcases hor with hlt | ⟨rfl, rfl⟩
      · rw [if_pos hlt]
      · rw [ite_self]

/-! ### Where the two paths agree -/

/-- The inputs on which the normal and the meet implementation of an aggregation agree. -/
def MeetAggr.Agrees [Ord X] (a : MeetAggr) (vs : List (DataValue X)) : Prop :=
  match a with
  | .union | .intersection => SortedSingleton vs
  | .minCost => MinCostAgrees vs
  | .and | .or | .min | .max | .shortest | .choice | .bitAnd | .bitOr => True

/-- **The two paths of an aggregation.** On every sequence of values both paths accept, they end
with the same value exactly when the sequence is one of `Agrees`. -/
theorem normalFold_eq_meetFold_iff [Ord X] [Std.TransOrd X] [Std.LawfulEqOrd X] (a : MeetAggr)
    {vs : List (DataValue X)} {nv mv : DataValue X} (hn : normalFold a.normalOp vs = .ok nv)
    (hm : meetFold a.meetOp vs = .ok mv) : nv = mv ↔ a.Agrees vs := by
  cases a with
  | and => exact iff_of_true (logical_agrees Bool.true_and hn hm) trivial
  | or => exact iff_of_true (logical_agrees Bool.false_or hn hm) trivial
  | union => exact setLike_union.eq_iff hn hm
  | intersection => exact setLike_intersection.eq_iff hn hm
  | min | max => exact iff_of_true (extremum_agrees hn hm) trivial
  | minCost => exact minCost_eq_iff hn hm
  | shortest => exact iff_of_true (shortest_agrees hn hm) trivial
  | choice => exact iff_of_true (choice_agrees hn hm) trivial
  | bitAnd => exact iff_of_true (bitwise_agrees (fun _ => UInt8.and_self) hn hm) trivial
  | bitOr => exact iff_of_true (bitwise_agrees (fun _ => UInt8.or_self) hn hm) trivial

/-- One ascending list: both paths of `union` return it. -/
theorem union_of_ascending_list :
    normalFold MeetAggr.union.normalOp [(.list [.bool false, .bool true] : DataValue Nat)] =
      .ok (.list [.bool false, .bool true]) ∧
    meetFold MeetAggr.union.meetOp [(.list [.bool false, .bool true] : DataValue Nat)] =
    .ok (.list [.bool false, .bool true]) ∧
    MeetAggr.union.Agrees [(.list [.bool false, .bool true] : DataValue Nat)] :=
  ⟨rfl, rfl, (normalFold_eq_meetFold_iff (X := Nat) .union rfl rfl).1 rfl⟩

/-- Two lists: the normal `union` is a `List`, the meet `union` a `Set`. And one entry of integer
cost: the normal `min_cost` has turned the cost into a float, the meet has not. -/
theorem union_of_two_lists_differs : (∃ nv mv : DataValue Nat,
      normalFold MeetAggr.union.normalOp [.list [.num (.int 1)], .list [.num (.int 2)]] = .ok nv ∧
      meetFold MeetAggr.union.meetOp [.list [.num (.int 1)], .list [.num (.int 2)]] = .ok mv ∧
      nv ≠ mv) ∧
    ∃ nv mv : DataValue Nat, normalFold MeetAggr.minCost.normalOp
    [.list [.bool true, .num (.int 1)]] = .ok nv ∧
      meetFold MeetAggr.minCost.meetOp [.list [.bool true, .num (.int 1)]] = .ok mv ∧ nv ≠ mv := by
  refine ⟨⟨.list [.num (.int 1), .num (.int 2)], .set [.num (.int 1), .num (.int 2)], rfl, rfl, ?_⟩,
    .list [.bool true, .num (.float (F64.ofInt64 1))], .list [.bool true, .num (.int 1)], rfl, rfl,
    ?_⟩
  · simp
  · simp

end Retia
