import Retia.Lib.Except
import Retia.Data.Expr
import Retia.Query.RA

/-!
# Ordering the atoms of a rule body

`query/reorder.rs`: `convert_to_well_ordered_rule` puts the atoms of a normalised body into an order
in which predicates, unifications and searches find their variables bound. The first round goes
through the body as it is written and takes the atoms that bind variables, except unifications and
searches that are not ready yet. The second round puts these in place one by one, and after each of
them goes once through the atoms left over, in case one of them has become ready. What is left at
the end is rejected, except negated atoms of which some variable is bound.

A unification that becomes ready in the second round is put in place, but the variable it binds is
not added to `seen_variables`, whereas those of a search are. An atom that needs this variable is
rejected then, although the order that the code is looking for exists. The same body is accepted
when it is written the other way round.

* `WellOrdered` — each atom needs only variables that earlier atoms bind;
* `Settled` — the atoms left over by the first round are put in place by the passes of the second
  one;
* `reorder_iff` — the code finds an order whenever there is one exactly under this condition; if no
  search is left over, the condition is that the variables bound by the sources in place are enough
  for all other atoms.
-/

namespace Retia

open List

variable {X : Type}

/-! ### The atoms -/

/-- `Unification`. -/
structure Unification (X : Type) where
  binding : Symbol
  expr : Expr X
  oneManyUnif : Bool

namespace Unification

/-- `is_const`. -/
def isConst (u : Unification X) : Bool :=
  match u.expr with
  | .const _ => true
  | _ => false

/-- `bindings_in_expr`. -/
def bindingsInExpr (u : Unification X) : Except (EvalError X) (List Symbol) := u.expr.bindings

end Unification

/-- `NormalFormAtom`. The three kinds of search are treated alike; `allBindings` are the variables
of `all_bindings`. -/
inductive NormalFormAtom (X : Type) where
  | rule (name : Symbol) (args : List Symbol)
  | relation (name : Symbol) (args : List Symbol) (validAt : Option Int64)
  | negatedRule (name : Symbol) (args : List Symbol)
  | negatedRelation (name : Symbol) (args : List Symbol) (validAt : Option Int64)
  | predicate (p : Expr X)
  | unification (u : Unification X)
  | search (s : Search X) (allBindings : List Symbol)

inductive ReorderError (X : Type) where
  /-- `UnsafeNegation`. -/
  | unsafeNegation
  /-- `UnboundVariable`. -/
  | unboundVariable
  /-- The variables of an expression could not be collected. -/
  | eval (err : EvalError X)
  /-- `unreachable!()`. -/
  | unreachable

open NormalFormAtom

/-! ### The rounds -/

/-- The variables of the rounds: `seen_variables`, the atoms in place and the atoms left over. -/
structure Placement (X : Type) where
  seen : List Symbol
  collected : List (NormalFormAtom X)
  pending : List (NormalFormAtom X)

namespace Placement

def collect (s : Placement X) (a : NormalFormAtom X) (bound : List Symbol) : Placement X :=
  { s with seen := s.seen ++ bound, collected := s.collected ++ [a] }

def postpone (s : Placement X) (a : NormalFormAtom X) : Placement X :=
  { s with pending := s.pending ++ [a] }

def collectIf (s : Placement X) (a : NormalFormAtom X) (vars bound : List Symbol) : Placement X :=
  if vars.all (s.seen.contains ·) then s.collect a bound else s.postpone a

def firstRound (s : Placement X) : NormalFormAtom X → Except (ReorderError X) (Placement X)
  | .unification u =>
    if u.isConst then .ok (s.collect (.unification u) [u.binding])
    else do
      let unifVars ← u.bindingsInExpr.mapError .eval
      return s.collectIf (.unification u) unifVars [u.binding]
  | .rule name args => .ok (s.collect (.rule name args) args)
  | .relation name args validAt => .ok (s.collect (.relation name args validAt) args)
  | .negatedRule name args => .ok (s.postpone (.negatedRule name args))
  | .negatedRelation name args validAt => .ok (s.postpone (.negatedRelation name args validAt))
  | .predicate p => .ok (s.postpone (.predicate p))
  | .search se allBindings => .ok (s.collectIf (.search se allBindings) [se.query] allBindings)

/-- The second round, for an atom left over. The variable of a unification is not added to those
seen. -/
def retry (s : Placement X) : NormalFormAtom X → Except (ReorderError X) (Placement X)
  | .rule _ _ | .relation _ _ _ => .error .unreachable
  | .negatedRule name args => .ok (s.collectIf (.negatedRule name args) args [])
  | .negatedRelation name args validAt => .ok (s.collectIf (.negatedRelation name args validAt) args [])
  | .search se allBindings => .ok (s.collectIf (.search se allBindings) [se.query] allBindings)
  | .predicate p => do return s.collectIf (.predicate p) (← p.bindings.mapError .eval) []
  | .unification u => do return s.collectIf (.unification u) (← u.bindingsInExpr.mapError .eval) []

def settle (s : Placement X) : NormalFormAtom X → Except (ReorderError X) (Placement X)
  | .rule name args => .ok (s.collect (.rule name args) args)
  | .relation name args validAt => .ok (s.collect (.relation name args validAt) args)
  | .negatedRule _ _ | .negatedRelation _ _ _ | .predicate _ => .error .unreachable
  | .unification u => .ok (s.collect (.unification u) [u.binding])
  | .search se allBindings => .ok (s.collect (.search se allBindings) allBindings)

def secondRound (s : Placement X) (a : NormalFormAtom X) :
    Except (ReorderError X) (Placement X) := do
  let settled ← { s with pending := [] }.settle a
  s.pending.foldlM retry settled

def lastRound (seen : List Symbol) (collected : List (NormalFormAtom X)) :
    NormalFormAtom X → Except (ReorderError X) (List (NormalFormAtom X))
  | .rule _ _ | .relation _ _ _ => .error .unreachable
  | .negatedRule name args =>
    if args.any (seen.contains ·) then .ok (collected ++ [.negatedRule name args])
      else .error .unsafeNegation
  | .negatedRelation name args validAt =>
    if args.any (seen.contains ·) then .ok (collected ++ [.negatedRelation name args validAt])
    else .error .unsafeNegation
  | .predicate _ | .unification _ | .search _ _ => .error .unboundVariable

end Placement

open Placement

/-- `convert_to_well_ordered_rule`, on the body of the rule; its head and its aggregations stay as
they are. -/
def convertToWellOrderedRule (body : List (NormalFormAtom X)) :
    Except (ReorderError X) (List (NormalFormAtom X)) := do
  let first ← body.foldlM firstRound ⟨[], [], []⟩
  let second ← first.collected.foldlM secondRound ⟨[], [], first.pending⟩
  second.pending.foldlM (lastRound second.seen) second.collected

/-! ### What is asked of the order -/

namespace NormalFormAtom

/-- The variables an atom needs: those of a predicate, of the source of a unification and of the
query of a search. -/
def needs : NormalFormAtom X → Except (EvalError X) (List Symbol)
  | predicate p => p.bindings
  | unification u => u.bindingsInExpr
  | search s _ => .ok [s.query]
  | rule _ _ | relation _ _ _ | negatedRule _ _ | negatedRelation _ _ _ => .ok []

def binds : NormalFormAtom X → List Symbol
  | rule _ args | relation _ args _ => args
  | unification u => [u.binding]
  | search _ allBindings => allBindings
  | negatedRule _ _ | negatedRelation _ _ _ | predicate _ => []

def ready (bound : List Symbol) (a : NormalFormAtom X) : Bool :=
  match a.needs with
  | .ok vars => vars.all (bound.contains ·)
  | .error _ => false

def partlyBound (bound : List Symbol) : NormalFormAtom X → Bool
  | negatedRule _ args | negatedRelation _ args _ => args.any (bound.contains ·)
  | _ => true

end NormalFormAtom

def boundBy (l : List (NormalFormAtom X)) : List Symbol := l.flatMap binds

def Throughout (P : List Symbol → NormalFormAtom X → Bool) (bound : List Symbol) :
    List (NormalFormAtom X) → Prop
  | [] => True
  | a :: l => P bound a = true ∧ Throughout P (bound ++ a.binds) l

/-- Each atom needs only variables that earlier atoms bind. -/
def WellOrdered (l : List (NormalFormAtom X)) : Prop := Throughout ready [] l

/-- A well-ordered body in which also every negated atom is at least partially bound. -/
def Admissible (l : List (NormalFormAtom X)) : Prop :=
  Throughout (fun bound a => a.ready bound && a.partlyBound bound) [] l

/-- **Reordering is correct** for a body: what it returns is a well-ordered permutation, and it
succeeds if there is an admissible one. -/
structure ReorderCorrect (body : List (NormalFormAtom X)) : Prop where
  ordered : ∀ r, convertToWellOrderedRule body = .ok r → r.Perm body ∧ WellOrdered r
  accepts : (∃ l : List (NormalFormAtom X), l.Perm body ∧ Admissible l) →
    ∃ r, convertToWellOrderedRule body = .ok r

/-! ### The condition -/

def NormalFormAtom.isSource : NormalFormAtom X → Bool
  | rule _ _ | relation _ _ _ | unification _ | search _ _ => true
  | negatedRule _ _ | negatedRelation _ _ _ | predicate _ => false

def inPlace (bound : List Symbol) : List (NormalFormAtom X) → List (NormalFormAtom X)
  | [] => []
  | a :: l => if a.isSource && a.ready bound then a :: inPlace (bound ++ a.binds) l else inPlace bound l

def leftOver (bound : List Symbol) : List (NormalFormAtom X) → List (NormalFormAtom X)
  | [] => []
  | a :: l => if a.isSource && a.ready bound then leftOver (bound ++ a.binds) l else a :: leftOver bound l

namespace NormalFormAtom

/-- The second round puts an atom left over in place if it is ready, and a negated atom only if all
its variables are bound. -/
def settles (bound : List Symbol) : NormalFormAtom X → Bool
  | negatedRule _ args | negatedRelation _ args _ => args.all (bound.contains ·)
  | a => a.ready bound

/-- The variables that then count as seen. -/
def released : NormalFormAtom X → List Symbol
  | search _ allBindings => allBindings
  | _ => []

def isNegated : NormalFormAtom X → Bool
  | negatedRule _ _ | negatedRelation _ _ _ => true
  | _ => false

end NormalFormAtom

/-- The variables seen after one pass through atoms: searches that are ready add theirs. -/
def sweep (seen : List Symbol) : List (NormalFormAtom X) → List Symbol
  | [] => seen
  | a :: l => sweep (if a.settles seen then seen ++ a.released else seen) l

def unsettled (seen : List Symbol) : List (NormalFormAtom X) → List (NormalFormAtom X)
  | [] => []
  | a :: l => if a.settles seen then unsettled (seen ++ a.released) l else a :: unsettled seen l

/-- One pass through the atoms left over after each of the sources in place: the variables seen in
the end, and the atoms that do not settle in the last pass. -/
def passes (left : List (NormalFormAtom X)) :
    List Symbol × List (NormalFormAtom X) → List (NormalFormAtom X) →
    List Symbol × List (NormalFormAtom X)
  | result, [] => result
  | (seen, _), a :: sources =>
    passes left (sweep (seen ++ a.binds) left, unsettled (seen ++ a.binds) left) sources

/-- Every atom left over settles in the last pass, or is negated and has a variable that is seen. -/
def Settled (body : List (NormalFormAtom X)) : Prop :=
  let result := passes (leftOver [] body) ([], leftOver [] body) (inPlace [] body)
  ∀ a ∈ result.2, a.isNegated = true ∧ a.partlyBound result.1 = true

def NoLateSearch (body : List (NormalFormAtom X)) : Prop := ∀ s bs, .search s bs ∉ leftOver [] body

/-- With these variables bound, an atom can be put in place: it is ready, and if it is negated, one
of its variables is bound or it has none. -/
def NormalFormAtom.settledBy (bound : List Symbol) : NormalFormAtom X → Bool
  | negatedRule _ args | negatedRelation _ args _ => args.isEmpty || args.any (bound.contains ·)
  | a => a.ready bound

/-- What the sources in place bind is enough for all the other atoms, and there is a source in place
if there are others. -/
structure SettledBySources (body : List (NormalFormAtom X)) : Prop where
  source : inPlace [] body = [] → leftOver [] body = []
  settled : ∀ a ∈ leftOver [] body, a.settledBy (boundBy (inPlace [] body)) = true

/-! ### Bound variables -/

theorem boundBy_append (l₁ l₂ : List (NormalFormAtom X)) :
    boundBy (l₁ ++ l₂) = boundBy l₁ ++ boundBy l₂ :=
  flatMap_append

theorem boundBy_singleton (a : NormalFormAtom X) : boundBy [a] = a.binds := flatMap_singleton _ _

variable {bound : List Symbol}

theorem throughout_append {P : List Symbol → NormalFormAtom X → Bool}
    {l₁ l₂ : List (NormalFormAtom X)} :
    Throughout P bound (l₁ ++ l₂) ↔ Throughout P bound l₁ ∧
    Throughout P (bound ++ boundBy l₁) l₂ := by
  induction l₁ generalizing bound with
  | nil => simp [Throughout, boundBy]
  | cons a l₁ ih =>
    simp only [cons_append, Throughout, ih, and_assoc, boundBy, flatMap_cons, append_assoc]

variable {l : List (NormalFormAtom X)}

theorem wellOrdered_concat {a : NormalFormAtom X} : WellOrdered (l ++ [a]) ↔
    WellOrdered l ∧ a.ready (boundBy l) = true := by
  simp [WellOrdered, throughout_append, Throughout]

variable {b₁ b₂ : List Symbol}

theorem all_contains_mono {vars : List Symbol} (hsub : b₁ ⊆ b₂)
    (h : vars.all (b₁.contains ·) = true) : vars.all (b₂.contains ·) = true := by
  simp only [all_eq_true, contains_iff_mem] at h ⊢
  exact fun v hv => hsub (h v hv)

theorem any_contains_mono {vars : List Symbol} (hsub : b₁ ⊆ b₂)
    (h : vars.any (b₁.contains ·) = true) : vars.any (b₂.contains ·) = true := by
  simp only [any_eq_true, contains_iff_mem] at h ⊢
  obtain ⟨v, hv, hb⟩ := h
  exact ⟨v, hv, hsub hb⟩

theorem ready_mono {a : NormalFormAtom X} (hsub : b₁ ⊆ b₂) (h : a.ready b₁ = true) :
    a.ready b₂ = true := by
  unfold ready at h ⊢
  cases hneeds : a.needs with
  | error err => simp [hneeds] at h
  | ok vars =>
    simp only [hneeds] at h ⊢
    exact all_contains_mono hsub h

theorem partlyBound_mono {a : NormalFormAtom X} (hsub : b₁ ⊆ b₂) (h : a.partlyBound b₁ = true) :
    a.partlyBound b₂ = true := by
  cases a with
  | negatedRule name args | negatedRelation name args validAt => exact any_contains_mono hsub h
  | rule name args | relation name args validAt | predicate p | unification u | search s bs => rfl

theorem needs_of_ready {a : NormalFormAtom X} {bound : List Symbol} (h : a.ready bound = true) :
    ∃ vars, a.needs = .ok vars := by
  cases hneeds : a.needs with
  | ok vars => exact ⟨vars, rfl⟩
  | error err => simp [ready, hneeds] at h

/-! ### The first round -/

namespace Placement

variable {s : Placement X}

theorem firstRound_eq_ok {s' : Placement X} {a : NormalFormAtom X} (h : s.firstRound a = .ok s') :
    s' = if a.isSource && a.ready s.seen then s.collect a a.binds else s.postpone a := by
  cases a with
  | rule name args | relation name args validAt | negatedRule name args | negatedRelation name args validAt
  | predicate p | search se bs =>
    cases h
    rfl
  | unification u =>
    simp only [firstRound] at h
    by_cases hconst : u.isConst
    · rw [if_pos hconst] at h
      cases h
      obtain ⟨binding, expr, one⟩ := u
      cases expr with
      | const v =>
        simp [isSource, ready, needs, binds, Unification.bindingsInExpr, Expr.bindings]
      | binding var pos | apply op args | unboundApply op args | cond clauses => cases hconst
    · rw [if_neg hconst, bind_ok] at h
      obtain ⟨vars, hvars, h⟩ := h
      cases h
      simp only [ready, needs, mapError_eq_ok.1 hvars]
      rfl

theorem firstRound_ok {a : NormalFormAtom X} (h : ∃ vars, a.needs = .ok vars) :
    ∃ s', s.firstRound a = .ok s' := by
  cases a with
  | rule name args | relation name args validAt | negatedRule name args | negatedRelation name args validAt
  | predicate p | search se bs => exact ⟨_, rfl⟩
  | unification u =>
    obtain ⟨vars, hvars⟩ := h
    have hvars' : u.bindingsInExpr = .ok vars := hvars
    simp only [firstRound, hvars']
    split <;> exact ⟨_, rfl⟩

theorem firstRounds_eq_ok {s' : Placement X} (h : l.foldlM firstRound s = .ok s') :
    s' = ⟨s.seen ++ boundBy (inPlace s.seen l), s.collected ++ inPlace s.seen l,
      s.pending ++ leftOver s.seen l⟩ := by
  induction l generalizing s with
  | nil =>
    cases h
    simp [inPlace, leftOver, boundBy]
  | cons a l ih =>
    rw [foldlM_cons, bind_ok] at h
    obtain ⟨s₁, hstep, hrest⟩ := h
    rw [ih hrest, firstRound_eq_ok hstep]
    cases htake : a.isSource && a.ready s.seen <;>
      simp [htake, inPlace, leftOver, boundBy, collect, postpone]

theorem firstRounds_ok (s : Placement X) (h : ∀ a ∈ l, ∃ vars, a.needs = .ok vars) :
    ∃ s', l.foldlM firstRound s = .ok s' := by
  induction l generalizing s with
  | nil => exact ⟨s, rfl⟩
  | cons a l ih =>
    obtain ⟨s₁, hstep⟩ := firstRound_ok (s := s) (h a mem_cons_self)
    obtain ⟨s', hrest⟩ := ih s₁ fun b hb => h b (mem_cons_of_mem _ hb)
    exact ⟨s', by rw [foldlM_cons, hstep]; exact hrest⟩

end Placement

theorem inPlace_append_leftOver (bound : List Symbol) (l : List (NormalFormAtom X)) :
    (inPlace bound l ++ leftOver bound l).Perm l := by
  induction l generalizing bound with
  | nil => exact .nil
  | cons a l ih =>
    simp only [inPlace, leftOver]
    split
    · exact (ih _).cons a
    · exact perm_middle.trans ((ih _).cons a)

theorem throughout_inPlace (bound : List Symbol) (l : List (NormalFormAtom X)) :
    Throughout ready bound (inPlace bound l) := by
  induction l generalizing bound with
  | nil => trivial
  | cons a l ih =>
    simp only [inPlace]
    split
    · rename_i h
      exact ⟨(Bool.and_eq_true_iff.1 h).2, ih _⟩
    · exact ih _

theorem source_of_mem_inPlace {a : NormalFormAtom X} (h : a ∈ inPlace bound l) :
    a.isSource = true ∧ ∃ vars, a.needs = .ok vars := by
  induction l generalizing bound with
  | nil => cases h
  | cons b l ih =>
    simp only [inPlace] at h
    split at h
    · rename_i htake
      rcases mem_cons.1 h with rfl | h
      · obtain ⟨hsource, hready⟩ := Bool.and_eq_true_iff.1 htake
        exact ⟨hsource, needs_of_ready hready⟩
      · exact ih h
    · exact ih h

/-- Rules and relations are always taken by the first round. -/
def NormalFormAtom.canWait : NormalFormAtom X → Prop
  | rule _ _ | relation _ _ _ => False
  | _ => True

theorem canWait_of_mem_leftOver {a : NormalFormAtom X} (h : a ∈ leftOver bound l) : a.canWait := by
  induction l generalizing bound with
  | nil => cases h
  | cons b l ih =>
    simp only [leftOver] at h
    split at h
    · exact ih h
    · rename_i htake
      rcases mem_cons.1 h with rfl | h
      · cases a <;> trivial
      · exact ih h

/-! ### The second round -/

theorem released_subset_binds (a : NormalFormAtom X) : a.released ⊆ a.binds := by
  cases a <;> simp [released, binds]

theorem settles_mono {a : NormalFormAtom X} (hsub : b₁ ⊆ b₂) (h : a.settles b₁ = true) :
    a.settles b₂ = true := by
  cases a with
  | negatedRule name args | negatedRelation name args validAt => exact all_contains_mono hsub h
  | rule name args | relation name args validAt => rfl
  | predicate p => exact ready_mono (a := .predicate p) hsub h
  | unification u => exact ready_mono (a := .unification u) hsub h
  | search s bs => exact ready_mono (a := .search s bs) hsub h

theorem ready_of_settles {a : NormalFormAtom X} (h : a.settles bound = true) :
    a.ready bound = true := by
  cases a with
  | negatedRule name args | negatedRelation name args validAt => rfl
  | rule name args | relation name args validAt | predicate p | unification u | search s bs => exact h

theorem needs_of_isNegated {a : NormalFormAtom X} (h : a.isNegated = true) :
    ∃ vars, a.needs = .ok vars := by
  cases a <;> first | exact ⟨_, rfl⟩ | cases h

namespace Placement

variable {s : Placement X} {a : NormalFormAtom X}

theorem retry_eq_ok {s' : Placement X} (h : s.retry a = .ok s') :
    s' = if a.settles s.seen then s.collect a a.released else s.postpone a := by
  cases a with
  | rule name args | relation name args validAt => cases h
  | negatedRule name args | negatedRelation name args validAt | search se bs =>
    cases h
    rfl
  | predicate p | unification u =>
    obtain ⟨vars, hvars, h⟩ := bind_ok.1 h
    cases h
    simp only [settles, ready, needs, mapError_eq_ok.1 hvars]
    rfl

theorem retry_ok (hwait : a.canWait) (h : ∃ vars, a.needs = .ok vars) :
    ∃ s', s.retry a = .ok s' := by
  cases a with
  | rule name args | relation name args validAt => cases hwait
  | negatedRule name args | negatedRelation name args validAt | search se bs => exact ⟨_, rfl⟩
  | predicate p | unification u =>
    obtain ⟨vars, hvars⟩ := h
    have hvars' := mapError_eq_ok (f := ReorderError.eval (X := X)).2 hvars
    exact ⟨_, bind_ok.2 ⟨vars, hvars', rfl⟩⟩

theorem settle_eq_ok {s' : Placement X} (h : s.settle a = .ok s') : s' = s.collect a a.binds := by
  cases a <;> cases h <;> rfl

theorem settle_ok (h : a.isSource = true) : ∃ s', s.settle a = .ok s' := by
  cases a <;> first | exact ⟨_, rfl⟩ | cases h

/-! ### The order -/

/-- What is kept in the second round: the variables seen are bound by the atoms in place, which are
well ordered. -/
structure Sound (s : Placement X) : Prop where
  bound : s.seen ⊆ boundBy s.collected
  ordered : WellOrdered s.collected

def atoms (s : Placement X) : List (NormalFormAtom X) := s.collected ++ s.pending

theorem atoms_collect (s : Placement X) (a : NormalFormAtom X) (bound : List Symbol) :
    (s.collect a bound).atoms.Perm (a :: s.atoms) := by
  simp only [atoms, collect, append_assoc, singleton_append]
  exact perm_middle

theorem atoms_postpone (s : Placement X) (a : NormalFormAtom X) :
    (s.postpone a).atoms.Perm (a :: s.atoms) := by
  simp only [atoms, postpone, ← append_assoc]
  exact perm_append_singleton _ _

theorem sound_collect (hs : s.Sound) (hbound : bound ⊆ a.binds)
    (hready : a.ready (boundBy s.collected) = true) : (s.collect a bound).Sound where
  bound := by
    simp only [collect, boundBy_append, boundBy_singleton]
    intro v hv
    rcases mem_append.1 hv with hv | hv
    · exact mem_append_left _ (hs.bound hv)
    · exact mem_append_right _ (hbound hv)
  ordered := wellOrdered_concat.2 ⟨hs.ordered, hready⟩

/-- One step of the second round keeps the order, and the atoms in place only become more. -/
structure Extends (s s' : Placement X) (added : List (NormalFormAtom X)) : Prop where
  sound : s'.Sound
  perm : s'.atoms.Perm (added ++ s.atoms)
  mono : boundBy s.collected ⊆ boundBy s'.collected

theorem extends_collect (hs : s.Sound) (hbound : bound ⊆ a.binds)
    (hready : a.ready (boundBy s.collected) = true) : s.Extends (s.collect a bound) [a] where
  sound := sound_collect hs hbound hready
  perm := atoms_collect s a bound
  mono := by simp [collect, boundBy_append]

theorem extends_retry {s' : Placement X} (hs : s.Sound) (h : s.retry a = .ok s') :
    s.Extends s' [a] := by
  rw [retry_eq_ok h]
  split
  · rename_i hsettles
    exact extends_collect hs (released_subset_binds a) (ready_mono hs.bound (ready_of_settles hsettles))
  · exact ⟨⟨hs.bound, hs.ordered⟩, atoms_postpone s a, fun _ hv => hv⟩

theorem extends_trans {s₁ s₂ s₃ : Placement X} {l₁ l₂ : List (NormalFormAtom X)}
    (h₁ : s₁.Extends s₂ l₁) (h₂ : s₂.Extends s₃ l₂) : s₁.Extends s₃ (l₁ ++ l₂) where
  sound := h₂.sound
  perm := by
    refine h₂.perm.trans ((h₁.perm.append_left l₂).trans ?_)
    rw [← append_assoc]
    exact perm_append_comm.append_right _
  mono := fun _ hv => h₂.mono (h₁.mono hv)

theorem extends_retries {s' : Placement X} (hs : s.Sound) (h : l.foldlM retry s = .ok s') :
    s.Extends s' l := by
  induction l generalizing s with
  | nil =>
    cases h
    exact ⟨hs, .refl _, fun _ hv => hv⟩
  | cons a l ih =>
    rw [foldlM_cons, bind_ok] at h
    obtain ⟨s₁, hstep, hrest⟩ := h
    have hone := extends_retry hs hstep
    exact extends_trans hone (ih hone.sound hrest)

theorem extends_secondRound {s' : Placement X} (hs : s.Sound)
    (hready : a.ready (boundBy s.collected) = true) (h : s.secondRound a = .ok s') :
    s.Extends s' [a] ∧ a.binds ⊆ boundBy s'.collected := by
  obtain ⟨settled, hsettle, hrest⟩ := bind_ok.1 h
  have hempty : Sound { s with pending := [] } := ⟨hs.bound, hs.ordered⟩
  have hsettled := extends_collect hempty (List.Subset.refl a.binds) hready
  have hbinds : a.binds ⊆ boundBy settled.collected := by
    simp [settle_eq_ok hsettle, collect, boundBy_append, boundBy_singleton]
  rw [← settle_eq_ok hsettle] at hsettled
  have hretries := extends_retries hsettled.sound hrest
  have hboth := extends_trans hsettled hretries
  refine ⟨⟨hboth.sound, hboth.perm.trans ?_, hboth.mono⟩, fun _ hv => hretries.mono (hbinds hv)⟩
  simp only [atoms, append_nil, append_assoc]
  exact perm_append_comm.append_left [a]

theorem extends_secondRounds {s' : Placement X} (hs : s.Sound)
    (hl : Throughout ready bound l) (hbound : bound ⊆ boundBy s.collected)
    (h : l.foldlM secondRound s = .ok s') : s.Extends s' l := by
  induction l generalizing s bound with
  | nil =>
    cases h
    exact ⟨hs, .refl _, fun _ hv => hv⟩
  | cons a l ih =>
    rw [foldlM_cons, bind_ok] at h
    obtain ⟨s₁, hstep, hrest⟩ := h
    obtain ⟨hone, hbinds⟩ := extends_secondRound hs (ready_mono hbound hl.1) hstep
    exact extends_trans hone
      (ih hone.sound hl.2 (append_subset.2 ⟨fun _ hv => hone.mono (hbound hv), hbinds⟩) hrest)

end Placement

/-! ### The atoms that are left -/

theorem ready_of_isNegated {a : NormalFormAtom X} (h : a.isNegated = true)
    (bound : List Symbol) : a.ready bound = true := by
  cases a <;> first | rfl | cases h

namespace Placement

theorem lastRound_eq_ok_iff {seen : List Symbol} {collected r : List (NormalFormAtom X)}
    {a : NormalFormAtom X} :
    lastRound seen collected a = .ok r ↔ (a.isNegated = true ∧ a.partlyBound seen = true) ∧
    collected ++ [a] = r := by
  cases a with
  | negatedRule name args | negatedRelation name args validAt =>
    simp only [lastRound, isNegated, partlyBound, true_and]
    cases args.any (seen.contains ·) <;> simp
  | rule name args | relation name args validAt | predicate p | unification u | search s bs =>
    simp [lastRound, isNegated]

/-- Of the atoms that are left exactly the negated ones of which a variable has been seen are
accepted. -/
theorem lastRounds_eq_ok_iff {seen : List Symbol} {l collected r : List (NormalFormAtom X)} :
    l.foldlM (lastRound seen) collected = .ok r ↔
      (∀ a ∈ l, a.isNegated = true ∧ a.partlyBound seen = true) ∧ collected ++ l = r := by
  induction l generalizing collected with
  | nil => simp [pure, Except.pure]
  | cons a l ih =>
    rw [foldlM_cons, bind_ok]
    constructor
    · rintro ⟨c, hstep, hrest⟩
      obtain ⟨ha, rfl⟩ := lastRound_eq_ok_iff.1 hstep
      obtain ⟨hl, rfl⟩ := ih.1 hrest
      exact ⟨forall_mem_cons.2 ⟨ha, hl⟩, (append_assoc collected [a] l).symm⟩
    · rintro ⟨hal, rfl⟩
      obtain ⟨ha, hl⟩ := forall_mem_cons.1 hal
      exact ⟨_, lastRound_eq_ok_iff.2 ⟨ha, rfl⟩, ih.2 ⟨hl, append_assoc collected [a] l⟩⟩

end Placement

theorem throughout_of_isNegated (h : ∀ a ∈ l, a.isNegated = true) : Throughout ready bound l := by
  induction l generalizing bound with
  | nil => trivial
  | cons a l ih =>
    obtain ⟨ha, hl⟩ := forall_mem_cons.1 h
    exact ⟨ready_of_isNegated ha bound, ih hl⟩

/-- **What is returned is a well-ordered permutation of the body.** -/
theorem convertToWellOrderedRule_sound {body r : List (NormalFormAtom X)}
    (h : convertToWellOrderedRule body = .ok r) : r.Perm body ∧ WellOrdered r := by
  obtain ⟨first, hfirst, h⟩ := bind_ok.1 h
  obtain ⟨second, hsecond, h⟩ := bind_ok.1 h
  obtain ⟨hleft, rfl⟩ := lastRounds_eq_ok_iff.1 h
  have hfirst := firstRounds_eq_ok hfirst
  simp only [nil_append] at hfirst
  subst hfirst
  have hstart : Sound (⟨[], [], leftOver [] body⟩ : Placement X) := ⟨nil_subset _, trivial⟩
  have hextends := extends_secondRounds hstart (throughout_inPlace [] body) (nil_subset _) hsecond
  constructor
  · exact hextends.perm.trans (inPlace_append_leftOver [] body)
  · exact throughout_append.2 ⟨hextends.sound.ordered, throughout_of_isNegated fun a ha => (hleft a ha).1⟩

/-! ### Passes -/

theorem settles_congr {a : NormalFormAtom X} (h : ∀ v, v ∈ b₁ ↔ v ∈ b₂) :
    a.settles b₁ = a.settles b₂ :=
  Bool.eq_iff_iff.2 ⟨settles_mono fun v hv => (h v).1 hv, settles_mono fun v hv => (h v).2 hv⟩

theorem mem_append_congr (h : ∀ v, v ∈ b₁ ↔ v ∈ b₂) (c : List Symbol) (v : Symbol) :
    v ∈ b₁ ++ c ↔ v ∈ b₂ ++ c := by
  rw [mem_append, mem_append, h v]

theorem mem_sweep_congr (h : ∀ v, v ∈ b₁ ↔ v ∈ b₂) (v : Symbol) :
    v ∈ sweep b₁ l ↔ v ∈ sweep b₂ l := by
  induction l generalizing b₁ b₂ with
  | nil => exact h v
  | cons a l ih =>
    simp only [sweep, settles_congr h]
    split
    · exact ih (mem_append_congr h _)
    · exact ih h

theorem unsettled_congr (h : ∀ v, v ∈ b₁ ↔ v ∈ b₂) : unsettled b₁ l = unsettled b₂ l := by
  induction l generalizing b₁ b₂ with
  | nil => rfl
  | cons a l ih =>
    simp only [unsettled, settles_congr h, ih h, ih (mem_append_congr h a.released)]

variable (seen : List Symbol)

theorem subset_sweep (l : List (NormalFormAtom X)) : seen ⊆ sweep seen l := by
  induction l generalizing seen with
  | nil => exact List.Subset.refl _
  | cons a l ih =>
    simp only [sweep]
    split
    · exact fun v hv => ih _ (mem_append_left _ hv)
    · exact ih _

/-- The second list is the first one without atoms that have settled and whose variables have been
seen. -/
inductive Drops (seen : List Symbol) : List (NormalFormAtom X) → List (NormalFormAtom X) → Prop
  | nil : Drops seen [] []
  | keep (a : NormalFormAtom X) {l p : List (NormalFormAtom X)} : Drops seen l p →
    Drops seen (a :: l) (a :: p)
  | drop {a : NormalFormAtom X} {l p : List (NormalFormAtom X)} :
      a.settles seen = true → a.released ⊆ seen → Drops seen l p → Drops seen (a :: l) p

theorem drops_refl (l : List (NormalFormAtom X)) : Drops seen l l := by
  induction l with
  | nil => exact .nil
  | cons a l ih => exact .keep a ih

variable {p : List (NormalFormAtom X)}

theorem drops_mono (hsub : b₁ ⊆ b₂) (h : Drops b₁ l p) : Drops b₂ l p := by
  induction h with
  | nil => exact .nil
  | keep a _ ih => exact .keep a ih
  | drop hsettles hreleased _ ih =>
    exact .drop (settles_mono hsub hsettles) (fun _ hv => hsub (hreleased hv)) ih

theorem subset_of_drops {seen : List Symbol} (h : Drops seen l p) : p ⊆ l := by
  induction h with
  | nil => exact List.Subset.refl _
  | keep a _ ih => exact cons_subset_cons a ih
  | drop _ _ _ ih => exact fun _ hv => mem_cons_of_mem _ (ih hv)

theorem mem_or_needs_of_drops {seen : List Symbol} {l p : List (NormalFormAtom X)}
    (h : Drops seen l p)
    {a : NormalFormAtom X} (ha : a ∈ l) : a ∈ p ∨ ∃ vars, a.needs = .ok vars := by
  induction h with
  | nil => cases ha
  | keep b _ ih =>
    rcases mem_cons.1 ha with rfl | ha
    · exact .inl mem_cons_self
    · exact (ih ha).imp_left (mem_cons_of_mem _)
  | drop hsettles _ _ ih =>
    rcases mem_cons.1 ha with rfl | ha
    · exact .inr (needs_of_ready (ready_of_settles hsettles))
    · exact ih ha

theorem drops_unsettled (l : List (NormalFormAtom X)) :
    Drops (sweep seen l) l (unsettled seen l) := by
  induction l generalizing seen with
  | nil => exact .nil
  | cons a l ih =>
    simp only [sweep, unsettled]
    split
    · rename_i hsettles
      have hsub := subset_sweep (seen ++ a.released) l
      refine .drop (settles_mono (fun v hv => hsub (mem_append_left _ hv)) hsettles) ?_ (ih _)
      exact fun v hv => hsub (mem_append_right _ hv)
    · exact .keep a (ih _)

namespace Placement

variable {s : Placement X}

/-- **One pass.** The code goes only through the atoms that are still left over, but those that it
skips would not change anything. -/
theorem retries_eq_ok {seen : List Symbol} (hdrops : Drops seen l p) {s' : Placement X}
    (hsub : seen ⊆ s.seen) (h : p.foldlM retry s = .ok s') :
    (∀ v, v ∈ s'.seen ↔ v ∈ sweep s.seen l) ∧ s'.pending = s.pending ++ unsettled s.seen l := by
  induction hdrops generalizing s with
  | nil =>
    cases h
    exact ⟨fun _ => Iff.rfl, (append_nil _).symm⟩
  | keep a _ ih =>
    rw [foldlM_cons, bind_ok] at h
    obtain ⟨s₁, hstep, hrest⟩ := h
    have hstep := retry_eq_ok hstep
    by_cases hsettles : a.settles s.seen = true
    · rw [if_pos hsettles] at hstep
      subst hstep
      simp only [sweep, unsettled, if_pos hsettles]
      exact ih (fun v hv => mem_append_left _ (hsub hv)) hrest
    · rw [if_neg hsettles] at hstep
      subst hstep
      simp only [sweep, unsettled, if_neg hsettles]
      obtain ⟨hseen, hpending⟩ := ih (s := s.postpone a) hsub hrest
      exact ⟨hseen, by simp [hpending, postpone]⟩
  | @drop a l p hsettles hreleased _ ih =>
    -- the atom settles again, and its variables have been seen
    obtain ⟨hseen, hpending⟩ := ih hsub h
    have hsame : ∀ v, v ∈ s.seen ↔ v ∈ s.seen ++ a.released := fun v =>
      ⟨mem_append_left _, fun hv => (mem_append.1 hv).elim id fun hv => hsub (hreleased hv)⟩
    simp only [sweep, unsettled, if_pos (settles_mono hsub hsettles)]
    exact ⟨fun v => (hseen v).trans (mem_sweep_congr hsame v), by rw [hpending, unsettled_congr hsame]⟩

/-- The state of the second round, and the result of the passes so far. -/
structure Tracks (left : List (NormalFormAtom X)) (s : Placement X)
    (result : List Symbol × List (NormalFormAtom X)) : Prop where
  seen : ∀ v, v ∈ s.seen ↔ v ∈ result.1
  pending : s.pending = result.2
  drops : Drops s.seen left s.pending

variable {result : List Symbol × List (NormalFormAtom X)}

theorem tracks_secondRound {left : List (NormalFormAtom X)} {s' : Placement X}
    (hs : s.Tracks left result) {a : NormalFormAtom X}
    (h : s.secondRound a = .ok s') :
    s'.Tracks left (sweep (result.1 ++ a.binds) left, unsettled (result.1 ++ a.binds) left) := by
  obtain ⟨settled, hsettle, hrest⟩ := bind_ok.1 h
  have hsettled := settle_eq_ok hsettle
  subst hsettled
  obtain ⟨hseen, hpending⟩ := retries_eq_ok hs.drops (fun v hv => mem_append_left _ hv) hrest
  have hsame := mem_append_congr hs.seen a.binds
  have hpending' : s'.pending = unsettled (s.seen ++ a.binds) left := hpending
  exact
    { seen := fun v => (hseen v).trans (mem_sweep_congr hsame v)
      pending := hpending'.trans (unsettled_congr hsame)
      drops := by
        rw [hpending']
        exact drops_mono (fun v hv => (hseen v).2 hv) (drops_unsettled _ left) }

theorem tracks_secondRounds {left sources : List (NormalFormAtom X)} {s' : Placement X}
    (hs : s.Tracks left result)
    (h : sources.foldlM secondRound s = .ok s') : s'.Tracks left (passes left result sources) := by
  induction sources generalizing s result with
  | nil =>
    cases h
    exact hs
  | cons a sources ih =>
    rw [foldlM_cons, bind_ok] at h
    obtain ⟨s₁, hstep, hrest⟩ := h
    exact ih (tracks_secondRound hs hstep) hrest

theorem retries_ok (s : Placement X) (h : ∀ a ∈ l, a.canWait ∧ ∃ vars, a.needs = .ok vars) :
    ∃ s', l.foldlM retry s = .ok s' := by
  induction l generalizing s with
  | nil => exact ⟨s, rfl⟩
  | cons a l ih =>
    obtain ⟨⟨hwait, hneeds⟩, hl⟩ := forall_mem_cons.1 h
    obtain ⟨s₁, hstep⟩ := retry_ok (s := s) hwait hneeds
    obtain ⟨s', hrest⟩ := ih s₁ hl
    exact ⟨s', by rw [foldlM_cons, hstep]; exact hrest⟩

theorem secondRounds_ok {left sources : List (NormalFormAtom X)} {s : Placement X}
    {result : List Symbol × List (NormalFormAtom X)} (hs : s.Tracks left result)
    (hsources : ∀ a ∈ sources, a.isSource = true)
    (hleft : ∀ a ∈ left, a.canWait ∧ ∃ vars, a.needs = .ok vars) :
    ∃ s', sources.foldlM secondRound s = .ok s' := by
  induction sources generalizing s result with
  | nil => exact ⟨s, rfl⟩
  | cons a sources ih =>
    obtain ⟨ha, hsources⟩ := forall_mem_cons.1 hsources
    obtain ⟨settled, hsettle⟩ := settle_ok (s := { s with pending := [] }) ha
    obtain ⟨s₁, hretries⟩ := retries_ok settled fun b hb => hleft b (subset_of_drops hs.drops hb)
    have hstep : s.secondRound a = .ok s₁ := bind_ok.2 ⟨settled, hsettle, hretries⟩
    obtain ⟨s', hrest⟩ := ih (tracks_secondRound hs hstep) hsources
    exact ⟨s', by rw [foldlM_cons, hstep]; exact hrest⟩

end Placement

/-! ### Acceptance -/

theorem drops_passes {left : List (NormalFormAtom X)} (sources : List (NormalFormAtom X))
    {result : List Symbol × List (NormalFormAtom X)} (h : ∃ seen, Drops seen left result.2) :
    ∃ seen, Drops seen left (passes left result sources).2 := by
  induction sources generalizing result with
  | nil => exact h
  | cons a sources ih => exact ih ⟨_, drops_unsettled (result.1 ++ a.binds) left⟩

theorem needs_of_settled {body : List (NormalFormAtom X)} (h : Settled body)
    {a : NormalFormAtom X} (ha : a ∈ leftOver [] body) : ∃ vars, a.needs = .ok vars := by
  have hstart : ∃ seen, Drops seen (leftOver [] body) (([] : List Symbol), leftOver [] body).2 :=
    ⟨[], drops_refl _ _⟩
  obtain ⟨seen, hdrops⟩ := drops_passes (inPlace [] body) hstart
  rcases mem_or_needs_of_drops hdrops ha with hmem | hneeds
  · exact needs_of_isNegated (h a hmem).1
  · exact hneeds

/-- **The bodies that are accepted.** -/
theorem convertToWellOrderedRule_ok_iff (body : List (NormalFormAtom X)) :
    (∃ r, convertToWellOrderedRule body = .ok r) ↔ Settled body := by
  have hstart : Tracks (leftOver [] body) ⟨[], [], leftOver [] body⟩ ([], leftOver [] body) :=
    ⟨fun _ => Iff.rfl, rfl, drops_refl _ _⟩
  constructor
  · rintro ⟨r, h⟩ a ha
    obtain ⟨first, hfirst, h⟩ := bind_ok.1 h
    obtain ⟨second, hsecond, hlast⟩ := bind_ok.1 h
    have hfirst := firstRounds_eq_ok hfirst
    simp only [nil_append] at hfirst
    subst hfirst
    have htracks := tracks_secondRounds hstart hsecond
    rw [← htracks.pending] at ha
    obtain ⟨hnegated, hpartly⟩ := (lastRounds_eq_ok_iff.1 hlast).1 a ha
    exact ⟨hnegated, partlyBound_mono (fun v hv => (htracks.seen v).1 hv) hpartly⟩
  · intro hsettled
    have hneeds : ∀ a ∈ body, ∃ vars, a.needs = .ok vars := by
      intro a ha
      rcases mem_append.1 ((inPlace_append_leftOver [] body).mem_iff.2 ha) with ha | ha
      · exact (source_of_mem_inPlace ha).2
      · exact needs_of_settled hsettled ha
    obtain ⟨first, hfirst⟩ := firstRounds_ok ⟨[], [], []⟩ hneeds
    have hfirst' := firstRounds_eq_ok hfirst
    simp only [nil_append] at hfirst'
    subst hfirst'
    obtain ⟨second, hsecond⟩ := secondRounds_ok hstart (fun a ha => (source_of_mem_inPlace ha).1)
      fun a ha => ⟨canWait_of_mem_leftOver ha, needs_of_settled hsettled ha⟩
    have htracks := tracks_secondRounds hstart hsecond
    refine ⟨second.collected ++ second.pending, bind_ok.2 ⟨_, hfirst, bind_ok.2 ⟨second, hsecond, ?_⟩⟩⟩
    refine lastRounds_eq_ok_iff.2 ⟨fun a ha => ?_, rfl⟩
    rw [htracks.pending] at ha
    obtain ⟨hnegated, hpartly⟩ := hsettled a ha
    exact ⟨hnegated, partlyBound_mono (fun v hv => (htracks.seen v).2 hv) hpartly⟩

/-! ### Without searches -/

theorem sweep_of_noSearch (h : ∀ s bs, .search s bs ∉ l) (seen : List Symbol) :
    sweep seen l = seen ∧ unsettled seen l = l.filter fun a => !a.settles seen := by
  induction l with
  | nil => exact ⟨rfl, rfl⟩
  | cons a l ih =>
    have hreleased : a.released = [] := by
      cases a with
      | search s bs => exact absurd mem_cons_self (h s bs)
      | rule name args | relation name args validAt | negatedRule name args
      | negatedRelation name args validAt
      | predicate p | unification u => rfl
    obtain ⟨hsweep, hunsettled⟩ := ih fun s bs hs => h s bs (mem_cons_of_mem _ hs)
    simp only [sweep, unsettled, hreleased, append_nil, ite_self, hsweep, hunsettled, true_and]
    cases hsettles : a.settles seen <;> simp [hsettles]

theorem passes_of_noSearch {left : List (NormalFormAtom X)} (h : ∀ s bs, .search s bs ∉ left) :
    ∀ (sources : List (NormalFormAtom X)) (seen : List Symbol) (p : List (NormalFormAtom X)),
    sources ≠ [] → passes left (seen, p) sources =
        (seen ++ boundBy sources, left.filter fun a => !a.settles (seen ++ boundBy sources))
  | [], _, _, hne => absurd rfl hne
  | [a], seen, p, _ => by
    rw [passes, passes, (sweep_of_noSearch h _).1, (sweep_of_noSearch h _).2, boundBy_singleton]
  | a :: b :: sources, seen, p, _ => by
    have hbound : boundBy (a :: b :: sources) = a.binds ++ boundBy (b :: sources) := flatMap_cons
    rw [passes, (sweep_of_noSearch h _).1,
      passes_of_noSearch h (b :: sources) _ _ (cons_ne_nil _ _), hbound, append_assoc]

theorem settledBy_iff {a : NormalFormAtom X} {bound : List Symbol} :
    a.settledBy bound = true ↔ a.settles bound = true ∨ a.isNegated = true ∧
    a.partlyBound bound = true := by
  cases a with
  | rule name args | relation name args validAt | predicate p | unification u | search s bs =>
    simp [settledBy, settles, isNegated]
  | negatedRule name args | negatedRelation name args validAt =>
    cases args with
    | nil => simp [settledBy, settles]
    | cons v args =>
      simp only [settledBy, settles, isNegated, partlyBound, isEmpty_cons,
        Bool.false_or, true_and, all_cons, any_cons, Bool.and_eq_true, Bool.or_eq_true]
      tauto

theorem settled_iff_of_noLateSearch {body : List (NormalFormAtom X)} (h : NoLateSearch body) :
    Settled body ↔ SettledBySources body := by
  by_cases hsources : inPlace [] body = []
  · have hsettled : Settled body ↔ leftOver [] body = [] := by
      simp only [Settled, hsources, passes]
      constructor
      · intro hall
        refine eq_nil_iff_forall_not_mem.2 fun a ha => ?_
        -- nothing is seen, so no variable of a negated atom
        obtain ⟨hnegated, hpartly⟩ := hall a ha
        cases a with
        | negatedRule name args | negatedRelation name args validAt => simp [partlyBound] at hpartly
        | rule name args | relation name args validAt | predicate p | unification u | search s bs =>
          cases hnegated
      · intro hnil
        simp [hnil]
    rw [hsettled]
    exact ⟨fun hnil => ⟨fun _ => hnil, by simp [hnil]⟩, fun hs => hs.source hsources⟩
  · simp only [Settled, passes_of_noSearch h _ _ _ hsources, nil_append, mem_filter, Bool.not_eq_true']
    constructor
    · refine fun hall => ⟨fun hnil => absurd hnil hsources, fun a ha => settledBy_iff.2 ?_⟩
      cases hsettles : a.settles (boundBy (inPlace [] body)) with
      | true => exact .inl rfl
      | false => exact .inr (hall a ⟨ha, hsettles⟩)
    · intro hs a ⟨ha, hsettles⟩
      exact (settledBy_iff.1 (hs.settled a ha)).resolve_left (by simp [hsettles])

/-! ### The result -/

/-- **Reordering a body.** What is returned is always a well-ordered permutation. An order is found
whenever an admissible one exists exactly for the bodies that are `Settled`, and trivially for those
that have none. If no search is left over by the first round, being settled means that the sources
in place bind enough for all other atoms. -/
theorem reorder_iff (body : List (NormalFormAtom X)) :
    (ReorderCorrect body ↔ Settled body ∨ ¬ ∃ l : List (NormalFormAtom X), l.Perm body ∧
      Admissible l) ∧ (NoLateSearch body → (Settled body ↔ SettledBySources body)) := by
  refine ⟨⟨fun h => ?_, fun h => ⟨fun r hr => convertToWellOrderedRule_sound hr, fun hl => ?_⟩⟩,
    settled_iff_of_noLateSearch⟩
  · by_cases hl : ∃ l : List (NormalFormAtom X), l.Perm body ∧ Admissible l
    · exact .inl ((convertToWellOrderedRule_ok_iff body).1 (h.accepts hl))
    · exact .inr hl
  · exact (convertToWellOrderedRule_ok_iff body).2 (h.resolve_right fun hnone => hnone hl)

/-- `y = x`, as a unification. -/
def copyAtom (y x : Symbol) : NormalFormAtom Unit := .unification ⟨y, .binding x none, false⟩

/-- `r[x], y = x, z = y`. -/
def chainBody : List (NormalFormAtom Unit) := [.rule "r" ["x"], copyAtom "y" "x", copyAtom "z" "y"]

/-- `z = y, y = x, r[x]`. -/
def reversedChain : List (NormalFormAtom Unit) :=
  [copyAtom "z" "y", copyAtom "y" "x", .rule "r" ["x"]]

/-- `y = x, r[x]`. -/
def lateCopy : List (NormalFormAtom Unit) := [copyAtom "y" "x", .rule "r" ["x"]]

theorem reorder_lateCopy : ReorderCorrect lateCopy := by
  obtain ⟨hiff, hsources⟩ := reorder_iff lateCopy
  have hleft : leftOver [] lateCopy = [copyAtom "y" "x"] := rfl
  have hlate : NoLateSearch lateCopy := fun s bs hs => by simp [hleft, copyAtom] at hs
  refine hiff.2 (.inl ((hsources hlate).2 ⟨fun h => (by cases h), fun a ha => ?_⟩))
  rw [hleft, mem_singleton] at ha
  subst ha
  rfl

/-- The atoms of a body that is accepted are rejected when they are written the other way round. -/
theorem reversedChain_rejected : convertToWellOrderedRule chainBody = .ok chainBody ∧
    chainBody.Perm reversedChain ∧ Admissible chainBody ∧
      convertToWellOrderedRule reversedChain = .error .unboundVariable := by
  refine ⟨rfl, ?_, ?_, rfl⟩
  · exact reverse_perm reversedChain
  · exact ⟨rfl, rfl, rfl, trivial⟩

end Retia
