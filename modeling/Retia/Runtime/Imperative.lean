import Mathlib
import Retia.Runtime.UniqueIds

/-!
# Control flow of imperative scripts

`runtime/imperative.rs`. A list of statements ends with the rows of its last statement, or with
control going elsewhere: to a loop (`%break`, `%continue`) or out of the script (`%return`).

* **Sequencing.** Running `ps ++ qs` is running `ps` and then, if it came to its end, `qs`
  (`executeImperativeStmts_append`), unless one of the statements of `ps` itself is a `%swap`. That
  statement leaves the list it stands in as if it were the last one, so what follows is never run
  (`executeImperativeStmts_append_of_swap`).
* **Jumps.** A loop catches the jumps that have no label or its own one, and hands on the others
  (`executeLoop_of_break`, `executeLoop_of_continue`). What leaves a list of statements is a jump
  that stands in it, in no loop that catches it (`escapes_of_execute`).
* A jump that leaves the whole script is an error (`executeImperativeResult`).
-/

namespace Retia

open Effect List

namespace Session

open SessionM

/-! ### Sequencing steps -/

namespace Db

section AndThen

variable {α β γ : Type}

theorem andThen_assoc (m : SessionM (α × Cleanups)) (f : α → SessionM (β × Cleanups))
    (g : β → SessionM (γ × Cleanups)) :
    andThen (andThen m f) g = andThen m fun a => andThen (f a) g := by
  funext s
  simp only [andThen, bind, EStateM.bind]
  cases m s with
  | error e s' => rfl
  | ok r s' =>
    dsimp only
    cases f r.1 s' with
    | error e s'' => rfl
    | ok r' s'' =>
      dsimp only [pure, EStateM.pure]
      cases g r'.1 s'' with
      | error e s₃ => rfl
      | ok r'' s₃ => simp only [append_assoc]

theorem pure_andThen (a : α) (f : α → SessionM (β × Cleanups)) :
    andThen (pure (a, [])) f = f a := by
  funext s
  simp only [andThen, bind, EStateM.bind, pure, EStateM.pure]
  cases f a s <;> rfl

theorem throw_andThen (e : SessionError) (f : α → SessionM (β × Cleanups)) :
    andThen (throw e) f = throw e := rfl

theorem andThen_of_yields {m : SessionM (α × Cleanups)} {f : α → SessionM (α × Cleanups)}
    {F : α → Prop}
    (hm : Yields (fun r => F r.1) m) (hf : ∀ a, F a → f a = pure (a, [])) : andThen m f = m := by
  funext s
  simp only [andThen, bind, EStateM.bind]
  cases hms : m s with
  | error e s' => rfl
  | ok r s' =>
    dsimp only
    rw [hf r.1 (hm s r s' hms)]
    simp [pure, EStateM.pure]

theorem andThen_eq_ok {m : SessionM (α × Cleanups)} {f : α → SessionM (β × Cleanups)}
    {s s'' : SessionTx}
    {b : β × Cleanups} (h : andThen m f s = .ok b s'') :
    ∃ a s' c, m s = .ok a s' ∧ f a.1 s' = .ok (b.1, c) s'' ∧ b.2 = a.2 ++ c := by
  obtain ⟨a, s', hm, hrest⟩ := bind_eq_ok.1 h
  obtain ⟨b', s₁, hf, hpure⟩ := bind_eq_ok.1 hrest
  obtain ⟨rfl, rfl⟩ := pure_eq_ok.1 hpure
  exact ⟨a, s', b'.2, hm, hf, rfl⟩

end AndThen

end Db

/-! ### Lists of statements -/

def ImperativeStmt.isSwap : ImperativeStmt → Bool
  | .tempSwap _ _ => true
  | _ => false

namespace Db

variable (D : Db)

/-- What runs after a list of statements that came to its end. -/
def continueWith (fuel : Nat) (qs : List ImperativeStmt) : Flow → SessionM (Flow × Cleanups)
  | .rows r => D.executeImperativeStmts fuel qs r
  | ctrl => pure (ctrl, [])

theorem yields_executeReturns (l : List ImperativeSource) (returned : List NamedRows) :
    Yields (fun r => ∃ rs, r.1 = Flow.termination rs) (D.executeReturns l returned) := by
  induction l generalizing returned with
  | nil => exact Yields.pure ⟨returned, rfl⟩
  | cons source rest ih =>
    intro s b s' hb
    obtain ⟨a, s₁, c, -, hrest, -⟩ := andThen_eq_ok hb
    exact ih _ s₁ (b.1, c) s' hrest

theorem andThen_continueWith (m : SessionM (Flow × Cleanups)) (fuel n : Nat)
    (rest qs : List ImperativeStmt)
    (ih : ∀ r, D.executeImperativeStmts fuel (rest ++ qs) r =
      andThen (D.executeImperativeStmts fuel rest r) (D.continueWith n qs)) :
    andThen m (D.continueWith fuel (rest ++ qs)) =
    andThen (andThen m (D.continueWith fuel rest)) (D.continueWith n qs) := by
  rw [andThen_assoc]
  congr 1
  funext flow
  cases flow with
  | rows r => exact ih r
  | termination rs | breakTo t | continueTo t => exact (pure_andThen _ _).symm

variable {ps : List ImperativeStmt}

/-- **Sequencing.** -/
theorem executeImperativeStmts_append (hps : ps.all (!·.isSwap) = true) (fuel : Nat)
    (qs : List ImperativeStmt) (ret : NamedRows) :
    D.executeImperativeStmts fuel (ps ++ qs) ret =
    andThen (D.executeImperativeStmts fuel ps ret) (D.continueWith (fuel - ps.length) qs) := by
  induction ps generalizing fuel ret with
  | nil =>
    rw [nil_append, executeImperativeStmts, pure_andThen]
    rfl
  | cons p rest ih =>
    rw [all_cons, Bool.and_eq_true] at hps
    obtain ⟨hp, hrest⟩ := hps
    cases fuel with
    | zero => simp only [cons_append, executeImperativeStmts, throw_andThen]
    | succ fuel =>
      rw [cons_append, length_cons, Nat.add_sub_add_right]
      cases p with
      | breakTo target | continueTo target =>
        simp only [executeImperativeStmts, pure_andThen, continueWith]
      | returns returned =>
        simp only [executeImperativeStmts]
        refine (andThen_of_yields (F := fun flow => ∃ rs, flow = Flow.termination rs)
          (D.yields_executeReturns _ _) ?_).symm
        rintro _ ⟨rs, rfl⟩
        rfl
      | tempDebug temp | sysOp op | program c
      | ignoreErrorProgram c => simp only [executeImperativeStmts, andThen_assoc, ih hrest]
      | ifElse condition thenBranch elseBranch negated =>
        simp only [executeImperativeStmts]
        rw [andThen_assoc]
        congr 1
        funext rows
        exact D.andThen_continueWith _ fuel _ rest qs fun r => ih hrest fuel r
      | loop label body =>
        simp only [executeImperativeStmts]
        exact D.andThen_continueWith _ fuel _ rest qs fun r => ih hrest fuel r
      | tempSwap left right => cases hp

theorem executeImperativeStmts_append_of_swap (hps : ps.all (!·.isSwap) = false)
    (fuel : Nat) (qs : List ImperativeStmt) (ret : NamedRows) :
    D.executeImperativeStmts fuel (ps ++ qs) ret = D.executeImperativeStmts fuel ps ret := by
  induction ps generalizing fuel ret with
  | nil => cases hps
  | cons p rest ih =>
    cases fuel with
    | zero => simp only [cons_append, executeImperativeStmts]
    | succ fuel =>
      have hrest : p.isSwap = false → rest.all (!·.isSwap) = false := by
        intro hp
        rwa [all_cons, hp, Bool.not_false, Bool.true_and] at hps
      rw [cons_append]
      cases p with
      | tempSwap left right | breakTo target | continueTo target
      | returns returned => simp only [executeImperativeStmts]
      | _ => simp only [executeImperativeStmts, ih (hrest rfl)]

/-! ### What a `%swap` loses -/

/-- **A `%swap` of the list itself is carried out**: the statements in front of it come to their
end, and it succeeds. -/
def ReachesSwap (fuel : Nat) (ps : List ImperativeStmt) (ret : NamedRows) (s : SessionTx) : Prop :=
  ∃ front left right back r c s₁ s₂, ps = front ++ .tempSwap left right :: back ∧
    front.all (!·.isSwap) = true ∧ front.length < fuel ∧
    D.executeImperativeStmts fuel front ret s = .ok (.rows r, c) s₁ ∧
    D.tempSwap left right s₁ = .ok () s₂

theorem exists_first_swap (hps : ps.all (!·.isSwap) = false) : ∃ front left right back,
    ps = front ++ .tempSwap left right :: back ∧ front.all (!·.isSwap) = true := by
  induction ps with
  | nil => cases hps
  | cons p rest ih =>
    cases hp : p.isSwap with
    | true =>
      cases p with
      | tempSwap left right => exact ⟨[], left, right, rest, rfl, rfl⟩
      | _ => cases hp
    | false =>
      rw [all_cons, hp, Bool.not_false, Bool.true_and] at hps
      obtain ⟨front, left, right, back, rfl, hfront⟩ := ih hps
      refine ⟨p :: front, left, right, back, rfl, ?_⟩
      rw [all_cons, hp, hfront]
      rfl

theorem reachesSwap_of_rows {fuel : Nat} {ret r : NamedRows} {s s' : SessionTx}
    {c : Cleanups} (hps : ps.all (!·.isSwap) = false)
    (h : D.executeImperativeStmts fuel ps ret s = .ok (.rows r, c) s') :
    D.ReachesSwap fuel ps ret s := by
  obtain ⟨front, left, right, back, rfl, hfront⟩ := exists_first_swap hps
  rw [D.executeImperativeStmts_append hfront] at h
  obtain ⟨⟨flow, cs⟩, s₁, c', hm, hrest, -⟩ := andThen_eq_ok h
  cases flow with
  | rows r₀ =>
    -- The list in front came to its end, so the flow at the end is the one behind the swap.
    have hfuel : front.length < fuel := by
      by_contra hge
      rw [Nat.sub_eq_zero_of_le (by omega)] at hrest
      simp only [continueWith, executeImperativeStmts] at hrest
      cases hrest
    obtain ⟨n, hn⟩ : ∃ n, fuel - front.length = n + 1 := ⟨fuel - front.length - 1, by omega⟩
    simp only [hn, continueWith, executeImperativeStmts] at hrest
    obtain ⟨_, s₂, hswap, -⟩ := bind_eq_ok.1 hrest
    exact ⟨front, left, right, back, r₀, cs, s₁, s₂, rfl, hfront, hfuel, hm, hswap⟩
  | termination rs => cases hrest
  | breakTo t => cases hrest
  | continueTo t => cases hrest

theorem rows_of_reachesSwap {fuel : Nat} {ret : NamedRows} {s : SessionTx}
    (h : D.ReachesSwap fuel ps ret s) (qs : List ImperativeStmt) :
    ∃ c s', D.executeImperativeStmts fuel (ps ++ qs) ret s = .ok (.rows ⟨[], []⟩, c) s' := by
  obtain ⟨front, left, right, back, r₀, c, s₁, s₂, rfl, hfront, hfuel, hm, hswap⟩ := h
  obtain ⟨n, hn⟩ : ∃ n, fuel - front.length = n + 1 := ⟨fuel - front.length - 1, by omega⟩
  rw [append_assoc, D.executeImperativeStmts_append hfront, hn]
  refine ⟨c ++ [], s₂, ?_⟩
  simp only [andThen, bind, EStateM.bind, hm, continueWith, cons_append,
    executeImperativeStmts, hswap, pure, EStateM.pure]

/-- **What comes after a list is run exactly if no `%swap` of the list is carried out.** -/
theorem append_eq_iff (fuel : Nat) (ps : List ImperativeStmt) (ret : NamedRows)
    (s : SessionTx) : (∀ qs, D.executeImperativeStmts fuel (ps ++ qs) ret s =
      andThen (D.executeImperativeStmts fuel ps ret) (D.continueWith (fuel - ps.length) qs) s) ↔
      ¬ D.ReachesSwap fuel ps ret s := by
  constructor
  · intro hlaw hreach
    -- A `%break` behind the list tells whether what follows is run.
    obtain ⟨c, s', hrows⟩ := D.rows_of_reachesSwap hreach [.breakTo none]
    rw [hlaw [.breakTo none]] at hrows
    obtain ⟨⟨flow, cs⟩, s₁, c', -, hrest, -⟩ := andThen_eq_ok hrows
    cases flow with
    | rows r =>
      cases hn : fuel - ps.length with
      | zero | succ n => simp only [hn, continueWith, executeImperativeStmts] at hrest; cases hrest
    | termination rs => cases hrest
    | breakTo t => cases hrest
    | continueTo t => cases hrest
  · intro hreach qs
    cases hps : ps.all (!·.isSwap) with
    | true => rw [D.executeImperativeStmts_append hps]
    | false =>
      rw [D.executeImperativeStmts_append_of_swap hps]
      simp only [andThen, bind, EStateM.bind]
      cases hm : D.executeImperativeStmts fuel ps ret s with
      | error e s' => rfl
      | ok res s' =>
        obtain ⟨flow, c⟩ := res
        cases flow with
        | rows r => exact absurd (D.reachesSwap_of_rows hps hm) hreach
        | termination rs | breakTo t | continueTo t =>
          simp only [continueWith, pure, EStateM.pure, append_nil]

end Db

/-! ### Jumps -/

namespace ImperativeStmt

mutual

/-- Whether the statement has a jump to the target that stands in no loop of the statement that
catches it. -/
def escapes (target : Option String) : ImperativeStmt → Bool
  | breakTo t | continueTo t => t == target
  | ifElse _ thenBranch elseBranch _ => anyEscapes target thenBranch || anyEscapes target elseBranch
  | loop label body => !(target.isNone || target == label) && anyEscapes target body
  | returns _ | program _ | sysOp _ | ignoreErrorProgram _ | tempSwap .. | tempDebug _ => false

def anyEscapes (target : Option String) : List ImperativeStmt → Bool
  | [] => false
  | stmt :: rest => stmt.escapes target || anyEscapes target rest

end

end ImperativeStmt

def Flow.jump : Flow → Option (Option String)
  | .breakTo target | .continueTo target => some target
  | .rows _ | .termination _ => none

/-- The jump that control is in, if any, is one that leaves the statements. -/
def JumpsFrom (ps : List ImperativeStmt) (r : Flow × Cleanups) : Prop :=
  ∀ target, r.1.jump = some target → ImperativeStmt.anyEscapes target ps = true

namespace Db

variable (D : Db)

section Loops

variable {fuel : Nat} {body : List ImperativeStmt} {s s' : SessionTx} {c : Cleanups}
    {target : Option String}

theorem executeLoop_of_break (label : Option String)
    (h : D.executeImperativeStmts fuel body ⟨[], []⟩ s = .ok (.breakTo target, c) s') :
    D.executeLoop (fuel + 1) label body s =
      if target.isNone || target == label then .ok (.rows ⟨[], []⟩, c) s'
      else .ok (.breakTo target, c) s' := by
  cases hcatch : (target.isNone || target == label) <;>
    simp [executeLoop, andThen, bind, EStateM.bind, h, hcatch, pure, EStateM.pure]

theorem executeLoop_of_continue (label : Option String)
    (h : D.executeImperativeStmts fuel body ⟨[], []⟩ s = .ok (.continueTo target, c) s') :
    D.executeLoop (fuel + 1) label body s =
      if target.isNone || target == label then andThen (pure ((), c))
      (fun _ => D.executeLoop fuel label body) s' else .ok (.continueTo target, c) s' := by
  cases hcatch : (target.isNone || target == label) <;>
    simp [executeLoop, andThen, bind, EStateM.bind, h, hcatch, pure, EStateM.pure]

end Loops

theorem executeImperativeStmts_loop (fuel : Nat) (label : Option String)
    (body : List ImperativeStmt) (ret : NamedRows) :
    D.executeImperativeStmts (fuel + 1) [.loop label body] ret = D.executeLoop fuel label body := by
  simp only [executeImperativeStmts]
  refine andThen_of_yields (F := fun _ => True) (fun _ _ _ _ => trivial) fun flow _ => ?_
  cases flow <;> rfl

variable {ps : List ImperativeStmt}

theorem jumpsFrom_of_andThen {α : Type} {m : SessionM (α × Cleanups)}
    {f : α → SessionM (Flow × Cleanups)} (hf : ∀ a, Yields (JumpsFrom ps) (f a)) :
    Yields (JumpsFrom ps) (andThen m f) := by
  intro s b s' hb
  obtain ⟨a, s₁, c, -, hrest, -⟩ := andThen_eq_ok hb
  exact hf a.1 s₁ (b.1, c) s' hrest

theorem jumpsFrom_continueWith {part : List ImperativeStmt} {fuel : Nat}
    {rest : List ImperativeStmt}
    {m : SessionM (Flow × Cleanups)} (hm : Yields (JumpsFrom part) m)
    (hrest : ∀ r, Yields (JumpsFrom rest) (D.executeImperativeStmts fuel rest r))
    (hpart : ∀ target, ImperativeStmt.anyEscapes target part = true →
      ImperativeStmt.anyEscapes target ps = true)
    (htail : ∀ target, ImperativeStmt.anyEscapes target rest = true →
      ImperativeStmt.anyEscapes target ps = true) :
    Yields (JumpsFrom ps) (andThen m (D.continueWith fuel rest)) := by
  intro s b s' hb target htarget
  obtain ⟨⟨flow, cs⟩, s₁, c, hms, hnext, -⟩ := andThen_eq_ok hb
  cases flow with
  | rows r => exact htail target (hrest r s₁ (b.1, c) s' hnext target htarget)
  | termination rs | breakTo t | continueTo t =>
    obtain ⟨hb', -⟩ := pure_eq_ok.1 hnext
    rw [(congrArg Prod.fst hb').symm] at htarget
    exact hpart target (hm s _ s₁ hms target htarget)

/-- **What leaves the rounds of a loop, or a list of statements, is a jump that no loop in it
catches.** -/
theorem escapes_of_execute (fuel : Nat) :
    (∀ ps ret, Yields (JumpsFrom ps) (D.executeImperativeStmts fuel ps ret)) ∧
      ∀ label body, Yields (JumpsFrom [.loop label body]) (D.executeLoop fuel label body) := by
  induction fuel with
  | zero =>
    constructor
    · intro ps ret
      cases ps with
      | nil =>
        rw [executeImperativeStmts]
        exact Yields.pure fun target htarget => nomatch htarget
      | cons p rest => simp only [executeImperativeStmts]; exact Yields.throw _
    · intro label body
      rw [executeLoop]
      exact Yields.throw _
  | succ fuel ih =>
    obtain ⟨ihStmts, ihLoop⟩ := ih
    constructor
    · intro ps ret
      cases ps with
      | nil =>
        rw [executeImperativeStmts]
        exact Yields.pure fun target htarget => nomatch htarget
      | cons p rest =>
        -- A jump of the rest of the list is a jump of the list.
        have htail : ∀ target, ImperativeStmt.anyEscapes target rest = true →
            ImperativeStmt.anyEscapes target (p :: rest) = true := by
          intro target h
          rw [ImperativeStmt.anyEscapes, h, Bool.or_true]
        have hnext : ∀ r, Yields (JumpsFrom (p :: rest)) (D.executeImperativeStmts fuel rest r) :=
          fun r s b s' hb target htarget => htail target (ihStmts rest r s b s' hb target htarget)
        cases p with
        | breakTo t | continueTo t =>
          simp only [executeImperativeStmts]
          refine Yields.pure fun target htarget => ?_
          obtain rfl : t = target := Option.some.inj htarget
          simp [ImperativeStmt.anyEscapes, ImperativeStmt.escapes]
        | returns returned =>
          simp only [executeImperativeStmts]
          intro s b s' hb target htarget
          obtain ⟨rs, hrs⟩ := D.yields_executeReturns _ _ s b s' hb
          rw [hrs] at htarget
          cases htarget
        | tempDebug temp | sysOp op | program c | ignoreErrorProgram c =>
          simp only [executeImperativeStmts]
          exact jumpsFrom_of_andThen fun _ => hnext _
        | ifElse condition thenBranch elseBranch negated =>
          simp only [executeImperativeStmts]
          refine jumpsFrom_of_andThen fun rows => ?_
          refine D.jumpsFrom_continueWith (ihStmts _ _) (ihStmts rest) (fun target h => ?_) htail
          split at h <;> simp [ImperativeStmt.anyEscapes, ImperativeStmt.escapes, h]
        | loop label body =>
          simp only [executeImperativeStmts]
          refine D.jumpsFrom_continueWith (ihLoop label body) (ihStmts rest) (fun target h => ?_) htail
          simp only [ImperativeStmt.anyEscapes, Bool.or_false] at h
          simp [ImperativeStmt.anyEscapes, h]
        | tempSwap left right =>
          simp only [executeImperativeStmts]
          intro s b s' hb target htarget
          obtain ⟨_, s₁, -, hpure⟩ := bind_eq_ok.1 hb
          obtain ⟨rfl, -⟩ := pure_eq_ok.1 hpure
          cases htarget
    · intro label body s b s' hb target htarget
      rw [executeLoop] at hb
      obtain ⟨⟨flow, cs⟩, s₁, c, hm, hrest, -⟩ := andThen_eq_ok hb
      have hbody := ihStmts body _ s _ s₁ hm
      -- Only a jump that the loop does not catch comes from the round itself.
      have hpass : ∀ t, flow.jump = some t → (t.isNone || t == label) = false → t = target →
          ImperativeStmt.anyEscapes target [.loop label body] = true := by
        rintro t ht huncaught rfl
        simp [ImperativeStmt.anyEscapes, ImperativeStmt.escapes, huncaught, hbody t ht]
      cases flow with
      | rows r => exact ihLoop label body s₁ (b.1, c) s' hrest target htarget
      | termination rs =>
        obtain ⟨hb', -⟩ := pure_eq_ok.1 hrest
        rw [(congrArg Prod.fst hb').symm] at htarget
        cases htarget
      | breakTo t =>
        cases hcatch : (t.isNone || t == label) with
        | true =>
          simp only [hcatch, if_true] at hrest
          obtain ⟨hb', -⟩ := pure_eq_ok.1 hrest
          rw [(congrArg Prod.fst hb').symm] at htarget
          cases htarget
        | false =>
          simp only [hcatch, Bool.false_eq_true, if_false] at hrest
          obtain ⟨hb', -⟩ := pure_eq_ok.1 hrest
          rw [(congrArg Prod.fst hb').symm] at htarget
          exact hpass t rfl hcatch (Option.some.inj htarget)
      | continueTo t =>
        cases hcatch : (t.isNone || t == label) with
        | true =>
          simp only [hcatch, if_true] at hrest
          exact ihLoop label body s₁ (b.1, c) s' hrest target htarget
        | false =>
          simp only [hcatch, Bool.false_eq_true, if_false] at hrest
          obtain ⟨hb', -⟩ := pure_eq_ok.1 hrest
          rw [(congrArg Prod.fst hb').symm] at htarget
          exact hpass t rfl hcatch (Option.some.inj htarget)

/-! ### Whole scripts -/

def danglingControlFlow : SessionError := .bail "control flow has nowhere to go"

/-- What `execute_imperative` returns. -/
def executeImperativeResult (fuel : Nat) (ps : List ImperativeStmt) (d : Database) :
    Except SessionError (List NamedRows) :=
  let isWrite := ImperativeStmt.anyNeedsWriteLocks ps
  match (D.servingCallbacks isWrite).executeImperativeStmts fuel ps ⟨[], []⟩ (d.transact isWrite) with
  | .error e _ => .error e
  | .ok (.breakTo _, _) _ | .ok (.continueTo _, _) _ => .error danglingControlFlow
  | .ok (.rows r, cleanups) s => endWith [r] (delRanges cleanups s)
  | .ok (.termination rs, cleanups) s => endWith rs (delRanges cleanups s)
where
  endWith (rs : List NamedRows) : EStateM.Result SessionError SessionTx Unit →
    Except SessionError (List NamedRows)
    | .ok _ _ => .ok rs
    | .error e _ => .error e

theorem executeImperativeResult_of_jump {fuel : Nat} {d : Database} {flow : Flow}
    {c : Cleanups} {s : SessionTx} {target : Option String}
    (h : (D.servingCallbacks (ImperativeStmt.anyNeedsWriteLocks ps)).executeImperativeStmts fuel ps
      ⟨[], []⟩
      (d.transact (ImperativeStmt.anyNeedsWriteLocks ps)) = .ok (flow, c) s)
      (hjump : flow.jump = some target) :
    D.executeImperativeResult fuel ps d = .error danglingControlFlow := by
  unfold executeImperativeResult
  dsimp only
  rw [h]
  cases flow with
  | rows r => cases hjump
  | termination rs => cases hjump
  | breakTo t => rfl
  | continueTo t => rfl

/-- **Control flow of scripts.** A list without a `%swap` of its own is run and then what follows
it; exactly when a `%swap` of its own is carried out, what follows is lost. A loop catches the jumps
that have no label or its own one. Control leaves a list by a jump that no loop in the list catches,
and if the list is the script, the script fails. -/
theorem imperative_control_flow :
    (∀ fuel ps ret, ps.all (!·.isSwap) = true → ∀ qs, D.executeImperativeStmts fuel (ps ++ qs) ret =
      andThen (D.executeImperativeStmts fuel ps ret) (D.continueWith (fuel - ps.length) qs)) ∧
    (∀ fuel ps ret s, (∀ qs, D.executeImperativeStmts fuel (ps ++ qs) ret s =
      andThen (D.executeImperativeStmts fuel ps ret) (D.continueWith (fuel - ps.length) qs) s) ↔
      ¬ D.ReachesSwap fuel ps ret s) ∧
    (∀ fuel label body ret s target c s',
      D.executeImperativeStmts fuel body ⟨[], []⟩ s = .ok (.breakTo target, c) s' →
      D.executeImperativeStmts (fuel + 2) [.loop label body] ret s =
        if target.isNone || target == label then .ok (.rows ⟨[], []⟩, c) s'
        else .ok (.breakTo target, c) s') ∧
    (∀ fuel label body ret s target c s',
      D.executeImperativeStmts fuel body ⟨[], []⟩ s = .ok (.continueTo target, c) s' →
      D.executeImperativeStmts (fuel + 2) [.loop label body] ret s =
        if target.isNone || target == label then
          andThen (pure ((), c))
            (fun _ => D.executeImperativeStmts (fuel + 1) [.loop label body] ret) s'
        else .ok (.continueTo target, c) s') ∧
    (∀ fuel ps ret s flow c s' target, D.executeImperativeStmts fuel ps ret s = .ok (flow, c) s' →
      flow.jump = some target → ImperativeStmt.anyEscapes target ps = true) ∧
    ∀ fuel ps d flow c s target,
      (D.servingCallbacks (ImperativeStmt.anyNeedsWriteLocks ps)).executeImperativeStmts fuel ps
        ⟨[], []⟩ (d.transact (ImperativeStmt.anyNeedsWriteLocks ps)) = .ok (flow, c) s →
      flow.jump = some target →
      D.executeImperativeResult fuel ps d = .error danglingControlFlow := by
  refine ⟨?_, D.append_eq_iff, ?_, ?_, ?_, ?_⟩
  · intro fuel ps ret hps qs
    exact D.executeImperativeStmts_append hps fuel qs ret
  · intro fuel label body ret s target c s' h
    rw [executeImperativeStmts_loop]
    exact D.executeLoop_of_break label h
  · intro fuel label body ret s target c s' h
    rw [executeImperativeStmts_loop, executeImperativeStmts_loop]
    exact D.executeLoop_of_continue label h
  · intro fuel ps ret s flow c s' target h hjump
    exact (D.escapes_of_execute fuel).1 ps ret s (flow, c) s' h target hjump
  · intro fuel ps d flow c s target h hjump
    exact D.executeImperativeResult_of_jump h hjump

end Db

/-- `%loop %break %end` ends, `%loop %break a %end` hands its jump on and `%continue` is no script. -/
theorem jumps_in_and_out_of_loops :
    let s := Database.empty.transact false
    plainDb.executeImperativeStmts 3 [.loop none [.breakTo none]] ⟨[], []⟩ s =
        .ok (.rows ⟨[], []⟩, []) s ∧
      plainDb.executeImperativeStmts 3 [.loop none [.breakTo (some "a")]] ⟨[], []⟩ s =
        .ok (.breakTo (some "a"), []) s ∧
      plainDb.executeImperativeResult 1 [.continueTo none] .empty =
        .error Db.danglingControlFlow := by
  obtain ⟨-, -, hbreak, -, -, hdangling⟩ := Db.imperative_control_flow plainDb
  exact ⟨hbreak 1 none [.breakTo none] _ _ none [] _ rfl,
    hbreak 1 none [.breakTo (some "a")] _ _ (some "a") [] _ rfl,
    hdangling 1 [.continueTo none] .empty (.continueTo none) [] _ none rfl rfl⟩

/-! ### A statement that is lost -/

def createStmt (name : String) : ImperativeStmt := .program ⟨createProgram name, none⟩

/-- `{:create _a …} {:create _b …} %swap _a _b`. -/
def swapScript : List ImperativeStmt := [createStmt "_a", createStmt "_b", .tempSwap "_a" "_b"]

/-- The relation created behind the swap is there if the two parts are run one after the other, and
is not if the script is run as a whole. -/
theorem swap_loses_creation : (final
      (plainDb.executeImperativeStmts 9 (swapScript ++ [createStmt "r"]) ⟨[], []⟩)
        (Database.empty.transact true)).storeTx.get (metaKey "r") = none ∧
      ((final (Db.andThen (plainDb.executeImperativeStmts 9 swapScript ⟨[], []⟩)
      (plainDb.continueWith (9 - swapScript.length) [createStmt "r"]))
          (Database.empty.transact true)).storeTx.get (metaKey "r")).isSome = true := by
  constructor
  · decide +kernel
  · decide +kernel

end Session

end Retia
