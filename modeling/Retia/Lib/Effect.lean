import Mathlib.Order.Basic
import Mathlib.Logic.Function.Basic

/-!
# Computations that keep their state when they fail

Rules for `EStateM`: a computation changes a state and ends with a value or with an error, and in
both cases leaves the state as far as it came. Statements about such computations are of two kinds.

* `Effect.wp m Q E s` — run from `s`, the computation ends in `Q` when it succeeds and in `E` when
  it fails. The rules `wp_bind`, `wp_pure`, … read a computation from its first step to its last,
  `wp_mono` puts in the specification of a part, and `wp_forM` is the rule of loops.
* `Effect.Moves R m` — whatever the outcome, the state moves along the preorder `R`. This is what a
  computation may touch at all: `Moves` is closed under sequencing and loops, so it is read off the
  primitive operations. `Effect.Yields F m` says that every value it returns has `F`, from whatever
  state, and `Moves.bind_yields` makes that known to what follows.

`Effect.Keeps I F m` is between the two: an invariant of the state, kept whatever the outcome, with
what it makes known about the value. Where the steps of a success matter, `bind_eq_ok` takes it
apart.

`Effect.Ignores L I m` compares two runs: the computation neither reads nor writes a part `L` of the
state, so that another content of the part leads to the same outcome and is left as it is.
-/

namespace Retia

open List

namespace Effect

variable {ε σ α β : Type}

/-- Run from `s`, the computation succeeds into `Q` or fails into `E`. -/
def wp (m : EStateM ε σ α) (Q : α → σ → Prop) (E : ε → σ → Prop) (s : σ) : Prop :=
  match m s with
  | .ok a s' => Q a s'
  | .error e s' => E e s'

/-- The state that a computation leaves. -/
def final (m : EStateM ε σ α) (s : σ) : σ :=
  match m s with
  | .ok _ s' => s'
  | .error _ s' => s'

variable {f : α → EStateM ε σ β} {l : List α}

section Wp

variable {m : EStateM ε σ α} {Q Q' : α → σ → Prop} {E E' : ε → σ → Prop} {s : σ}

theorem wp_mono (h : wp m Q E s) (hQ : ∀ a s', Q a s' → Q' a s') (hE : ∀ e s', E e s' → E' e s') :
    wp m Q' E' s := by
  unfold wp at h ⊢
  split
  case h_1 a s' hm => exact hQ a s' (by simpa only [hm] using h)
  case h_2 e s' hm => exact hE e s' (by simpa only [hm] using h)

theorem wp_and (h : wp m Q E s) (h' : wp m Q' E' s) :
    wp m (fun a s' => Q a s' ∧ Q' a s') (fun e s' => E e s' ∧ E' e s') s := by
  unfold wp at h h' ⊢
  split
  case h_1 a s' hm => exact ⟨by simpa only [hm] using h, by simpa only [hm] using h'⟩
  case h_2 e s' hm => exact ⟨by simpa only [hm] using h, by simpa only [hm] using h'⟩

@[simp] theorem wp_pure {a : α} : wp (pure a : EStateM ε σ α) Q E s ↔ Q a s := Iff.rfl

@[simp] theorem wp_throw {e : ε} : wp (throw e : EStateM ε σ α) Q E s ↔ E e s := Iff.rfl

@[simp] theorem wp_get {Q : σ → σ → Prop} : wp (get : EStateM ε σ σ) Q E s ↔ Q s s := Iff.rfl

@[simp] theorem wp_bind {Q : β → σ → Prop} : wp (m >>= f) Q E s ↔
    wp m (fun a s' => wp (f a) Q E s') E s := by
  simp only [wp, bind, EStateM.bind]
  cases m s <;> rfl

theorem wp_iff_of_ok {a : α} {s' : σ} (h : m s = .ok a s') : wp m Q E s ↔ Q a s' := by
  rw [wp, h]

theorem wp_iff_of_error {e : ε} {s' : σ} (h : m s = .error e s') : wp m Q E s ↔ E e s' := by
  rw [wp, h]

/-- **Loops.** What holds before the loop and is kept by every round that succeeds holds at its end,
and a round that fails leaves `E`. -/
theorem wp_forM {f : α → EStateM ε σ PUnit} {I : σ → Prop}
    (hstep : ∀ a ∈ l, ∀ s, I s → wp (f a) (fun _ => I) E s) (h : I s) :
    wp (ForM.forM l f) (fun _ => I) E s := by
  induction l generalizing s with
  | nil => exact h
  | cons a l ih =>
    rw [forM_cons, wp_bind]
    refine wp_mono (hstep a mem_cons_self s h) (fun _ s' hs' => ?_) fun _ _ => id
    exact ih (fun b hb => hstep b (mem_cons_of_mem a hb)) hs'

end Wp

/-! ### What a computation may touch -/

/-- Whatever the outcome, the state moves along `R`. -/
def Moves (R : σ → σ → Prop) (m : EStateM ε σ α) : Prop := ∀ s, R s (final m s)

/-- Every value the computation returns has `F`. -/
def Yields (F : α → Prop) (m : EStateM ε σ α) : Prop := ∀ s a s', m s = .ok a s' → F a

namespace Yields

variable {F : α → Prop} {G : β → Prop}

theorem pure {a : α} (h : F a) : Yields F (pure a : EStateM ε σ α) := by
  intro s b s' hb
  cases hb
  exact h

theorem throw (e : ε) : Yields F (throw e : EStateM ε σ α) := by
  intro s a s' ha
  cases ha

theorem bind {m : EStateM ε σ α} (hm : Yields F m) (hf : ∀ a, F a → Yields G (f a)) :
    Yields G (m >>= f) := by
  intro s b s' hb
  simp only [Bind.bind, EStateM.bind] at hb
  cases hms : m s with
  | error e s₁ =>
    rw [hms] at hb
    cases hb
  | ok a s₁ =>
    rw [hms] at hb
    exact hf a (hm s a s₁ hms) s₁ b s' hb

theorem trivial (m : EStateM ε σ α) : Yields (fun _ => True) m := fun _ _ _ _ => True.intro

end Yields

theorem final_bind (m : EStateM ε σ α) (f : α → EStateM ε σ β) (s : σ) :
    final (m >>= f) s = match m s with
      | .ok a s' => final (f a) s'
      | .error _ s' => s' := by
  simp only [final, bind, EStateM.bind]
  cases m s <;> rfl

variable {m : EStateM ε σ α} {s s' : σ}

theorem final_eq_of_ok {a : α} (h : m s = .ok a s') : final m s = s' := by rw [final, h]

theorem final_eq_of_error {e : ε} (h : m s = .error e s') : final m s = s' := by rw [final, h]

namespace Moves

variable {R R' : σ → σ → Prop} {m : EStateM ε σ α}

theorem wp (h : Moves R m) (s : σ) : wp m (fun _ => R s) (fun _ => R s) s := by
  have hs := h s
  unfold Effect.wp
  unfold final at hs
  split <;> simp_all

theorem mono (h : Moves R m) (hR : ∀ s s', R s s' → R' s s') : Moves R' m :=
  fun s => hR _ _ (h s)

theorem modify {f : σ → σ} (h : ∀ s, R s (f s)) : Moves R (modify f : EStateM ε σ PUnit) := h

variable [IsPreorder σ R]

theorem of_final_eq (h : ∀ s, final m s = s) : Moves R m := by
  intro s
  rw [h]
  exact refl_of R s

theorem pure (a : α) : Moves R (pure a : EStateM ε σ α) := of_final_eq fun _ => rfl

theorem throw (e : ε) : Moves R (throw e : EStateM ε σ α) := of_final_eq fun _ => rfl

theorem get : Moves R (get : EStateM ε σ σ) := of_final_eq fun _ => rfl

/-- Sequencing, with what is known about the value in between. -/
theorem bind_yields {F : α → Prop} (hm : Moves R m) (hF : Yields F m)
    (hf : ∀ a, F a → Moves R (f a)) : Moves R (m >>= f) := by
  intro s
  have hs := hm s
  rw [final_bind]
  unfold final at hs
  split
  case h_1 a s' hok => exact trans_of R (by simpa only [hok] using hs) (hf a (hF s a s' hok) s')
  case h_2 e s' herr => simpa only [herr] using hs

theorem bind (hm : Moves R m) (hf : ∀ a, Moves R (f a)) : Moves R (m >>= f) :=
  bind_yields hm (Yields.trivial m) fun a _ => hf a

theorem forM {f : α → EStateM ε σ PUnit} (hf : ∀ a ∈ l, Moves R (f a)) :
    Moves R (ForM.forM l f) := by
  induction l with
  | nil => exact of_final_eq fun _ => rfl
  | cons a l ih =>
    rw [forM_cons]
    exact bind (hf a mem_cons_self) fun _ => ih fun b hb => hf b (mem_cons_of_mem a hb)

end Moves

/-! ### Invariants -/

/-- From a state with `I` the computation ends in one, whatever the outcome, and its value has `F`.
-/
def Keeps (I : σ → Prop) (F : α → Prop) (m : EStateM ε σ α) : Prop :=
  ∀ s, I s → wp m (fun a s' => I s' ∧ F a) (fun _ s' => I s') s

namespace Keeps

variable {I : σ → Prop} {F : α → Prop} {G : β → Prop} {m : EStateM ε σ α}

theorem pure {a : α} (h : F a) : Keeps I F (pure a : EStateM ε σ α) := fun _ hs => ⟨hs, h⟩

theorem throw (e : ε) : Keeps I F (throw e : EStateM ε σ α) := fun _ hs => hs

theorem bind (hm : Keeps I F m) (hf : ∀ a, F a → Keeps I G (f a)) : Keeps I G (m >>= f) := by
  intro s hs
  rw [wp_bind]
  exact wp_mono (hm s hs) (fun a s' h => hf a h.2 s' h.1) fun _ _ => id

theorem mono {F' : α → Prop} (h : Keeps I F m) (hF : ∀ a, F a → F' a) : Keeps I F' m :=
  fun s hs => wp_mono (h s hs) (fun a _ ha => ⟨ha.1, hF a ha.2⟩) fun _ _ => id

theorem forM {f : α → EStateM ε σ PUnit} (hf : ∀ a ∈ l, Keeps I (fun _ => True) (f a)) :
    Keeps I (fun _ => True) (ForM.forM l f) := by
  intro s hs
  refine wp_mono (wp_forM (I := I) (fun a ha s hs => ?_) hs) (fun _ _ h => ⟨h, trivial⟩) fun _ _ => id
  exact wp_mono (hf a ha s hs) (fun _ _ h => h.1) fun _ _ => id

theorem of_moves {R : σ → σ → Prop} (h : Moves R m) (hR : ∀ s s', R s s' → I s → I s') :
    Keeps I (fun _ => True) m := fun s hs =>
  wp_mono (h.wp s) (fun _ s' hs' => ⟨hR s s' hs' hs, trivial⟩) fun _ s' hs' => hR s s' hs' hs

/-- What is known about the value from elsewhere. -/
theorem and_yields {F' : α → Prop} (h : Keeps I F m) (hF' : Yields F' m) :
    Keeps I (fun a => F a ∧ F' a) m := by
  intro s hs
  have := h s hs
  cases hms : m s with
  | error e s' => exact (wp_iff_of_error hms).2 ((wp_iff_of_error hms).1 this)
  | ok a s' =>
    rw [wp_iff_of_ok hms] at this ⊢
    exact ⟨this.1, this.2, hF' s a s' hms⟩

/-- A part that keeps an invariant, inside a computation that does not. -/
theorem wp_bind {Q : β → σ → Prop} {E : ε → σ → Prop} {s : σ} (hm : Keeps I F m)
    (hs : I s) (hE : ∀ e s', I s' → E e s')
    (hf : ∀ a s', I s' → F a → Effect.wp (f a) Q E s') : Effect.wp (m >>= f) Q E s :=
  Effect.wp_bind.2 (wp_mono (hm s hs) (fun a s' h => hf a s' h.1 h.2) fun e s' => hE e s')

theorem final {s : σ} (h : Keeps I F m) (hs : I s) : I (final m s) := by
  have hI := h s hs
  unfold Effect.final
  unfold wp at hI
  split <;> simp_all

end Keeps

/-! ### Successes -/

/-- A sequence succeeds by its steps. -/
theorem bind_eq_ok {s s'' : σ} {b : β} : (m >>= f) s = .ok b s'' ↔
    ∃ a s', m s = .ok a s' ∧ f a s' = .ok b s'' := by
  simp only [Bind.bind, EStateM.bind]
  cases hm : m s with
  | ok a s' =>
    constructor
    · exact fun h => ⟨a, s', rfl, h⟩
    · rintro ⟨_, _, ⟨⟩, h⟩
      exact h
  | error e s' => simp

theorem pure_eq_ok {a b : α} : (pure a : EStateM ε σ α) s = .ok b s' ↔ a = b ∧ s = s' := by
  rw [show (pure a : EStateM ε σ α) s = .ok a s from rfl]
  simp

theorem Moves.of_ok {R : σ → σ → Prop} {a : α} (h : Moves R m) (hm : m s = .ok a s') : R s s' := by
  have := h s
  rwa [final_eq_of_ok hm] at this

/-! ### Parts of the state that do not matter -/

/-- A part of the state, which can be looked at and replaced. -/
structure Part (σ π : Type) where
  get : σ → π
  set : π → σ → σ
  get_set : ∀ p s, get (set p s) = p
  set_get : ∀ s, set (get s) s = s

def mapState (f : σ → σ) : EStateM.Result ε σ α → EStateM.Result ε σ α
  | .ok a s => .ok a (f s)
  | .error e s => .error e (f s)

/-- Between states with `I`, the content of the part makes no difference and is not changed. -/
def Ignores {π : Type} (L : Part σ π) (I : σ → Prop) (m : EStateM ε σ α) : Prop :=
  ∀ s q, I s → I (L.set q s) → m (L.set q s) = mapState (L.set q) (m s)

namespace Ignores

variable {π : Type} {L : Part σ π} {I : σ → Prop} {F : α → Prop} {m : EStateM ε σ α}

theorem pure (a : α) : Ignores L I (pure a : EStateM ε σ α) := fun _ _ _ _ => rfl

theorem throw (e : ε) : Ignores L I (throw e : EStateM ε σ α) := fun _ _ _ _ => rfl

theorem bind (hm : Ignores L I m) (hk : Keeps I F m) (hf : ∀ a, F a → Ignores L I (f a)) :
    Ignores L I (m >>= f) := by
  intro s q hs hq
  have heq := hm s q hs hq
  have hks := hk s hs
  have hkq := hk (L.set q s) hq
  simp only [Bind.bind, EStateM.bind]
  cases hms : m s with
  | error e s' =>
    rw [hms] at heq
    rw [heq]
    rfl
  | ok a s' =>
    rw [hms] at heq
    rw [wp_iff_of_ok hms] at hks
    rw [wp_iff_of_ok (heq : m (L.set q s) = .ok a (L.set q s'))] at hkq
    rw [heq]
    exact hf a hks.2 s' q hks.1 hkq.1

theorem mono {I' : σ → Prop} (h : Ignores L I' m) (hI : ∀ s, I s → I' s) : Ignores L I m :=
  fun s q hs hq => h s q (hI s hs) (hI _ hq)

/-- Sequencing, when what follows asks for nothing. -/
theorem bind_top (hm : Ignores L I m) (hf : ∀ a, Ignores L (fun _ => True) (f a)) :
    Ignores L I (m >>= f) := by
  intro s q hs hq
  have heq := hm s q hs hq
  simp only [Bind.bind, EStateM.bind]
  cases hms : m s with
  | error e s' =>
    rw [hms] at heq
    rw [heq]
    rfl
  | ok a s' =>
    rw [hms] at heq
    rw [heq]
    exact hf a s' q trivial trivial

/-- The part is left as it was. -/
theorem get_final (hm : Ignores L I m) {s : σ} (hs : I s) : L.get (final m s) = L.get s := by
  have heq := hm s (L.get s) hs (by rwa [L.set_get])
  rw [L.set_get] at heq
  unfold final
  cases hms : m s with
  | error e s' | ok a s' =>
    rw [hms] at heq
    injection heq with _ heq
    dsimp only
    rw [heq, L.get_set]

/-- A reading that does not depend on the part. -/
theorem read {g : σ → α} (hg : ∀ s q, I s → I (L.set q s) → g (L.set q s) = g s) :
    Ignores L I (do Pure.pure (g (← MonadState.get)) : EStateM ε σ α) := by
  intro s q hs hq
  exact congrArg (EStateM.Result.ok · (L.set q s)) (hg s q hs hq)

/-- A change that does not depend on the part. -/
theorem modify {f : σ → σ} (hf : ∀ s q, f (L.set q s) = L.set q (f s)) :
    Ignores L I (modify f : EStateM ε σ PUnit) := by
  intro s q _ _
  exact congrArg (EStateM.Result.ok PUnit.unit ·) (hf s q)

theorem forM {f : α → EStateM ε σ PUnit} (hf : ∀ a ∈ l, Ignores L (fun _ => True) (f a)) :
    Ignores L (fun _ => True) (ForM.forM l f) := by
  induction l with
  | nil => exact fun _ _ _ _ => rfl
  | cons a l ih =>
    rw [forM_cons]
    exact bind_top (hf a mem_cons_self) fun _ => ih fun b hb => hf b (mem_cons_of_mem a hb)

end Ignores

end Effect

end Retia
