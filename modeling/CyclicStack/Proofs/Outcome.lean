import Mathlib
import CyclicStack.Failure

/-!
# Outcomes of computations that may fail

A computation built from steps that may fail succeeds exactly if all its steps do.  The
lemmas of this file take such a computation apart, step by step, so that later proofs
never unfold a `do` block.

An action is atomic if it leaves the state alone whenever it fails.  The types do not
say so: a failing action hands on a state like any other.
-/

namespace CyclicStack

section Except

variable {ε ε' α β : Type}

theorem bind_eq_ok_iff {x : Except ε α} {f : α → Except ε β} {b : β} :
    (x >>= f) = .ok b ↔ ∃ a, x = .ok a ∧ f a = .ok b := by
  cases x with
  | error e => simp [bind, Except.bind]
  | ok a => simp [bind, Except.bind]

theorem bind_eq_error_iff {x : Except ε α} {f : α → Except ε β} {e : ε} :
    (x >>= f) = .error e ↔ x = .error e ∨ ∃ a, x = .ok a ∧ f a = .error e := by
  cases x with
  | error e' => simp [bind, Except.bind]
  | ok a => simp [bind, Except.bind]

theorem map_eq_ok_iff {x : Except ε α} {f : α → β} {b : β} :
    (f <$> x) = .ok b ↔ ∃ a, x = .ok a ∧ f a = b := by
  cases x with
  | error e => simp [Functor.map, Except.map]
  | ok a => simp [Functor.map, Except.map]

@[simp] theorem mapError_eq_ok_iff {x : Except ε α} {f : ε → ε'} {a : α} :
    x.mapError f = .ok a ↔ x = .ok a := by
  cases x <;> simp [Except.mapError]

/-- What each step of a fold keeps, the whole fold keeps. -/
theorem foldlM_invariant {σ : Type} {step : σ → α → Except ε σ} (P : σ → Prop)
    (hstep : ∀ s a s', P s → step s a = .ok s' → P s')
    {items : List α} {s s' : σ} (hs : P s) (h : items.foldlM step s = .ok s') :
    P s' := by
  induction items generalizing s with
  | nil =>
      cases h
      exact hs
  | cons a rest ih =>
      rw [List.foldlM_cons, bind_eq_ok_iff] at h
      obtain ⟨t, hfirst, hrest⟩ := h
      exact ih (hstep s a t hs hfirst) hrest

theorem mapM_eq_ok_iff {f : α → Except ε β} {items : List α} {results : List β} :
    items.mapM f = .ok results ↔
      List.Forall₂ (fun a b => f a = .ok b) items results := by
  induction items generalizing results with
  | nil => simp [pure, Except.pure, eq_comm]
  | cons a rest ih =>
      rw [List.mapM_cons, bind_eq_ok_iff, List.forall₂_cons_left_iff]
      simp only [bind_eq_ok_iff, ih]
      constructor
      · rintro ⟨b, hb, bs, hbs, h⟩
        cases h
        exact ⟨b, bs, hb, hbs, rfl⟩
      · rintro ⟨b, bs, hb, hbs, rfl⟩
        exact ⟨b, hb, bs, hbs, rfl⟩

theorem exists_getElem?_of_forall₂ {R : α → β → Prop} {items : List α}
    {results : List β} (h : List.Forall₂ R items results) {k : Nat} {a : α}
    (ha : items[k]? = some a) :
    ∃ b, results[k]? = some b ∧ R a b := by
  induction h generalizing k with
  | nil => simp at ha
  | cons hab _ ih =>
      cases k with
      | zero =>
          cases ha
          exact ⟨_, rfl, hab⟩
      | succ k => exact ih ha

theorem exists_mapM_eq_ok {f : α → Except ε β} {items : List α}
    (h : ∀ a ∈ items, ∃ b, f a = .ok b) :
    ∃ results, items.mapM f = .ok results := by
  simp only [mapM_eq_ok_iff]
  induction items with
  | nil => exact ⟨[], .nil⟩
  | cons a rest ih =>
      obtain ⟨b, hb⟩ := h a List.mem_cons_self
      obtain ⟨bs, hbs⟩ := ih fun a' ha' => h a' (List.mem_cons_of_mem a ha')
      exact ⟨b :: bs, .cons hb hbs⟩

theorem mapM_eq_error {f : α → Except ε β} {items : List α} {e : ε}
    (h : items.mapM f = .error e) :
    ∃ before a after, items = before ++ a :: after ∧
      (∀ b ∈ before, ∃ result, f b = .ok result) ∧
      f a = .error e := by
  induction items with
  | nil => simp [pure, Except.pure] at h
  | cons a rest ih =>
      rw [List.mapM_cons, bind_eq_error_iff] at h
      rcases h with herror | ⟨result, hresult, h⟩
      · exact ⟨[], a, rest, rfl, List.forall_mem_nil _, herror⟩
      · rcases bind_eq_error_iff.mp h with hrest | ⟨_, _, hpure⟩
        · obtain ⟨before, b, after, rfl, hbefore, herror⟩ := ih hrest
          refine ⟨a :: before, b, after, rfl, ?_, herror⟩
          exact List.forall_mem_cons.mpr ⟨⟨result, hresult⟩, hbefore⟩
        · simp [pure, Except.pure] at hpure

end Except

/-! ## Computations that go alike -/

section Alike

variable {ε ε' α α' β β' σ σ' : Type}

/-- Both computations succeed with related values, or both fail with related errors. -/
inductive Alike (V : α → α' → Prop) (E : ε → ε' → Prop) :
    Except ε α → Except ε' α' → Prop where
  | ok {a : α} {a' : α'} (h : V a a') : Alike V E (.ok a) (.ok a')
  | error {e : ε} {e' : ε'} (h : E e e') : Alike V E (.error e) (.error e')

theorem Alike.refl (x : Except ε α) :
    Alike Eq Eq x x := by
  cases x with
  | error e => exact .error rfl
  | ok a => exact .ok rfl

theorem Alike.imp {V W : α → α' → Prop} {E F : ε → ε' → Prop} {x : Except ε α}
    {x' : Except ε' α'} (h : Alike V E x x') (hV : ∀ a a', V a a' → W a a')
    (hE : ∀ e e', E e e' → F e e') :
    Alike W F x x' := by
  cases h with
  | ok h => exact .ok (hV _ _ h)
  | error h => exact .error (hE _ _ h)

theorem Alike.mapError {ε₁ ε₁' : Type} {V : α → α' → Prop} {E : ε → ε' → Prop}
    {E₁ : ε₁ → ε₁' → Prop} {f : ε → ε₁} {f' : ε' → ε₁'} {x : Except ε α}
    {x' : Except ε' α'} (h : Alike V E x x') (hE : ∀ e e', E e e' → E₁ (f e) (f' e')) :
    Alike V E₁ (x.mapError f) (x'.mapError f') := by
  cases h with
  | ok h => exact .ok h
  | error h => exact .error (hE _ _ h)

theorem Alike.bind {V : α → α' → Prop} {W : β → β' → Prop} {E : ε → ε' → Prop}
    {x : Except ε α} {x' : Except ε' α'} {f : α → Except ε β} {f' : α' → Except ε' β'}
    (h : Alike V E x x') (hf : ∀ a a', V a a' → Alike W E (f a) (f' a')) :
    Alike W E (x >>= f) (x' >>= f') := by
  cases h with
  | ok h => exact hf _ _ h
  | error h => exact .error h

theorem Alike.foldlM {V : σ → σ' → Prop} {R : α → α' → Prop} {E : ε → ε' → Prop}
    {step : σ → α → Except ε σ} {step' : σ' → α' → Except ε' σ'}
    (hstep : ∀ s s' a a', V s s' → R a a' → Alike V E (step s a) (step' s' a'))
    {items : List α} {items' : List α'} (hitems : List.Forall₂ R items items')
    {s : σ} {s' : σ'} (hs : V s s') :
    Alike V E (items.foldlM step s) (items'.foldlM step' s') := by
  induction hitems generalizing s s' with
  | nil => exact .ok hs
  | cons hfirst _ ih =>
      rw [List.foldlM_cons, List.foldlM_cons]
      exact (hstep _ _ _ _ hs hfirst).bind fun t t' ht => ih ht

theorem Alike.mapM {R : α → α' → Prop} {V : β → β' → Prop} {E : ε → ε' → Prop}
    {f : α → Except ε β} {f' : α' → Except ε' β'}
    (hf : ∀ a a', R a a' → Alike V E (f a) (f' a'))
    {items : List α} {items' : List α'} (hitems : List.Forall₂ R items items') :
    Alike (List.Forall₂ V) E (items.mapM f) (items'.mapM f') := by
  induction hitems with
  | nil => exact .ok .nil
  | cons hfirst _ ih =>
      rw [List.mapM_cons, List.mapM_cons]
      exact (hf _ _ hfirst).bind fun b b' hb =>
        ih.bind fun bs bs' hbs => .ok (.cons hb hbs)

end Alike

namespace Action

variable {σ α β : Type}

theorem bind_run (action : Action σ α) (next : α → Action σ β) (s : σ) :
    (action >>= next) s =
      match action s with
      | .ok a s => next a s
      | .error failure s => .error failure s := by
  change EStateM.bind action next s = _
  unfold EStateM.bind
  cases action s <;> rfl

theorem pure_run (a : α) (s : σ) :
    (pure a : Action σ α) s = .ok a s :=
  rfl

theorem get_run (s : σ) :
    (get : Action σ σ) s = .ok s s :=
  rfl

theorem lift_run (x : Except Failure α) (s : σ) :
    (lift x : Action σ α) s =
      match x with
      | .ok a => .ok a s
      | .error failure => .error failure s := by
  cases x <;> rfl

theorem zoom_eq_error_iff {τ : Type} {part : τ → σ} {replace : σ → τ → τ}
    {action : Action σ α} {t t' : τ} {failure : Failure} :
    zoom part replace action t = .error failure t' ↔
      ∃ s, action (part t) = .error failure s ∧ replace s t = t' := by
  unfold zoom
  cases action (part t) <;> simp

/-- Both results are the same value or the same failure, with related states. -/
inductive SameOutcome {σ' : Type} (S : σ → σ' → Prop) :
    EStateM.Result Failure σ α → EStateM.Result Failure σ' α → Prop where
  | ok {s : σ} {s' : σ'} (a : α) (h : S s s') : SameOutcome S (.ok a s) (.ok a s')
  | error {s : σ} {s' : σ'} (failure : Failure) (h : S s s') :
      SameOutcome S (.error failure s) (.error failure s')

theorem SameOutcome.imp {σ' : Type} {S T : σ → σ' → Prop}
    {r : EStateM.Result Failure σ α} {r' : EStateM.Result Failure σ' α}
    (h : SameOutcome S r r') (hS : ∀ s s', S s s' → T s s') :
    SameOutcome T r r' := by
  cases h with
  | ok a h => exact .ok a (hS _ _ h)
  | error failure h => exact .error failure (hS _ _ h)

theorem SameOutcome.ok_or_error {σ' : Type} {S : σ → σ' → Prop}
    {r : EStateM.Result Failure σ α} {r' : EStateM.Result Failure σ' α}
    (h : SameOutcome S r r') :
    (∃ a s s', r = .ok a s ∧ r' = .ok a s' ∧ S s s') ∨
      ∃ failure s s', r = .error failure s ∧ r' = .error failure s' ∧ S s s' := by
  cases h with
  | ok a h => exact .inl ⟨a, _, _, rfl, rfl, h⟩
  | error failure h => exact .inr ⟨failure, _, _, rfl, rfl, h⟩

/-- The action leaves the state as it was whenever it fails. -/
def Atomic (action : Action σ α) : Prop :=
  ∀ s failure s', action s = .error failure s' → s' = s

/-- An atomic action on a part of a state is atomic on the whole, if putting back what
was taken out changes nothing. -/
theorem Atomic.zoom_error {τ : Type} {part : τ → σ} {replace : σ → τ → τ}
    {action : Action σ α} (h : Atomic action) {t t' : τ} {failure : Failure}
    (hreplace : replace (part t) t = t)
    (herror : zoom part replace action t = .error failure t') :
    t' = t := by
  unfold zoom at herror
  cases haction : action (part t) with
  | ok a s =>
      rw [haction] at herror
      cases herror
  | error _ s =>
      rw [haction] at herror
      cases herror
      rw [h _ _ _ haction, hreplace]

end Action

end CyclicStack
