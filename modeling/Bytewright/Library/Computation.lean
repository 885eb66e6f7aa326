/-! # Computations with a state and exceptions

What the calls of a computation do to a measure of its state, and computations in lockstep. -/

namespace Bytewright.Library

variable {ε σ τ α β γ δ : Type}

theorem bind_ok {m : EStateM ε σ α} {f : α → EStateM ε σ β} {s u : σ} {b : β}
    (h : (m >>= f) s = .ok b u) : ∃ a t, m s = .ok a t ∧ f a t = .ok b u := by
  change EStateM.bind m f s = _ at h
  cases hm : m s with
  | ok a t => exact ⟨a, t, rfl, by simpa [EStateM.bind, hm] using h⟩
  | error e t => simp [EStateM.bind, hm] at h

theorem ok_bind {m : EStateM ε σ α} {f : α → EStateM ε σ β} {s t : σ} {a : α} (h : m s = .ok a t) :
    (m >>= f) s = f a t := by
  change EStateM.bind m f s = _
  simp [EStateM.bind, h]

/-! ### A measure of the state -/

/-- Whenever `m` returns, the measure is lower by `n` at least. -/
def Lowers (μ : σ → Nat) (n : Nat) (m : EStateM ε σ α) : Prop :=
  ∀ s a t, m s = .ok a t → μ t + n ≤ μ s

namespace Lowers

variable {μ : σ → Nat} {i j : Nat} {m m' : EStateM ε σ α} {f : α → EStateM ε σ β}

theorem pure {a : α} : Lowers μ 0 (pure a : EStateM ε σ α) := by
  intro s b t h
  cases h
  exact Nat.le_refl _

theorem get : Lowers μ 0 (get : EStateM ε σ σ) := by
  intro s a t h
  cases h
  exact Nat.le_refl _

theorem bind (hm : Lowers μ i m) (hf : ∀ a, Lowers μ j (f a)) : Lowers μ (i + j) (m >>= f) := by
  intro s b u h
  rcases bind_ok h with ⟨a, t, hrun, hrest⟩
  have hfirst := hm _ _ _ hrun
  have hsecond := hf a _ _ _ hrest
  omega

theorem mono (h : Lowers μ i m) (hij : j ≤ i) : Lowers μ j m := by
  intro s a t hrun
  have := h _ _ _ hrun
  omega

/-- The first step need not lower the measure. -/
theorem after (hm : Lowers μ 0 m) (hf : ∀ a, Lowers μ i (f a)) : Lowers μ i (m >>= f) :=
  (hm.bind hf).mono (by omega)

/-- The first step lowers the measure enough. -/
theorem first (hm : Lowers μ i m) (hf : ∀ a, Lowers μ 0 (f a)) : Lowers μ i (m >>= f) := hm.bind hf

theorem fails (h : ∀ s a t, m s ≠ .ok a t) : Lowers μ i m := by
  intro s a t hrun
  exact absurd hrun (h s a t)

theorem ite {c : Prop} [Decidable c] (h : Lowers μ i m) (h' : Lowers μ i m') :
    Lowers μ i (if c then m else m') := by
  split
  · exact h
  · exact h'

end Lowers

/-! ### Lockstep

Two computations from related states. The first may run into a state of `E`, where the comparison
ends. -/

section Follows

variable {E : σ → Prop} {R : σ → τ → Prop} {g : α → γ} {k : β → δ} {m m' : EStateM ε σ α}
  {n n' : EStateM ε τ α} {f : α → EStateM ε σ β} {f' : α → EStateM ε τ β}

/-- If `m` returns then `n` returns from any related state, in a related state, and `g` sees no
difference in what they return; or `m` ends in `E`, which it never leaves. -/
structure Follows (E : σ → Prop) (R : σ → τ → Prop) (g : α → γ) (m : EStateM ε σ α)
    (n : EStateM ε τ α) : Prop where
  stays {s s' : σ} {a : α} (h : m s = .ok a s') (hs : E s) : E s'
  step {s s' : σ} {t : τ} {a : α} (h : m s = .ok a s') (hst : R s t) :
    E s' ∨ ∃ b t', n t = .ok b t' ∧ g b = g a ∧ R s' t'

namespace Follows

/-- A computation that never returns. -/
theorem fails (h : ∀ s a s', m s ≠ .ok a s') : Follows E R g m n where
  stays hm _ := absurd hm (h _ _ _)
  step hm _ := absurd hm (h _ _ _)

theorem pure {a b : α} (h : g b = g a) : Follows E R g (pure a : EStateM ε σ α) (pure b) where
  stays hm hs := by
    cases hm
    exact hs
  step hm hst := by
    cases hm
    exact .inr ⟨b, _, rfl, h, hst⟩

theorem bind (hm : Follows E R g m n) (hf : ∀ a b, g b = g a → Follows E R k (f a) (f' b)) :
    Follows E R k (m >>= f) (n >>= f') where
  stays h hs := by
    rcases bind_ok h with ⟨a, s, hrun, hrest⟩
    exact (hf a a rfl).stays hrest (hm.stays hrun hs)
  step h hst := by
    rcases bind_ok h with ⟨a, s, hrun, hrest⟩
    rcases hm.step hrun hst with hs | ⟨b, t, hn, hab, ht⟩
    · exact .inl ((hf a a rfl).stays hrest hs)
    · rw [ok_bind hn]
      exact (hf a b hab).step hrest ht

theorem map {h h' : α → β} (hm : Follows E R g m n) (hk : ∀ a b, g b = g a → k (h' b) = k (h a)) :
    Follows E R k (m >>= fun a => Pure.pure (h a)) (n >>= fun a => Pure.pure (h' a)) :=
  hm.bind fun a b hab => .pure (hk a b hab)

theorem ite {c c' : Prop} [Decidable c] [Decidable c'] (hc : c ↔ c') (h : Follows E R g m n)
    (h' : Follows E R g m' n') : Follows E R g (if c then m else m') (if c' then n else n') := by
  by_cases hcase : c
  · rwa [if_pos hcase, if_pos (hc.mp hcase)]
  · rwa [if_neg hcase, if_neg fun h => hcase (hc.mpr h)]

/-- Reading the state. -/
theorem get_bind {f : σ → EStateM ε σ α} {f' : τ → EStateM ε τ α}
    (h : ∀ s t, R s t → Follows E R g (f s) (f' t))
    (hstay : ∀ s, E s → ∃ t, Follows E R g (f s) (f' t)) :
    Follows E R g (get >>= f) (get >>= f') where
  stays {s _ _} hm hs := by
    rcases hstay s hs with ⟨t, ht⟩
    exact ht.stays hm hs
  step hm hst := (h _ _ hst).step hm hst

end Follows

/-- `m` returns in `E` only with its last step, and then `n` ends in `F` if it returns. -/
structure Finishes (E : σ → Prop) (R : σ → τ → Prop) (F : τ → Prop) (g : α → γ) (m : EStateM ε σ α)
    (n : EStateM ε τ α) : Prop extends Follows E R g m n where
  never {s s' : σ} {a : α} (hs : E s) : m s ≠ .ok a s'
  last {s s' : σ} {t t' : τ} {a b : α} (hst : R s t) (hm : m s = .ok a s') (hn : n t = .ok b t')
    (hs : E s') : g b = g a ∧ F t'

namespace Finishes

variable {F : τ → Prop}

theorem fails (h : ∀ s a s', m s ≠ .ok a s') : Finishes E R F g m n where
  toFollows := .fails h
  never _ := h _ _ _
  last _ hm := absurd hm (h _ _ _)

theorem after (hm : Follows E R g m n) (hf : ∀ a b, g b = g a → Finishes E R F k (f a) (f' b)) :
    Finishes E R F k (m >>= f) (n >>= f') where
  toFollows := hm.bind fun a b hab => (hf a b hab).toFollows
  never hs h := by
    rcases bind_ok h with ⟨a, s, hrun, hrest⟩
    exact (hf a a rfl).never (hm.stays hrun hs) hrest
  last hst h hn hs := by
    rcases bind_ok h with ⟨a, s, hrun, hrest⟩
    rcases bind_ok hn with ⟨b, t, hrun', hrest'⟩
    rcases hm.step hrun hst with hmid | ⟨b', t₁, hn, hab, ht⟩
    · exact absurd hrest ((hf a a rfl).never hmid)
    · rw [hrun'] at hn
      cases hn
      exact (hf a b hab).last ht hrest hrest' hs

theorem map {h h' : α → β} (hm : Finishes E R F g m n)
    (hk : ∀ a b, g b = g a → k (h' b) = k (h a)) :
    Finishes E R F k (m >>= fun a => Pure.pure (h a)) (n >>= fun a => Pure.pure (h' a)) where
  toFollows := hm.toFollows.map hk
  never hs hrun := by
    rcases bind_ok hrun with ⟨a, s, hrun, -⟩
    exact hm.never hs hrun
  last hst hrun hn hs := by
    rcases bind_ok hrun with ⟨a, s, hrun, hrest⟩
    rcases bind_ok hn with ⟨b, t, hrun', hrest'⟩
    cases hrest
    cases hrest'
    have hlast := hm.last hst hrun hrun' hs
    exact ⟨hk a b hlast.1, hlast.2⟩

theorem ite {c c' : Prop} [Decidable c] [Decidable c'] (hc : c ↔ c') (h : Finishes E R F g m n)
    (h' : Finishes E R F g m' n') : Finishes E R F g (if c then m else m') (if c' then n else n') := by
  by_cases hcase : c
  · rwa [if_pos hcase, if_pos (hc.mp hcase)]
  · rwa [if_neg hcase, if_neg fun h => hcase (hc.mpr h)]

theorem get_bind {f : σ → EStateM ε σ α} {f' : τ → EStateM ε τ α}
    (h : ∀ s t, R s t → Finishes E R F g (f s) (f' t))
    (hstay : ∀ s, E s → ∃ t, Finishes E R F g (f s) (f' t)) :
    Finishes E R F g (get >>= f) (get >>= f') where
  toFollows := .get_bind (fun s t hst => (h s t hst).toFollows) fun s hs =>
    (hstay s hs).imp fun _ ht => ht.toFollows
  never {s _ _} hs hm := by
    rcases hstay s hs with ⟨t, ht⟩
    exact ht.never hs hm
  last hst hm hn hs := (h _ _ hst).last hst hm hn hs

end Finishes

end Follows

/-! ### Agreement

Two computations that end alike, errors included. -/

section Alike

variable {Q : ε → ε → Prop} {R : σ → τ → Prop} {m m' : EStateM ε σ α} {n n' : EStateM ε τ α}
  {f : α → EStateM ε σ β} {f' : α → EStateM ε τ β}

/-- Both return the same in states that `R` relates, or both fail with errors that `Q` relates. -/
inductive Ends (Q : ε → ε → Prop) (R : σ → τ → Prop) :
    EStateM.Result ε σ α → EStateM.Result ε τ α → Prop where
  | ok {a : α} {s : σ} {t : τ} (h : R s t) : Ends Q R (.ok a s) (.ok a t)
  | error {e e' : ε} {s : σ} {t : τ} (h : Q e e') : Ends Q R (.error e s) (.error e' t)

/-- From related states `m` and `n` end alike. -/
def EndAlike (Q : ε → ε → Prop) (R : σ → τ → Prop) (m : EStateM ε σ α) (n : EStateM ε τ α) :
    Prop :=
  ∀ s t, R s t → Ends Q R (m s) (n t)

theorem Ends.bind {s : σ} {t : τ} {R' : σ → τ → Prop} (hm : Ends Q R (m s) (n t))
    (hf : ∀ a s t, R s t → Ends Q R' (f a s) (f' a t)) : Ends Q R' ((m >>= f) s) ((n >>= f') t) := by
  change Ends Q R' (EStateM.bind m f s) (EStateM.bind n f' t)
  rw [EStateM.bind, EStateM.bind]
  generalize m s = x at hm
  generalize n t = y at hm
  cases hm with
  | ok h => exact hf _ _ _ h
  | error h => exact .error h

namespace EndAlike

theorem pure (a : α) : EndAlike Q R (pure a : EStateM ε σ α) (pure a) := fun _ _ h => .ok h

theorem throw {e e' : ε} (h : Q e e') : EndAlike Q R (throw e : EStateM ε σ α) (throw e') :=
  fun _ _ _ => .error h

theorem bind (hm : EndAlike Q R m n) (hf : ∀ a, EndAlike Q R (f a) (f' a)) :
    EndAlike Q R (m >>= f) (n >>= f') :=
  fun s t h => (hm s t h).bind hf

theorem ite {c c' : Prop} [Decidable c] [Decidable c'] (hc : c ↔ c') (h : EndAlike Q R m n)
    (h' : EndAlike Q R m' n') : EndAlike Q R (if c then m else m') (if c' then n else n') := by
  by_cases hcase : c
  · rwa [if_pos hcase, if_pos (hc.mp hcase)]
  · rwa [if_neg hcase, if_neg fun h => hcase (hc.mpr h)]

/-- Reading the state. -/
theorem get_bind {f : σ → EStateM ε σ α} {f' : τ → EStateM ε τ α}
    (h : ∀ s t, R s t → EndAlike Q R (f s) (f' t)) : EndAlike Q R (get >>= f) (get >>= f') :=
  fun s t hst => h s t hst s t hst

end EndAlike

end Alike

/-! ### The same course

Two computations that return or fail alike and leave related states behind, so that what follows a
failure can be compared as well. -/

section Parallel

variable {R : σ → τ → Prop} {m m' : EStateM ε σ α} {n n' : EStateM ε τ α} {f : α → EStateM ε σ β}
  {f' : α → EStateM ε τ β}

/-- Both return the same or both fail with the same error, in states that `R` relates. -/
inductive Parallel (R : σ → τ → Prop) :
    EStateM.Result ε σ α → EStateM.Result ε τ α → Prop where
  | ok {a : α} {s : σ} {t : τ} (h : R s t) : Parallel R (.ok a s) (.ok a t)
  | error {e : ε} {s : σ} {t : τ} (h : R s t) : Parallel R (.error e s) (.error e t)

/-- From related states `m` and `n` take the same course. -/
def InParallel (R : σ → τ → Prop) (m : EStateM ε σ α) (n : EStateM ε τ α) : Prop :=
  ∀ s t, R s t → Parallel R (m s) (n t)

namespace InParallel

theorem pure (a : α) : InParallel R (pure a : EStateM ε σ α) (pure a) := fun _ _ h => .ok h

theorem throw (e : ε) : InParallel R (throw e : EStateM ε σ α) (throw e) := fun _ _ h => .error h

theorem bind (hm : InParallel R m n) (hf : ∀ a, InParallel R (f a) (f' a)) :
    InParallel R (m >>= f) (n >>= f') := by
  intro s t hst
  have hrun := hm s t hst
  change Parallel R (EStateM.bind m f s) (EStateM.bind n f' t)
  rw [EStateM.bind, EStateM.bind]
  generalize m s = x at hrun
  generalize n t = y at hrun
  cases hrun with
  | ok h => exact hf _ _ _ h
  | error h => exact .error h

theorem map (hm : InParallel R m n) (g : α → β) :
    InParallel R (m >>= fun a => Pure.pure (g a)) (n >>= fun a => Pure.pure (g a)) :=
  hm.bind fun a => .pure (g a)

/-- Reading the state. -/
theorem get_bind {f : σ → EStateM ε σ α} {f' : τ → EStateM ε τ α}
    (h : ∀ s t, R s t → InParallel R (f s) (f' t)) : InParallel R (get >>= f) (get >>= f') :=
  fun s t hst => h s t hst s t hst

end InParallel

end Parallel

end Bytewright.Library
