import Mathlib.Order.Defs.Unbundled

/-!
# Weakest preconditions of programs with a state and errors

`wp x Q E s` says that the program `x`, run on the state `s`, ends with a value and a state that meet
`Q`, or with an error and a state that meet `E`. An error keeps the state it happened in.
-/

namespace ZzzOs.Lib

variable {ε σ α β : Type} {x y : EStateM ε σ α} {f : α → EStateM ε σ β} {s s' s₀ : σ}
  {Q Q' : α → σ → Prop} {R : β → σ → Prop} {E E' : ε → σ → Prop} {a : α} {e : ε} {g : σ → σ}
  {c : Prop}

def wp (x : EStateM ε σ α) (Q : α → σ → Prop) (E : ε → σ → Prop) (s : σ) : Prop :=
  match x s with
  | .ok a s' => Q a s'
  | .error e s' => E e s'

theorem wp_mono (hQ : ∀ a s, Q a s → Q' a s) (hE : ∀ e s, E e s → E' e s) (h : wp x Q E s) :
    wp x Q' E' s := by
  unfold wp at *
  cases hx : x s with
  | ok a s' =>
    rw [hx] at h
    exact hQ a s' h
  | error e s' =>
    rw [hx] at h
    exact hE e s' h

theorem wp_post (hQ : ∀ a s, Q a s → Q' a s) (h : wp x Q E s) : wp x Q' E s :=
  wp_mono hQ (fun _ _ he => he) h

theorem wp_and (h : wp x Q E s) (h' : wp x Q' E' s) :
    wp x (fun a s => Q a s ∧ Q' a s) (fun e s => E e s ∧ E' e s) s := by
  unfold wp at *
  cases hx : x s <;> rw [hx] at h h' <;> exact ⟨h, h'⟩

theorem wp_ok (h : wp x Q E s) (heq : x s = .ok a s') : Q a s' := by
  rw [wp, heq] at h
  exact h

theorem wp_of_ok (heq : x s = .ok a s') (hQ : Q a s') : wp x Q E s := by
  rw [wp, heq]
  exact hQ

theorem wp_error (h : wp x Q E s) (heq : x s = .error e s') : E e s' := by
  rw [wp, heq] at h
  exact h

theorem wp_any : wp x (fun _ _ => True) (fun _ _ => True) s := by
  unfold wp
  split <;> trivial

@[simp] theorem wp_pure : wp (pure a) Q E s ↔ Q a s := Iff.rfl

@[simp] theorem wp_get {Q : σ → σ → Prop} : wp (get : EStateM ε σ σ) Q E s ↔ Q s s := Iff.rfl

@[simp] theorem wp_modify {Q : PUnit → σ → Prop} :
    wp (modify g : EStateM ε σ PUnit) Q E s ↔ Q ⟨⟩ (g s) := Iff.rfl

@[simp] theorem wp_bind : wp (x >>= f) R E s ↔ wp x (fun a => wp (f a) R E) E s := by
  unfold wp
  show (match EStateM.bind x f s with | .ok a s' => R a s' | .error e s' => E e s') ↔ _
  unfold EStateM.bind
  cases x s <;> rfl

theorem wp_ite [Decidable c] (hx : c → wp x Q E s) (hy : ¬ c → wp y Q E s) :
    wp (if c then x else y) Q E s := by
  split
  · exact hx ‹_›
  · exact hy ‹_›

theorem wp_seq (h : wp x Q E s) (hf : ∀ a s, Q a s → wp (f a) R E s) : wp (x >>= f) R E s :=
  wp_bind.2 (wp_post hf h)

/-- The first program may end with errors of its own. -/
theorem wp_call (h : wp x Q E' s) (hE : ∀ e s, E' e s → E e s) (hf : ∀ a s, Q a s → wp (f a) R E s) :
    wp (x >>= f) R E s :=
  wp_bind.2 (wp_mono hf hE h)

theorem run_bind_ok (h : x s = .ok a s') : (x >>= f) s = f a s' := by
  show EStateM.bind x f s = _
  rw [EStateM.bind, h]

theorem wp_of_bind_ok (h : x s = .ok a s') (hf : wp (f a) R E s') : wp (x >>= f) R E s := by
  unfold wp at hf ⊢
  rw [run_bind_ok h]
  exact hf

theorem exists_ok_of_wp (h : wp x Q (fun _ _ => False) s) : ∃ a s', x s = .ok a s' ∧ Q a s' := by
  unfold wp at h
  cases hx : x s with
  | ok a s' =>
    rw [hx] at h
    exact ⟨a, s', rfl, h⟩
  | error e s' =>
    rw [hx] at h
    exact h.elim

/-- Cleaning up after the errors that `p` selects; the error stays the same. -/
def onError (p : ε → Bool) (x : EStateM ε σ α) (cleanup : EStateM ε σ Unit) : EStateM ε σ α :=
  fun s =>
    match x s with
    | .ok a s => .ok a s
    | .error e s =>
      if p e then
        match cleanup s with
        | .ok _ s => .error e s
        | .error e s => .error e s
      else .error e s

theorem wp_onError {p : ε → Bool} {c : EStateM ε σ Unit}
    (h : wp x Q (fun e s => if p e then wp c (fun _ s => E e s) E s else E e s) s) :
    wp (onError p x c) Q E s := by
  unfold wp onError at *
  cases hx : x s with
  | ok a s' =>
    rw [hx] at h
    exact h
  | error e s' =>
    rw [hx] at h
    dsimp only at h ⊢
    split at h
    · rename_i hp
      rw [if_pos hp]
      cases hc : c s' <;> rw [hc] at h <;> exact h
    · rename_i hp
      rw [if_neg hp]
      exact h

/-! ## Frames -/

/-- However the program ends, the state afterwards is related to the one before. -/
def Keeps (R : σ → σ → Prop) (x : EStateM ε σ α) : Prop :=
  ∀ s, wp x (fun _ s' => R s s') (fun _ s' => R s s') s

section Keeps

variable {R : σ → σ → Prop} [Std.Refl R] [IsTrans σ R]

omit [IsTrans σ R]

theorem Keeps.pure : Keeps R (Pure.pure a : EStateM ε σ α) := fun s => refl_of R s

theorem Keeps.throw : Keeps R (throw e : EStateM ε σ α) := fun s => refl_of R s

theorem Keeps.get : Keeps R (get : EStateM ε σ σ) := fun s => refl_of R s

omit [Std.Refl R]

theorem Keeps.ite [Decidable c] (hx : Keeps R x) (hy : Keeps R y) : Keeps R (if c then x else y) :=
  fun s => wp_ite (fun _ => hx s) fun _ => hy s

theorem Keeps.modify (h : ∀ s, R s (g s)) : Keeps R (modify g : EStateM ε σ PUnit) := h

variable [IsTrans σ R]

/-- The program is run in a state that is related to an earlier one. -/
theorem Keeps.after (hx : Keeps R x) (h : R s₀ s) :
    wp x (fun _ s' => R s₀ s') (fun _ s' => R s₀ s') s :=
  wp_mono (fun _ _ h' => trans_of R h h') (fun _ _ h' => trans_of R h h') (hx s)

theorem Keeps.bind (hx : Keeps R x) (hf : ∀ a, Keeps R (f a)) : Keeps R (x >>= f) :=
  fun s => wp_seq (hx s) fun a _ hs' => (hf a).after hs'

end Keeps

end ZzzOs.Lib
