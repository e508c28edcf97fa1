import Mathlib.Data.List.Forall2
import Mathlib.Data.List.Induction
import Mathlib.Logic.Basic

/-!
# Computations that keep their effects when they fail

A program that acts on the world and may fail ends with a value or an error, and with the world as
it left it in both cases: an error does not undo what was done before it. `Act σ ε α` is that
type, over any states `σ` and errors `ε`, with the postconditions of both endings in one
weakest precondition:

* `wp m Q E s`: run from `s`, `m` ends in `Q` when it returns and in `E` when it fails. The `simp`
  set of `wp` runs a program symbolically down to the calls it makes, and `wp_mono` replaces a call
  by its specification.
* `each`: the loop over a list that goes on while its body says so. `each_wp` is its invariant rule,
  indexed by the items still to come.
* `Stays R m`: however it ends, `m` relates its first and last state by `R`. For a reflexive and
  transitive `R` this composes with no invariant to state (`Stays.bind`, `Stays.each`).
-/

namespace Aurade

/-- A computation over states `σ`: it ends with a value or an error, and with the state it left. -/
def Act (σ ε α : Type) : Type := σ → Except ε α × σ

namespace Act

variable {σ ε ε' α β ι ρ : Type}

instance : Monad (Act σ ε) where
  pure a := fun s => (.ok a, s)
  bind m f := fun s =>
    match m s with
    | (.ok a, s') => f a s'
    | (.error e, s') => (.error e, s')

instance : LawfulMonad (Act σ ε) := LawfulMonad.mk' _
  (fun m => funext fun s => by
    show (match m s with
      | (.ok a, s') => (.ok a, s')
      | (.error e, s') => (.error e, s')) = m s
    rcases m s with ⟨_ | a, s'⟩ <;> rfl)
  (fun _ _ => rfl)
  (fun m f g => funext fun s => by
    show (match (match m s with
      | (.ok a, s') => f a s'
      | (.error e, s') => (.error e, s')) with
      | (.ok b, s') => g b s'
      | (.error e, s') => (.error e, s')) = _
    simp only [bind]
    rcases m s with ⟨_ | a, s'⟩ <;> rfl)

/-- End with an error. -/
def fail (e : ε) : Act σ ε α := fun s => (.error e, s)

/-- Read the state. -/
def get : Act σ ε σ := fun s => (.ok s, s)

/-- Change the state. -/
def modify (f : σ → σ) : Act σ ε Unit := fun s => (.ok (), f s)

/-- End as a computed result says. -/
def lift (r : Except ε α) : Act σ ε α := fun s => (r, s)

/-- Run `m` and hand back how it ended, as a caller that matches on a result does. -/
def attempt (m : Act σ ε α) : Act σ ε' (Except ε α) := fun s => (.ok (m s).1, (m s).2)

/-- Run `m`, with its error translated. -/
def mapErr (f : ε → ε') (m : Act σ ε α) : Act σ ε' α := fun s =>
  match m s with
  | (.ok a, s') => (.ok a, s')
  | (.error e, s') => (.error (f e), s')

/-- Run the body on the items in order, for as long as it answers `go`; the first other answer is
the loop's own. -/
def each [DecidableEq ρ] (go : ρ) (body : ι → Act σ ε ρ) : List ι → Act σ ε ρ
  | [] => pure go
  | x :: xs => do
    let r ← body x
    if r = go then each go body xs else pure r

/-- The items whose turn comes in `each`, with the state each of them finds. -/
def turns [DecidableEq ρ] (go : ρ) (body : ι → Act σ ε ρ) : List ι → σ → List (ι × σ)
  | [], _ => []
  | x :: xs, s =>
    (x, s) :: match body x s with
      | (.ok r, s') => if r = go then turns go body xs s' else []
      | (.error _, _) => []

@[simp] theorem lift_ok (a : α) : (lift (.ok a) : Act σ ε α) = pure a := rfl

@[simp] theorem lift_error (e : ε) : (lift (.error e) : Act σ ε α) = fail e := rfl

/-- A step that returns, and what comes behind it. -/
theorem bind_of_ok {m : Act σ ε α} {s s' : σ} {a : α} (h : m s = (.ok a, s'))
    (f : α → Act σ ε β) : (m >>= f) s = f a s' := by
  show (match m s with
    | (.ok a, s') => f a s'
    | (.error e, s') => (.error e, s')) = _
  rw [h]

/-- A step that fails ends the computation. -/
theorem bind_of_error {m : Act σ ε α} {s s' : σ} {e : ε} (h : m s = (.error e, s'))
    (f : α → Act σ ε β) : (m >>= f) s = (.error e, s') := by
  show (match m s with
    | (.ok a, s') => f a s'
    | (.error e, s') => (.error e, s')) = _
  rw [h]

@[simp] theorem mapErr_pure (f : ε → ε') (a : α) :
    mapErr f (pure a : Act σ ε α) = pure a := rfl

theorem except_bind_eq_ok {x : Except ε α} {f : α → Except ε β} {b : β} :
    (x >>= f) = .ok b ↔ ∃ a, x = .ok a ∧ f a = .ok b := by
  cases x <;> simp [bind, Except.bind]

theorem except_map_eq_ok {x : Except ε α} {f : α → β} {b : β} :
    x.map f = .ok b ↔ ∃ a, x = .ok a ∧ f a = b := by
  cases x <;> simp [Except.map]

/-- A map over a list returns where each of its steps does. -/
theorem except_mapM_eq_ok {f : α → Except ε β} {as : List α} {bs : List β} :
    as.mapM f = .ok bs ↔ List.Forall₂ (fun a b => f a = .ok b) as bs := by
  induction as generalizing bs with
  | nil =>
    rw [List.mapM_nil, List.forall₂_nil_left_iff]
    exact ⟨fun h => (Except.ok.inj h).symm, fun h => h ▸ rfl⟩
  | cons a as ih =>
    rw [List.mapM_cons, List.forall₂_cons_left_iff]
    simp only [except_bind_eq_ok, ih]
    constructor
    · rintro ⟨b, hb, bs', hbs, h⟩
      exact ⟨b, bs', hb, hbs, (Except.ok.inj h).symm⟩
    · rintro ⟨b, bs', hb, hbs, rfl⟩
      exact ⟨b, hb, bs', hbs, rfl⟩

/-- What each step of a fold keeps, of the part that is done, holds of the whole. -/
theorem except_foldlM_done {I : List α → σ → Prop} {f : σ → α → Except ε σ} {s : σ} (h₀ : I [] s)
    (step : ∀ done a s s', I done s → f s a = .ok s' → I (done ++ [a]) s') {as : List α} {s' : σ}
    (h : as.foldlM f s = .ok s') : I as s' := by
  induction as using List.reverseRecOn generalizing s' with
  | nil =>
    rw [List.foldlM_nil] at h
    rwa [← Except.ok.inj h]
  | append_singleton as a ih =>
    rw [List.foldlM_append, except_bind_eq_ok] at h
    obtain ⟨m, hm, h⟩ := h
    rw [List.foldlM_cons, except_bind_eq_ok] at h
    obtain ⟨m', hm', h⟩ := h
    rw [List.foldlM_nil] at h
    rw [← Except.ok.inj h]
    exact step as a m m' (ih hm) hm'

/-! ## Weakest preconditions -/

/-- Run from `s`, `m` ends in `Q` when it returns and in `E` when it fails. -/
def wp (m : Act σ ε α) (Q : α → σ → Prop) (E : ε → σ → Prop) (s : σ) : Prop :=
  match m s with
  | (.ok a, s') => Q a s'
  | (.error e, s') => E e s'

section Rules

variable {m : Act σ ε α} {Q Q' : α → σ → Prop} {E E' : ε → σ → Prop} {s : σ}

@[simp] theorem wp_pure (a : α) : wp (pure a : Act σ ε α) Q E s ↔ Q a s := Iff.rfl

@[simp] theorem wp_bind (f : α → Act σ ε β) (Q : β → σ → Prop) :
    wp (m >>= f) Q E s ↔ wp m (fun a s' => wp (f a) Q E s') E s := by
  show (match (match m s with
    | (.ok a, s') => f a s'
    | (.error e, s') => (.error e, s')) with
    | (.ok a, s') => Q a s'
    | (.error e, s') => E e s') ↔ _
  unfold wp
  rcases m s with ⟨_ | a, s'⟩ <;> rfl

@[simp] theorem wp_map (f : α → β) (Q : β → σ → Prop) :
    wp (f <$> m) Q E s ↔ wp m (fun a s' => Q (f a) s') E s :=
  wp_bind (fun a => pure (f a)) Q

@[simp] theorem wp_fail (e : ε) : wp (fail e : Act σ ε α) Q E s ↔ E e s := Iff.rfl

@[simp] theorem wp_get (Q : σ → σ → Prop) : wp (get : Act σ ε σ) Q E s ↔ Q s s := Iff.rfl

@[simp] theorem wp_modify (f : σ → σ) (Q : Unit → σ → Prop) :
    wp (modify f : Act σ ε Unit) Q E s ↔ Q () (f s) := Iff.rfl

@[simp] theorem wp_attempt (Q : Except ε α → σ → Prop) (E : ε' → σ → Prop) :
    wp (attempt m : Act σ ε' (Except ε α)) Q E s ↔
      wp m (fun a s' => Q (.ok a) s') (fun e s' => Q (.error e) s') s := by
  show Q (m s).1 (m s).2 ↔ _
  unfold wp
  rcases m s with ⟨_ | a, s'⟩ <;> rfl

@[simp] theorem wp_mapErr (f : ε → ε') (E : ε' → σ → Prop) :
    wp (mapErr f m) Q E s ↔ wp m Q (fun e s' => E (f e) s') s := by
  unfold wp mapErr
  rcases m s with ⟨_ | a, s'⟩ <;> rfl

@[simp] theorem wp_ite (c : Prop) [Decidable c] (m' : Act σ ε α) :
    wp (if c then m else m') Q E s ↔ (c → wp m Q E s) ∧ (¬ c → wp m' Q E s) := by
  by_cases h : c <;> simp [h]

/-- The rule of consequence. -/
theorem wp_mono (h : wp m Q E s) (hQ : ∀ a s', Q a s' → Q' a s')
    (hE : ∀ e s', E e s' → E' e s') : wp m Q' E' s := by
  unfold wp at h ⊢
  rcases hm : m s with ⟨_ | a, s'⟩ <;> rw [hm] at h
  · exact hE _ _ h
  · exact hQ _ _ h

theorem wp_and (h : wp m Q E s) (h' : wp m Q' E' s) :
    wp m (fun a s' => Q a s' ∧ Q' a s') (fun e s' => E e s' ∧ E' e s') s := by
  unfold wp at h h' ⊢
  rcases hm : m s with ⟨_ | a, s'⟩ <;> rw [hm] at h h' <;> exact ⟨h, h'⟩

theorem wp_ok (h : wp m Q E s) {a : α} {s' : σ} (hm : m s = (.ok a, s')) : Q a s' := by
  unfold wp at h
  rwa [hm] at h

theorem wp_error (h : wp m Q E s) {e : ε} {s' : σ} (hm : m s = (.error e, s')) : E e s' := by
  unfold wp at h
  rwa [hm] at h

theorem wp_of_ok {a : α} {s' : σ} (hm : m s = (.ok a, s')) (h : Q a s') : wp m Q E s := by
  unfold wp
  rwa [hm]

theorem wp_of_error {e : ε} {s' : σ} (hm : m s = (.error e, s')) (h : E e s') : wp m Q E s := by
  unfold wp
  rwa [hm]

/-- The run itself, as the strongest postcondition. -/
theorem wp_run (m : Act σ ε α) (s : σ) :
    wp m (fun a s' => m s = (.ok a, s')) (fun e s' => m s = (.error e, s')) s := by
  unfold wp
  rcases m s with ⟨_ | a, s'⟩ <;> rfl

/-- What a computation ends in, said of its last state alone. -/
theorem wp_state {P : σ → Prop} (h : wp m (fun _ s' => P s') (fun _ s' => P s') s) :
    P (m s).2 := by
  unfold wp at h
  rcases hm : m s with ⟨_ | a, s'⟩ <;> rw [hm] at h <;> exact h

theorem wp_of_state {P : σ → Prop} (h : P (m s).2) :
    wp m (fun _ s' => P s') (fun _ s' => P s') s := by
  unfold wp
  rcases hm : m s with ⟨_ | a, s'⟩ <;> rw [hm] at h <;> exact h

/-- **The invariant rule of `each`**: an invariant indexed by the items still to come. -/
theorem each_wp [DecidableEq ρ] {go : ρ} {body : ι → Act σ ε ρ} {Q : ρ → σ → Prop}
    (I : List ι → σ → Prop) (hnil : ∀ s, I [] s → Q go s)
    (hcons : ∀ x xs s, I (x :: xs) s →
      wp (body x) (fun r s' => if r = go then I xs s' else Q r s') E s) :
    ∀ (xs : List ι) (s : σ), I xs s → wp (each go body xs) Q E s := by
  intro xs
  induction xs with
  | nil => exact fun s h => hnil s h
  | cons x xs ih =>
    intro s h
    simp only [each, wp_bind, wp_ite, wp_pure]
    refine wp_mono (hcons x xs s h) (fun r s' hr => ?_) (fun _ _ h => h)
    constructor
    · intro hgo
      exact ih s' (by simpa only [hgo, if_true] using hr)
    · intro hgo
      simpa only [hgo, if_false] using hr

/-- A loop over one item is its body. -/
theorem each_singleton [DecidableEq ρ] (go : ρ) (body : ι → Act σ ε ρ) (x : ι) :
    each go body [x] = body x := by
  have hpure : ∀ r, (if r = go then pure go else pure r : Act σ ε ρ) = pure r := fun r => by
    split
    · next h => rw [h]
    · rfl
  simp only [each, hpure, bind_pure]

/-- What each turn keeps unless it may lose it, a loop keeps unless some turn may lose it. -/
theorem each_turns [DecidableEq ρ] {go : ρ} {body : ι → Act σ ε ρ} {F : σ → Prop}
    {X : ι → σ → Prop} (h : ∀ x s, F s → X x s ∨ F (body x s).2) (xs : List ι) (s : σ) (hs : F s) :
    (∃ y ∈ turns go body xs s, X y.1 y.2) ∨ F (each go body xs s).2 := by
  induction xs generalizing s with
  | nil => exact Or.inr hs
  | cons x xs ih =>
    rcases h x s hs with hx | hF
    · exact Or.inl ⟨(x, s), List.mem_cons_self, hx⟩
    have hrun : each go body (x :: xs) s =
        match body x s with
        | (.ok r, s') => (if r = go then each go body xs else pure r) s'
        | (.error e, s') => (.error e, s') := rfl
    rw [hrun, turns]
    rcases hb : body x s with ⟨e | r, s'⟩ <;> rw [hb] at hF
    · exact Or.inr hF
    · by_cases hr : r = go
      · simp only [hr, if_true]
        rcases ih s' hF with ⟨y, hy, hX⟩ | hF'
        · exact Or.inl ⟨y, List.mem_cons_of_mem _ hy, hX⟩
        · exact Or.inr hF'
      · simp only [hr, if_false]
        exact Or.inr hF

end Rules

/-! ## Relations between the first and the last state -/

/-- However it ends, `m` relates its first state to its last by `R`. -/
def Stays (R : σ → σ → Prop) (m : Act σ ε α) : Prop := ∀ s, R s (m s).2

namespace Stays

variable {R : σ → σ → Prop}

theorem of_wp {m : Act σ ε α} (h : ∀ s, wp m (fun _ s' => R s s') (fun _ s' => R s s') s) :
    Stays R m := fun s => wp_state (h s)

theorem wp {m : Act σ ε α} (h : Stays R m) (s : σ) :
    wp m (fun _ s' => R s s') (fun _ s' => R s s') s := by
  have hs := h s
  unfold Act.wp
  rcases hm : m s with ⟨_ | a, s'⟩ <;> rw [hm] at hs <;> exact hs

theorem mono {R' : σ → σ → Prop} {m : Act σ ε α} (h : Stays R m)
    (hR : ∀ s s', R s s' → R' s s') : Stays R' m := fun s => hR _ _ (h s)

theorem attempt {m : Act σ ε α} (h : Stays R m) :
    Stays R (Act.attempt m : Act σ ε' (Except ε α)) := h

theorem mapErr {m : Act σ ε α} (f : ε → ε') (h : Stays R m) : Stays R (Act.mapErr f m) := by
  refine of_wp fun s => ?_
  rw [wp_mapErr]
  exact h.wp s

theorem ite {c : Prop} [Decidable c] {m m' : Act σ ε α} (h : c → Stays R m)
    (h' : ¬ c → Stays R m') : Stays R (if c then m else m') := by
  split
  · next hc => exact h hc
  · next hc => exact h' hc

section Preorder

variable (hrefl : ∀ s, R s s) (htrans : ∀ a b c, R a b → R b c → R a c)

include hrefl in
theorem pure (a : α) : Stays R (Pure.pure a : Act σ ε α) := fun s => hrefl s

include htrans in
theorem bind {m : Act σ ε α} {f : α → Act σ ε β} (hm : Stays R m) (hf : ∀ a, Stays R (f a)) :
    Stays R (m >>= f) := by
  refine of_wp fun s => ?_
  rw [wp_bind]
  refine wp_mono (hm.wp s) (fun a s' h => ?_) (fun _ _ h => h)
  exact wp_mono ((hf a).wp s') (fun _ _ h' => htrans _ _ _ h h') (fun _ _ h' => htrans _ _ _ h h')

include hrefl in
theorem fail (e : ε) : Stays R (Act.fail e : Act σ ε α) := fun s => hrefl s

include htrans in
/-- The second half may use what is known of the value the first returned. -/
theorem bind_of {P : α → Prop} {m : Act σ ε α} {f : α → Act σ ε β}
    (hm : ∀ s, Act.wp m (fun a s' => R s s' ∧ P a) (fun _ s' => R s s') s)
    (hf : ∀ a, P a → Stays R (f a)) : Stays R (m >>= f) := by
  refine of_wp fun s => ?_
  rw [wp_bind]
  refine wp_mono (hm s) (fun a s' h => ?_) (fun _ _ h => h)
  exact wp_mono ((hf a h.2).wp s') (fun _ _ h' => htrans _ _ _ h.1 h')
    (fun _ _ h' => htrans _ _ _ h.1 h')

include hrefl htrans in
theorem each [DecidableEq ρ] {go : ρ} {body : ι → Act σ ε ρ} (h : ∀ x, Stays R (body x))
    (xs : List ι) : Stays R (Act.each go body xs) := by
  induction xs with
  | nil => exact pure hrefl go
  | cons x xs ih =>
    refine bind htrans (h x) fun r => ?_
    split
    · exact ih
    · exact pure hrefl r

end Preorder

end Stays

end Act

end Aurade
