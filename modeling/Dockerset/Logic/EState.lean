import Mathlib.Data.List.Basic

/-!
# Programs that fail and keep their effects

A Go function that returns an error keeps what it did before: it is an
`EStateM` program, whose error result carries the state.

`WP x Q E s` says how `x` ends when it is run from `s`: with a value and a state
in `Q`, or with an error and a state in `E`. The `_iff` rules run a program
symbolically; loops go through `WP.forM`, whose invariant speaks of the elements
done so far. `Preserves I` is the special case of an invariant that `x` leaves
intact however it ends.
-/

namespace Dockerset.Logic

variable {ε σ α β : Type}

theorem except_bind_iff {x : Except ε α} {f : α → Except ε β} {b : β} :
    x >>= f = .ok b ↔ ∃ a, x = .ok a ∧ f a = .ok b := by
  constructor
  · intro h
    cases x with
    | error e => cases h
    | ok a => exact ⟨a, rfl, h⟩
  · rintro ⟨a, rfl, h⟩
    exact h

theorem except_bind_ok {x : Except ε α} {f : α → Except ε β} {b : β}
    (h : x >>= f = .ok b) : ∃ a, x = .ok a ∧ f a = .ok b := except_bind_iff.1 h

/-- The state in which `x` ends, with a result or with an error. -/
def after (x : EStateM ε σ α) (s : σ) : σ :=
  match x.run s with
  | .ok _ s' => s'
  | .error _ s' => s'

/-- How `x` ends from `s`. -/
def WP (x : EStateM ε σ α) (Q : α → σ → Prop) (E : ε → σ → Prop) (s : σ) : Prop :=
  match x.run s with
  | .ok a s' => Q a s'
  | .error e s' => E e s'

section Rules

variable {x : EStateM ε σ α} {Q Q' : α → σ → Prop} {E E' : ε → σ → Prop} {s s' : σ}

theorem WP.of_ok {a : α} (hr : x.run s = .ok a s') (h : Q a s') : WP x Q E s := by
  simpa only [WP, hr] using h

theorem WP.of_error {e : ε} (hr : x.run s = .error e s') (h : E e s') : WP x Q E s := by
  simpa only [WP, hr] using h

theorem WP.ok {a : α} (h : WP x Q E s) (hr : x.run s = .ok a s') : Q a s' := by
  simpa only [WP, hr] using h

theorem WP.error {e : ε} (h : WP x Q E s) (hr : x.run s = .error e s') : E e s' := by
  simpa only [WP, hr] using h

theorem WP.returns (h : WP x Q (fun _ _ => False) s) : ∃ a s', x.run s = .ok a s' ∧ Q a s' := by
  cases hr : x.run s with
  | ok a s' => exact ⟨a, s', rfl, h.ok hr⟩
  | error e s' => exact (h.error hr).elim

theorem after_of_ok {a : α} (h : x.run s = .ok a s') : after x s = s' := by
  simp only [after, h]

/-- `x` returns when it is run from `s`. -/
def returns (x : EStateM ε σ α) (s : σ) : Bool :=
  match x.run s with
  | .ok _ _ => true
  | .error _ _ => false

theorem run_of_returns (h : returns x s = true) : ∃ a, x.run s = .ok a (after x s) := by
  unfold returns at h
  split at h
  · next a s' hr => exact ⟨a, by rw [after_of_ok hr, hr]⟩
  · cases h

theorem ok_of_returns (x : EStateM ε σ Unit) (s : σ) (h : returns x s = true) :
    x.run s = .ok () (after x s) := by
  obtain ⟨_, hr⟩ := run_of_returns h
  exact hr

theorem after_of_error {e : ε} (h : x.run s = .error e s') : after x s = s' := by
  simp only [after, h]

theorem run_of_fails (h : returns x s = false) : ∃ e, x.run s = .error e (after x s) := by
  unfold returns at h
  split at h
  · cases h
  · next e s' hr => exact ⟨e, by rw [after_of_error hr, hr]⟩

/-- What `x` returns when it is run from `s`. -/
def value (x : EStateM ε σ α) (s : σ) : Option α :=
  match x.run s with
  | .ok a _ => some a
  | .error _ _ => none

theorem run_of_value {a : α} (h : value x s = some a) : x.run s = .ok a (after x s) := by
  unfold value at h
  split at h
  · next b s' hr =>
    cases h
    rw [after_of_ok hr, hr]
  · cases h

theorem WP.mono (h : WP x Q E s) (hq : ∀ a s', Q a s' → Q' a s') (he : ∀ e s', E e s' → E' e s') :
    WP x Q' E' s := by
  cases hr : x.run s with
  | ok a s' => exact .of_ok hr (hq a s' (h.ok hr))
  | error e s' => exact .of_error hr (he e s' (h.error hr))

theorem WP.after {P : σ → Prop} (h : WP x (fun _ => P) (fun _ => P) s) : P (after x s) := by
  unfold Logic.after
  cases hr : x.run s with
  | ok a t => exact h.ok hr
  | error e t => exact h.error hr

theorem WP.trivial : WP x (fun _ _ => True) (fun _ _ => True) s := by
  unfold WP
  split <;> exact True.intro

theorem WP.and (h : WP x Q E s) (h' : WP x Q' E' s) :
    WP x (fun a s' => Q a s' ∧ Q' a s') (fun e s' => E e s' ∧ E' e s') s := by
  cases hr : x.run s with
  | ok a s' => exact .of_ok hr ⟨h.ok hr, h'.ok hr⟩
  | error e s' => exact .of_error hr ⟨h.error hr, h'.error hr⟩

theorem WP.congr {y : EStateM ε σ α} (h : x.run s = y.run s) : WP x Q E s ↔ WP y Q E s := by
  simp only [WP, h]

@[simp] theorem WP.pure_iff {a : α} : WP (pure a) Q E s ↔ Q a s := Iff.rfl

@[simp] theorem WP.throw_iff {e : ε} : WP (throw e) Q E s ↔ E e s := Iff.rfl

@[simp] theorem WP.bind_iff {x : EStateM ε σ β} {f : β → EStateM ε σ α} :
    WP (x >>= f) Q E s ↔ WP x (fun b t => WP (f b) Q E t) E s := by
  unfold WP
  rw [EStateM.run_bind]
  cases x.run s <;> rfl

theorem discard_eq_bind (x : EStateM ε σ β) : discard x = (x >>= fun _ => pure ()) := by
  rw [discard, map_const]
  exact map_eq_pure_bind _ _

@[simp] theorem WP.get_iff {Q : σ → σ → Prop} : WP get Q E s ↔ Q s s := Iff.rfl

@[simp] theorem WP.modify_iff {f : σ → σ} {Q : PUnit → σ → Prop} :
    WP (modify f) Q E s ↔ Q ⟨⟩ (f s) := Iff.rfl

/-- A loop: `I` holds of the elements done so far and the state, and each further
element extends it or fails with `E`. -/
theorem WP.forM {f : β → EStateM ε σ PUnit} {l : List β} (I : List β → σ → Prop) (h0 : I [] s)
    (step : ∀ done b rest t, l = done ++ b :: rest → I done t →
      WP (f b) (fun _ t' => I (done ++ [b]) t') E t) :
    WP (forM l f) (fun _ => I l) E s := by
  have go : ∀ rest done t, l = done ++ rest → I done t → WP (ForM.forM rest f) (fun _ => I l) E t := by
    intro rest
    induction rest with
    | nil =>
      intro done t hl hi
      rw [List.forM_nil, WP.pure_iff]
      rwa [hl, List.append_nil]
    | cons b rest ih =>
      intro done t hl hi
      rw [List.forM_cons, WP.bind_iff]
      exact (step done b rest t hl hi).mono (fun _ t' hi' => ih (done ++ [b]) t' (by simp [hl]) hi')
        (fun _ _ he => he)
  exact go l [] s rfl h0

theorem forM_error {f : β → EStateM ε σ PUnit} {l : List β} {e : ε} :
    ∀ {s s' : σ}, (forM l f).run s = .error e s' → ∃ done b rest t, l = done ++ b :: rest ∧
      (forM done f).run s = .ok () t ∧ (f b).run t = .error e s' := by
  induction l with
  | nil =>
    intro s s' h
    cases h
  | cons b rest ih =>
    intro s s' h
    rw [List.forM_cons, EStateM.run_bind] at h
    cases hb : (f b).run s with
    | error e₁ t =>
      rw [hb] at h
      cases h
      exact ⟨[], b, rest, s, rfl, rfl, hb⟩
    | ok u t =>
      rw [hb] at h
      obtain ⟨done, x, rest', t', rfl, hdone, hx⟩ := ih h
      refine ⟨b :: done, x, rest', t', rfl, ?_, hx⟩
      rw [List.forM_cons, EStateM.run_bind, hb]
      exact hdone

end Rules

/-- `x` leaves `I` intact, whether it returns or fails. -/
def Preserves (I : σ → Prop) (x : EStateM ε σ α) : Prop :=
  ∀ s, I s → WP x (fun _ => I) (fun _ => I) s

section Preserves

variable {I : σ → Prop}

theorem Preserves.after {x : EStateM ε σ α} {s : σ} (h : Preserves I x) (hs : I s) :
    I (after x s) :=
  (h s hs).after

theorem preserves_pure (a : α) : Preserves I (pure a : EStateM ε σ α) := fun _ h => h

theorem preserves_throw (e : ε) : Preserves I (throw e : EStateM ε σ α) := fun _ h => h

theorem preserves_bind {x : EStateM ε σ α} {f : α → EStateM ε σ β} (hx : Preserves I x)
    (hf : ∀ a, Preserves I (f a)) : Preserves I (x >>= f) := fun s hs =>
  WP.bind_iff.2 ((hx s hs).mono (fun a t ht => hf a t ht) fun _ _ h => h)

theorem preserves_get : Preserves I (get : EStateM ε σ σ) := fun _ h => h

theorem preserves_modify {f : σ → σ} (h : ∀ s, I s → I (f s)) :
    Preserves I (modify f : EStateM ε σ PUnit) := h

theorem preserves_ite {c : Prop} [Decidable c] {x y : EStateM ε σ α} (hx : c → Preserves I x)
    (hy : ¬ c → Preserves I y) : Preserves I (if c then x else y) := by
  split
  · next h => exact hx h
  · next h => exact hy h

theorem preserves_forM {f : α → EStateM ε σ PUnit} {l : List α} (h : ∀ a ∈ l, Preserves I (f a)) :
    Preserves I (forM l f) := fun s hs =>
  WP.forM (fun _ => I) hs fun _ b _ t hl hi => h b (by simp [hl]) t hi

theorem preserves_exists {ι : Type} {I : ι → σ → Prop} {x : EStateM ε σ α} (h : ∀ i, Preserves (I i) x) :
    Preserves (fun s => ∃ i, I i s) x := by
  rintro s ⟨i, hs⟩
  exact (h i s hs).mono (fun _ _ h' => ⟨i, h'⟩) fun _ _ h' => ⟨i, h'⟩

end Preserves

end Dockerset.Logic
