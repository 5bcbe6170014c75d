import Dockerset.Go.Bytes
import Dockerset.Go.FilePath

/-!
# Functions that return an error

A Go function with an `error` result ends in one of three ways: it panics, it
returns an error, or it returns values. `Safe` excludes the first and says what
the values are like; `Yields` says that a value is returned.
-/

namespace Dockerset.Go

/-- The outcome of a function whose errors are texts. -/
abbrev Fallible := ExceptT Str (Except Panic)

/-- `errors.New(text)` as the result. -/
def fail {α : Type} (text : Str) : Fallible α := ExceptT.mk (.ok (.error text))

section

variable {α β : Type} {x : Fallible α} {f : α → Fallible β} {Q : α → Prop} {R : β → Prop}

/-! ## No panic -/

/-- The function does not panic, and a value that it returns meets `Q`. -/
def Safe (x : Fallible α) (Q : α → Prop) : Prop :=
  ∃ r, x.run = .ok r ∧ ∀ a, r = .ok a → Q a

theorem Safe.returns (h : Safe x Q) : Returns x.run := by
  obtain ⟨r, hr, -⟩ := h
  exact ⟨r, hr⟩

theorem Safe.value (h : Safe x Q) {a : α} (hx : x.run = .ok (.ok a)) : Q a := by
  obtain ⟨r, hr, hQ⟩ := h
  rw [hr] at hx
  cases hx
  exact hQ a rfl

theorem safe_pure {a : α} (h : Q a) : Safe (pure a) Q := by
  refine ⟨.ok a, rfl, ?_⟩
  intro b hb
  cases hb
  exact h

theorem safe_fail (text : Str) : Safe (fail text) Q := by
  refine ⟨.error text, rfl, ?_⟩
  intro b hb
  cases hb

theorem safe_bind (hx : Safe x Q) (hf : ∀ a, Q a → Safe (f a) R) : Safe (x >>= f) R := by
  obtain ⟨r, hr, hQ⟩ := hx
  cases r with
  | error e =>
    have hrun : (x >>= f).run = .ok (.error e) := by
      rw [ExceptT.run_bind, hr]
      rfl
    refine ⟨.error e, hrun, ?_⟩
    intro b hb
    cases hb
  | ok a =>
    obtain ⟨s, hs, hR⟩ := hf a (hQ a rfl)
    have hrun : (x >>= f).run = .ok s := by
      rw [ExceptT.run_bind, hr]
      exact hs
    exact ⟨s, hrun, hR⟩

theorem safe_ite {c : Prop} [Decidable c] {y : Fallible α} (hx : c → Safe x Q) (hy : ¬ c → Safe y Q) :
    Safe (if c then x else y) Q := by
  split
  · next h => exact hx h
  · next h => exact hy h

theorem safe_read {p : Except Panic α} (h : Returns p) (hf : ∀ a, Safe (f a) R) :
    Safe (liftM p >>= f) R := by
  obtain ⟨a, rfl⟩ := h
  exact hf a

theorem Safe.mono {P : α → Prop} (h : Safe x Q) (hQ : ∀ a, Q a → P a) : Safe x P := by
  obtain ⟨r, hr, h⟩ := h
  refine ⟨r, hr, ?_⟩
  intro a ha
  exact hQ a (h a ha)

/-! ## The value returned -/

/-- The function returns `a`. -/
def Yields (x : Fallible α) (a : α) : Prop := x.run = .ok (.ok a)

instance [DecidableEq α] (x : Fallible α) (a : α) : Decidable (Yields x a) :=
  inferInstanceAs (Decidable (x.run = .ok (.ok a)))

theorem Yields.unique {a b : α} (h : Yields x a) (h' : Yields x b) : a = b := by
  have heq : (Except.ok (.ok a) : Except Panic (Except Str α)) = .ok (.ok b) := h.symm.trans h'
  cases heq
  rfl

@[simp] theorem yields_pure {a b : α} : Yields (pure a) b ↔ a = b := by
  constructor
  · intro h
    cases h
    rfl
  · rintro rfl
    rfl

@[simp] theorem not_yields_fail {text : Str} {a : α} : ¬ Yields (fail text) a := by
  intro h
  cases h

theorem yields_bind {b : β} : Yields (x >>= f) b ↔ ∃ a, Yields x a ∧ Yields (f a) b := by
  unfold Yields
  rw [ExceptT.run_bind]
  constructor
  · intro h
    cases hx : x.run with
    | error p =>
      rw [hx] at h
      cases h
    | ok r =>
      rw [hx] at h
      cases r with
      | error e => cases h
      | ok a => exact ⟨a, rfl, h⟩
  · rintro ⟨a, hx, hf⟩
    rw [hx]
    exact hf

@[simp] theorem yields_lift {p : Except Panic α} {a : α} :
    Yields (liftM p : Fallible α) a ↔ p = .ok a := by
  cases p with
  | error e =>
    constructor
    · intro h
      cases h
    · intro h
      cases h
  | ok b =>
    constructor
    · intro h
      cases h
      rfl
    · intro h
      cases h
      rfl

theorem yields_ite {c : Prop} [Decidable c] {y : Fallible α} {a : α} :
    Yields (if c then x else y) a ↔ (c ∧ Yields x a) ∨ (¬ c ∧ Yields y a) := by
  split
  · next h => simp [h]
  · next h => simp [h]

end

/-- `binary.BigEndian.Uint16(b[i:j])`. -/
def uint16Of (b : Bytes) (i j : Nat) : Except Panic Nat := slice b i j >>= bigEndianUint16

end Dockerset.Go
