import Mathlib.Data.List.Induction

/-!
# Runs of a system

A system takes labelled steps. A run is the log of its labels so far with the
state it has come to; which label may come next can depend on the log.
-/

namespace Dockerset.Logic

variable {σ α : Type}

/-- The runs from `s₀`: their logs, and where they end. -/
inductive Runs (step : σ → α → σ → Prop) (allowed : List α → α → Prop) (s₀ : σ) : List α → σ → Prop
  | start : Runs step allowed s₀ [] s₀
  | step {log : List α} {s s' : σ} {a : α} (h : Runs step allowed s₀ log s) (ha : allowed log a)
      (hs : step s a s') : Runs step allowed s₀ (log ++ [a]) s'

section

variable {step : σ → α → σ → Prop} {allowed : List α → α → Prop} {s₀ s : σ} {log : List α}

/-- What holds at the start and is kept by every step holds of every run. -/
theorem Runs.inv (I : List α → σ → Prop) (h : Runs step allowed s₀ log s) (h0 : I [] s₀)
    (hstep : ∀ log s a s', I log s → allowed log a → step s a s' → I (log ++ [a]) s') : I log s := by
  induction h with
  | start => exact h0
  | step _ ha hs ih => exact hstep _ _ _ _ ih ha hs

theorem runs_of_foldlM {f : σ → α → Option σ} (hf : ∀ s a s', f s a = some s' → step s a s')
    (hlog : log.foldlM f s₀ = some s) : Runs step (fun _ _ => True) s₀ log s := by
  induction log using List.reverseRecOn generalizing s with
  | nil =>
    cases hlog
    exact .start
  | append_singleton log a ih =>
    rw [List.foldlM_append] at hlog
    obtain ⟨s', hs', hlast⟩ := Option.bind_eq_some_iff.1 hlog
    obtain ⟨s'', hstep, hnil⟩ := Option.bind_eq_some_iff.1 hlast
    cases hnil
    exact .step (ih hs') trivial (hf _ _ _ hstep)

theorem getElem?_concat_eq {log : List α} {a b : α} {i : Nat} (h : (log ++ [a])[i]? = some b) :
    log[i]? = some b ∨ (i = log.length ∧ a = b) := by
  by_cases hi : i < log.length
  · rw [List.getElem?_append_left hi] at h
    exact .inl h
  · rw [List.getElem?_append_right (by omega)] at h
    right
    have hlt := (List.getElem?_eq_some_iff.1 h).1
    rw [List.length_singleton] at hlt
    have heq : i = log.length := by omega
    subst heq
    simpa using h

theorem getElem?_concat_of_some {log : List α} {a b : α} {i : Nat} (h : log[i]? = some b) :
    (log ++ [a])[i]? = some b := by
  rw [List.getElem?_append_left (List.getElem?_eq_some_iff.1 h).1]
  exact h

end

end Dockerset.Logic
