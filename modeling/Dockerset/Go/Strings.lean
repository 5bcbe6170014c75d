import Dockerset.Go.FilePath

/-!
# Strings

The functions of package `strings` that work character by character.
-/

namespace Dockerset.Go

/-- `strings.TrimSuffix(s, suffix)`. -/
def trimSuffix (s suf : Str) : Str :=
  if suf.isSuffixOf s then s.take (s.length - suf.length) else s

/-- An integer in decimal, as `%d` prints it. -/
def decimal : Int → Str
  | .ofNat n => Nat.toDigits 10 n
  | .negSucc n => '-' :: Nat.toDigits 10 (n + 1)

/-- The lower case form of a letter of the English alphabet. -/
def asciiLower (c : Char) : Char :=
  if 'A' ≤ c ∧ c ≤ 'Z' then Char.ofNat (c.toNat + 32) else c

/-- The two strings differ in the case of English letters only. -/
def EqualFold (s t : Str) : Prop := s.map asciiLower = t.map asciiLower

instance (s t : Str) : Decidable (EqualFold s t) :=
  inferInstanceAs (Decidable (s.map asciiLower = t.map asciiLower))

namespace EqualFold

theorem symm {s t : Str} (h : EqualFold s t) : EqualFold t s := Eq.symm h

theorem trans {s t u : Str} (h : EqualFold s t) (h' : EqualFold t u) : EqualFold s u := Eq.trans h h'

theorem length_eq {s t : Str} (h : EqualFold s t) : s.length = t.length := by
  have hl := congrArg List.length h
  simpa using hl

end EqualFold

theorem asciiLower_eq_dot {c : Char} : asciiLower c = '.' ↔ c = '.' := by
  constructor
  · intro h
    unfold asciiLower at h
    split at h
    · next hc =>
      have letters : ∀ n < 91, 65 ≤ n → Char.ofNat (n + 32) ≠ '.' := by decide
      exact absurd h (letters c.toNat (Nat.lt_succ_of_le hc.2) hc.1)
    · exact h
  · intro h
    rw [h]
    decide

theorem dot_isSuffixOf_map (s : Str) :
    ['.'].isSuffixOf (s.map asciiLower) = ['.'].isSuffixOf s := by
  rw [Bool.eq_iff_iff, List.isSuffixOf_iff_suffix, List.isSuffixOf_iff_suffix]
  induction s using List.reverseRecOn with
  | nil => rfl
  | append_singleton s c _ =>
    have last : ∀ (u : Str) (d : Char), ['.'] <:+ u ++ [d] ↔ d = '.' := by
      intro u d
      constructor
      · rintro ⟨v, hv⟩
        simpa [eq_comm] using List.append_inj_right' hv rfl
      · rintro rfl
        exact List.suffix_append u ['.']
    rw [List.map_append, List.map_singleton, last, last, asciiLower_eq_dot]

theorem EqualFold.trimSuffix_dot {s t : Str} (h : EqualFold s t) :
    EqualFold (trimSuffix s ['.']) (trimSuffix t ['.']) := by
  have hdot : ['.'].isSuffixOf s = ['.'].isSuffixOf t := by
    rw [← dot_isSuffixOf_map s, ← dot_isSuffixOf_map t, h]
  unfold trimSuffix
  rw [hdot, h.length_eq]
  split
  · unfold EqualFold
    rw [List.map_take, List.map_take, h]
  · exact h

end Dockerset.Go
