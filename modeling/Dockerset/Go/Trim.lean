import Dockerset.Go.Utf8

/-!
# White space around ASCII text

`strings.TrimSpace` knows the white space of Unicode; around a text that begins
and ends with visible ASCII characters it takes off the bytes of ASCII white
space, and nothing of the text.
-/

namespace Dockerset.Go

/-- A byte of ASCII white space. -/
def SpaceByte (x : UInt8) : Prop := x ∈ [0x09, 0x0a, 0x0b, 0x0c, 0x0d, 0x20]

instance (x : UInt8) : Decidable (SpaceByte x) := inferInstanceAs (Decidable (x ∈ _))

/-- Another ASCII byte. -/
def SolidByte (x : UInt8) : Prop := x < 0x80 ∧ ¬ SpaceByte x

instance (x : UInt8) : Decidable (SolidByte x) := inferInstanceAs (Decidable (_ ∧ _))

theorem solidByte_of_visible {x : UInt8} (hlo : 0x20 < x) (hhi : x < 0x7f) : SolidByte x := by
  rw [UInt8.lt_iff_toNat_lt] at hlo hhi
  have hlo' : (0x20 : UInt8).toNat = 32 := rfl
  have hhi' : (0x7f : UInt8).toNat = 127 := rfl
  constructor
  · rw [UInt8.lt_iff_toNat_lt]
    change x.toNat < 128
    omega
  · intro hx
    simp only [SpaceByte, List.mem_cons, List.not_mem_nil, or_false] at hx
    rcases hx with rfl | rfl | rfl | rfl | rfl | rfl <;> exact absurd hlo (by decide)

/-- A separator that begins with a byte of ASCII is one byte of white space. -/
def asciiSep : Bytes → Bool
  | [] => false
  | [x] => decide (SpaceByte x ∨ ¬ x < 0x80)
  | x :: _ => decide (¬ x < 0x80)

/-- Separators with all ASCII white space and no other ASCII. -/
structure AsciiSeps (seps : List Bytes) : Prop where
  all : ([0x09, 0x0a, 0x0b, 0x0c, 0x0d, 0x20] : Bytes).all ([·] ∈ seps) = true
  only : ∀ e ∈ seps, asciiSep e = true

theorem asciiSeps_spaces : AsciiSeps spaces where
  all := by decide +kernel
  only := by decide +kernel

theorem asciiSeps_reverse : AsciiSeps (spaces.map List.reverse) where
  all := by decide +kernel
  only := by decide +kernel

theorem SpaceByte.mem_spaces {x : UInt8} (hx : SpaceByte x) : [x] ∈ spaces :=
  of_decide_eq_true (List.all_eq_true.1 asciiSeps_spaces.all x hx)

section

variable {seps : List Bytes} {x : UInt8} {s : Bytes}

/-- The only separator at a byte of ASCII is the byte itself. -/
theorem AsciiSeps.eq_singleton (h : AsciiSeps seps) {e : Bytes} (he : e ∈ seps) (hx : x < 0x80)
    (hpre : e.isPrefixOf (x :: s) = true) : e = [x] ∧ SpaceByte x := by
  have hsep := h.only e he
  rw [List.isPrefixOf_iff_prefix] at hpre
  rcases e with _ | ⟨y, _ | ⟨z, e⟩⟩
  · cases hsep
  · obtain ⟨rfl, -⟩ := List.cons_prefix_cons.1 hpre
    have hy : SpaceByte y ∨ ¬ y < 0x80 := of_decide_eq_true hsep
    exact ⟨rfl, hy.resolve_right (not_not.2 hx)⟩
  · obtain ⟨rfl, -⟩ := List.cons_prefix_cons.1 hpre
    have hy : ¬ y < 0x80 := of_decide_eq_true hsep
    exact absurd hx hy

theorem AsciiSeps.find_solid (h : AsciiSeps seps) (hx : SolidByte x) :
    seps.find? (·.isPrefixOf (x :: s)) = none := by
  rw [List.find?_eq_none]
  intro e he hpre
  exact hx.2 (h.eq_singleton he hx.1 hpre).2

theorem AsciiSeps.find_space (h : AsciiSeps seps) (hx : SpaceByte x) :
    seps.find? (·.isPrefixOf (x :: s)) = some [x] := by
  have hascii : x < 0x80 := by
    have hall : ∀ y ∈ [(0x09 : UInt8), 0x0a, 0x0b, 0x0c, 0x0d, 0x20], y < 0x80 := by
      decide +kernel
    exact hall x hx
  have hsome : (seps.find? (·.isPrefixOf (x :: s))).isSome = true := by
    rw [List.find?_isSome]
    have hmem : decide ([x] ∈ seps) = true := List.all_eq_true.1 h.all x hx
    exact ⟨[x], of_decide_eq_true hmem, by simp⟩
  obtain ⟨e, he⟩ := Option.isSome_iff_exists.1 hsome
  have hpre := List.find?_some he
  rw [he, (h.eq_singleton (List.mem_of_find?_eq_some he) hascii hpre).1]

theorem AsciiSeps.trimLeft (h : AsciiSeps seps) (a : Bytes) (ha : ∀ x ∈ a, SpaceByte x)
    (hs : ∀ x, s.head? = some x → SolidByte x) (fuel : Nat) (hfuel : a.length ≤ fuel) :
    Go.trimLeft seps fuel (a ++ s) = s := by
  induction a generalizing fuel with
  | nil =>
    cases fuel with
    | zero => rfl
    | succ fuel =>
      rw [List.nil_append, Go.trimLeft]
      rcases s with _ | ⟨x, s⟩
      · have hnone : seps.find? (·.isPrefixOf []) = none := by
          rw [List.find?_eq_none]
          intro e he hpre
          have hsep := h.only e he
          rw [List.isPrefixOf_iff_prefix, List.prefix_nil] at hpre
          rw [hpre] at hsep
          cases hsep
        rw [hnone]
      · rw [h.find_solid (hs x rfl)]
  | cons x a ih =>
    obtain ⟨hx, ha⟩ := List.forall_mem_cons.1 ha
    cases fuel with
    | zero => simp at hfuel
    | succ fuel =>
      rw [List.cons_append, Go.trimLeft, h.find_space hx]
      apply ih ha
      simp only [List.length_cons] at hfuel
      omega

end

/-- **The text between white space.** -/
theorem trimSpaceBytes_eq {a w b : Bytes} (ha : ∀ x ∈ a, SpaceByte x) (hb : ∀ x ∈ b, SpaceByte x)
    (hfirst : ∀ x, w.head? = some x → SolidByte x)
    (hlast : ∀ x, w.getLast? = some x → SolidByte x) :
    trimSpaceBytes (a ++ w ++ b) = w := by
  have hleft : trimLeft spaces (a ++ w ++ b).length (a ++ w ++ b) =
      if w = [] then [] else w ++ b := by
    by_cases hw : w = []
    · rw [if_pos hw, hw, List.append_nil]
      have hall : ∀ x ∈ a ++ b, SpaceByte x := by
        intro x hx
        rcases List.mem_append.1 hx with hx | hx
        · exact ha x hx
        · exact hb x hx
      have h := asciiSeps_spaces.trimLeft (s := []) (a ++ b) hall (by simp) _ (Nat.le_refl _)
      rw [List.append_nil] at h
      exact h
    · rw [if_neg hw, List.append_assoc]
      apply asciiSeps_spaces.trimLeft a ha
      · intro x hx
        rw [List.head?_append_of_ne_nil _ hw] at hx
        exact hfirst x hx
      · rw [List.length_append]
        omega
  unfold trimSpaceBytes
  rw [hleft]
  by_cases hw : w = []
  · rw [if_pos hw, hw]
    rfl
  · rw [if_neg hw]
    have h := asciiSeps_reverse.trimLeft (s := w.reverse) b.reverse
      (fun x hx => hb x (List.mem_reverse.1 hx))
      (fun x hx => hlast x (by rw [← List.head?_reverse]; exact hx)) (w ++ b).length (by simp)
    dsimp only
    rw [List.reverse_append, h, List.reverse_reverse]

theorem trimSpaceBytes_solid {w : Bytes} (hw : ∀ x ∈ w, SolidByte x) {a b : Bytes}
    (ha : ∀ x ∈ a, SpaceByte x) (hb : ∀ x ∈ b, SpaceByte x) : trimSpaceBytes (a ++ w ++ b) = w := by
  apply trimSpaceBytes_eq ha hb
  · intro x hx
    exact hw x (List.mem_of_head? hx)
  · intro x hx
    exact hw x (List.mem_of_getLast? hx)

theorem trimPre_append (p s : Bytes) : trimPre (p ++ s) p = s := by
  have hpre : p.isPrefixOf (p ++ s) = true := by simp
  rw [trimPre, if_pos hpre, List.drop_left]

end Dockerset.Go
