import Dockerset.Go.Trim
import Mathlib.Data.List.Find

/-!
# Fields of a text

`strings.Fields` and `strings.TrimSpace` on bytes, where a separator can have
several of them. The separators only have to be self-synchronising: none of them
begins inside another one. Then a text falls into words and separators in one way
(`Tokens`), and that is what every other fact about fields is read off.
-/

namespace Dockerset.Go

/-- The word so far, if there is one. -/
def closeWord (w : Bytes) : List Bytes := if w = [] then [] else [w]

/-- The scan for words: what is left of the last separator, and the word so far. -/
def fieldsFrom (seps : List Bytes) : Nat → Bytes → Bytes → List Bytes
  | _, w, [] => closeWord w
  | k + 1, w, _ :: s => fieldsFrom seps k w s
  | 0, w, x :: s =>
    match seps.find? (·.isPrefixOf (x :: s)) with
    | some e => closeWord w ++ fieldsFrom seps (e.length - 1) [] s
    | none => fieldsFrom seps 0 (w ++ [x]) s

/-- `strings.Fields(s)`. -/
def fields (s : Bytes) : List Bytes := fieldsFrom spaces 0 [] s

example : fields (ascii " a\tbc " ++ [0xe2, 0x80, 0x83] ++ ascii "d") =
    [ascii "a", ascii "bc", ascii "d"] := by
  decide +kernel

/-- Separators that can be told apart and from what is around them. -/
structure Separators (seps : List Bytes) : Prop where
  ne_nil : ∀ e ∈ seps, e ≠ []
  apart : ∀ e ∈ seps, ∀ e' ∈ seps, e.isPrefixOf e' = true → e = e'
  sync : ∀ e ∈ seps, ∀ e' ∈ seps, e.tail.all (e'.head? != some ·) = true

theorem separators_spaces : Separators spaces where
  ne_nil := by decide +kernel
  apart := by decide +kernel
  sync := by decide +kernel

/-- No separator begins in the word. -/
def Unbroken (seps : List Bytes) (w : Bytes) : Prop :=
  ∀ t, t <:+ w → seps.find? (·.isPrefixOf t) = none

/-- A text and its words. -/
inductive Tokens (seps : List Bytes) : Bytes → List Bytes → Prop where
  | nil : Tokens seps [] []
  | sep {e s : Bytes} {ws : List Bytes} : e ∈ seps → Tokens seps s ws → Tokens seps (e ++ s) ws
  | last {w : Bytes} : w ≠ [] → Unbroken seps w → Tokens seps w [w]
  | word {w e s : Bytes} {ws : List Bytes} : w ≠ [] → Unbroken seps w → e ∈ seps →
      Tokens seps s ws → Tokens seps (w ++ (e ++ s)) (w :: ws)

namespace Separators

variable {seps : List Bytes} (h : Separators seps)
include h

theorem find_append {e : Bytes} (he : e ∈ seps) (t : Bytes) :
    seps.find? (·.isPrefixOf (e ++ t)) = some e := by
  have hpre : e.isPrefixOf (e ++ t) = true := by simp
  have hsome : (seps.find? (·.isPrefixOf (e ++ t))).isSome = true := by
    rw [List.find?_isSome]
    exact ⟨e, he, hpre⟩
  obtain ⟨e', he'⟩ := Option.isSome_iff_exists.1 hsome
  have hmem := List.mem_of_find?_eq_some he'
  have hpre' := List.find?_some he'
  rw [he']
  rw [List.isPrefixOf_iff_prefix] at hpre hpre'
  rcases List.prefix_or_prefix_of_prefix hpre' hpre with hle | hle
  · rw [h.apart e' hmem e he (List.isPrefixOf_iff_prefix.2 hle)]
  · rw [← h.apart e he e' hmem (List.isPrefixOf_iff_prefix.2 hle)]

theorem find_nil : seps.find? (·.isPrefixOf []) = none := by
  rw [List.find?_eq_none]
  intro e he hpre
  rw [List.isPrefixOf_iff_prefix, List.prefix_nil] at hpre
  exact h.ne_nil e he hpre

/-- A separator behind a text adds none that begins in it. -/
theorem isPrefixOf_append {e e' s : Bytes} (he : e ∈ seps) (he' : e' ∈ seps) (hs : s ≠ [])
    (t : Bytes) : e'.isPrefixOf (s ++ (e ++ t)) = e'.isPrefixOf s := by
  rw [Bool.eq_iff_iff, List.isPrefixOf_iff_prefix, List.isPrefixOf_iff_prefix]
  constructor
  · intro hpre
    rcases List.prefix_or_prefix_of_prefix hpre (List.prefix_append s _) with hle | hle
    · exact hle
    -- the separator would begin in the text and go on with the next one
    obtain ⟨a, ha⟩ := hle
    cases a with
    | nil =>
      rw [← ha, List.append_nil]
    | cons x a =>
      exfalso
      rw [← ha, List.prefix_append_right_inj] at hpre
      obtain ⟨y, e₁, hy⟩ := List.exists_cons_of_ne_nil (h.ne_nil e he)
      rw [hy, List.cons_append, List.cons_prefix_cons] at hpre
      obtain ⟨z, s₁, hz⟩ := List.exists_cons_of_ne_nil hs
      have hsync := List.all_eq_true.1 (h.sync e' he' e he) x (by rw [← ha, hz]; simp)
      rw [hy, hpre.1, List.head?_cons, bne_self_eq_false] at hsync
      cases hsync
  · intro hpre
    exact hpre.trans (List.prefix_append _ _)

theorem find_behind {e s : Bytes} (he : e ∈ seps) (hs : s ≠ []) (t : Bytes) :
    seps.find? (·.isPrefixOf (s ++ (e ++ t))) = seps.find? (·.isPrefixOf s) :=
  List.find?_congr fun _ he' => h.isPrefixOf_append he he' hs t

/-! ### The scan -/

omit h in
theorem fieldsFrom_skip (a w s : Bytes) :
    fieldsFrom seps a.length w (a ++ s) = fieldsFrom seps 0 w s := by
  induction a with
  | nil => rfl
  | cons x a ih =>
    rw [List.length_cons, List.cons_append, fieldsFrom, ih]

theorem fieldsFrom_sep {e : Bytes} (he : e ∈ seps) (w s : Bytes) :
    fieldsFrom seps 0 w (e ++ s) = closeWord w ++ fieldsFrom seps 0 [] s := by
  have hfind := h.find_append he s
  obtain ⟨x, a, hx⟩ := List.exists_cons_of_ne_nil (h.ne_nil e he)
  rw [hx] at hfind ⊢
  rw [List.cons_append] at hfind ⊢
  rw [fieldsFrom, hfind]
  dsimp only
  rw [List.length_cons, Nat.add_sub_cancel, fieldsFrom_skip]

theorem fieldsFrom_append {e : Bytes} (he : e ∈ seps) (t s : Bytes) :
    ∀ k w, k ≤ s.length →
      fieldsFrom seps k w (s ++ (e ++ t)) = fieldsFrom seps k w s ++ fieldsFrom seps 0 [] t := by
  induction s with
  | nil =>
    intro k w hk
    have hk : k = 0 := Nat.le_zero.1 hk
    rw [hk, List.nil_append, h.fieldsFrom_sep he]
    rfl
  | cons x s ih =>
    intro k w hk
    cases k with
    | succ k =>
      rw [List.cons_append, fieldsFrom, fieldsFrom]
      apply ih
      rw [List.length_cons] at hk
      omega
    | zero =>
      have hfind := h.find_behind he (List.cons_ne_nil x s) t
      rw [List.cons_append] at hfind ⊢
      rw [fieldsFrom, fieldsFrom, hfind]
      cases hsep : seps.find? (·.isPrefixOf (x :: s)) with
      | none =>
        dsimp only
        exact ih 0 (w ++ [x]) (Nat.zero_le _)
      | some e' =>
        have hpre := List.find?_some hsep
        rw [List.isPrefixOf_iff_prefix] at hpre
        have hlen := hpre.length_le
        rw [List.length_cons] at hlen
        dsimp only
        rw [ih (e'.length - 1) [] (by omega), List.append_assoc]

omit h in
theorem fieldsFrom_word {v : Bytes} (hv : Unbroken seps v) (w : Bytes) :
    fieldsFrom seps 0 w v = closeWord (w ++ v) := by
  induction v generalizing w with
  | nil => rw [fieldsFrom, List.append_nil]
  | cons x v ih =>
    rw [fieldsFrom, hv (x :: v) List.suffix_rfl]
    dsimp only
    rw [ih (fun t ht => hv t (ht.trans (List.suffix_cons x v))), List.append_assoc]
    rfl

theorem fieldsFrom_of_tokens {s : Bytes} {ws : List Bytes} (ht : Tokens seps s ws) :
    fieldsFrom seps 0 [] s = ws := by
  have close : ∀ w : Bytes, w ≠ [] → closeWord w = [w] := fun w hw => if_neg hw
  induction ht with
  | nil => rfl
  | sep he _ ih => rw [h.fieldsFrom_sep he, ih]; rfl
  | last hw hun => rw [fieldsFrom_word hun, List.nil_append, close _ hw]
  | word hw hun he _ ih =>
    rw [h.fieldsFrom_append he _ _ 0 [] (Nat.zero_le _), ih, fieldsFrom_word hun, List.nil_append,
      close _ hw]
    rfl

omit h in
variable (seps) in
theorem exists_word (s : Bytes) : ∃ w r, s = w ++ r ∧
    (∀ t, t <:+ w → t ≠ [] → seps.find? (·.isPrefixOf (t ++ r)) = none) ∧
    (r = [] ∨ ∃ e ∈ seps, e <+: r) := by
  induction s with
  | nil => exact ⟨[], [], rfl, by simp, .inl rfl⟩
  | cons x s ih =>
    cases hsep : seps.find? (·.isPrefixOf (x :: s)) with
    | some e =>
      have hpre := List.find?_some hsep
      rw [List.isPrefixOf_iff_prefix] at hpre
      exact ⟨[], x :: s, rfl, by simp, .inr ⟨e, List.mem_of_find?_eq_some hsep, hpre⟩⟩
    | none =>
      obtain ⟨w, r, rfl, hw, hr⟩ := ih
      refine ⟨x :: w, r, rfl, ?_, hr⟩
      intro t ht hne
      rcases List.suffix_cons_iff.1 ht with rfl | ht
      · exact hsep
      · exact hw t ht hne

theorem exists_tokens (s : Bytes) : ∃ ws, Tokens seps s ws := by
  induction hn : s.length using Nat.strong_induction_on generalizing s with
  | _ n ih =>
    obtain ⟨w, r, rfl, hw, hr⟩ := exists_word seps s
    -- what does not begin a separator here does not begin one in the word alone
    have hun : Unbroken seps w := by
      intro t ht
      by_cases hne : t = []
      · rw [hne]
        exact h.find_nil
      have hnone := hw t ht hne
      rw [List.find?_eq_none] at hnone ⊢
      intro e he hpre
      apply hnone e he
      rw [List.isPrefixOf_iff_prefix] at hpre ⊢
      exact hpre.trans (List.prefix_append _ _)
    rcases hr with rfl | ⟨e, he, t, rfl⟩
    · by_cases hne : w = []
      · rw [hne]
        exact ⟨[], .nil⟩
      · rw [List.append_nil]
        exact ⟨[w], .last hne hun⟩
    · have hpos := List.length_pos_iff.2 (h.ne_nil e he)
      obtain ⟨ws, hws⟩ := ih t.length (by simp only [List.length_append] at hn; omega) t rfl
      by_cases hne : w = []
      · rw [hne, List.nil_append]
        exact ⟨ws, .sep he hws⟩
      · exact ⟨w :: ws, .word hne hun he hws⟩

theorem tokens_fieldsFrom (s : Bytes) : Tokens seps s (fieldsFrom seps 0 [] s) := by
  obtain ⟨ws, hws⟩ := h.exists_tokens s
  rw [h.fieldsFrom_of_tokens hws]
  exact hws

end Separators

/-! ## Fields -/

section

variable {s t e f : Bytes}

theorem tokens_fields (s : Bytes) : Tokens spaces s (fields s) :=
  separators_spaces.tokens_fieldsFrom s

theorem fields_of_tokens {ws : List Bytes} (h : Tokens spaces s ws) : fields s = ws :=
  separators_spaces.fieldsFrom_of_tokens h

theorem fields_append_sep (he : e ∈ spaces) (s t : Bytes) :
    fields (s ++ (e ++ t)) = fields s ++ fields t :=
  separators_spaces.fieldsFrom_append he t s 0 [] (Nat.zero_le _)

theorem fields_word {w : Bytes} (hne : w ≠ []) (hw : Unbroken spaces w) : fields w = [w] :=
  fields_of_tokens (.last hne hw)

theorem fields_of_mem (hf : f ∈ fields s) : f ≠ [] ∧ Unbroken spaces f := by
  have ht := tokens_fields s
  generalize fields s = ws at hf ht
  induction ht with
  | nil => cases hf
  | sep _ _ ih => exact ih hf
  | last hne hw =>
    rw [List.mem_singleton.1 hf]
    exact ⟨hne, hw⟩
  | word hne hw _ _ ih =>
    rcases List.mem_cons.1 hf with rfl | hf
    · exact ⟨hne, hw⟩
    · exact ih hf

theorem fields_blank_append (hs : fields s = []) (t : Bytes) : fields (s ++ t) = fields t := by
  have ht := tokens_fields s
  rw [hs] at ht
  generalize hws : ([] : List Bytes) = ws at ht
  induction ht with
  | nil => rfl
  | @sep e s _ he hrest ih =>
    subst hws
    have hsplit := fields_append_sep he [] (s ++ t)
    rw [List.nil_append] at hsplit
    rw [List.append_assoc, hsplit, ih (fields_of_tokens hrest) rfl]
    rfl
  | last => cases hws
  | word => cases hws

theorem fields_append_blank (ht : fields t = []) (s : Bytes) : fields (s ++ t) = fields s := by
  have htok := tokens_fields t
  rw [ht] at htok
  cases htok with
  | nil => rw [List.append_nil]
  | sep he hrest => rw [fields_append_sep he, fields_of_tokens hrest, List.append_nil]

theorem exists_first (h : (fields s).head? = some f) : ∃ b r, s = b ++ (f ++ r) ∧ fields b = [] ∧
    (r = [] ∨ ∃ e ∈ spaces, e <+: r) := by
  have ht := tokens_fields s
  generalize fields s = ws at h ht
  induction ht with
  | nil => cases h
  | @sep e s _ he _ ih =>
    obtain ⟨b, r, rfl, hb, hr⟩ := ih h
    refine ⟨e ++ b, r, by rw [List.append_assoc], ?_, hr⟩
    have hsplit := fields_append_sep he [] b
    rw [List.nil_append] at hsplit
    rw [hsplit, hb]
    rfl
  | last =>
    cases h
    exact ⟨[], [], by simp, rfl, .inl rfl⟩
  | @word w e s _ _ _ he _ _ =>
    cases h
    exact ⟨[], e ++ s, rfl, rfl, .inr ⟨e, he, List.prefix_append e s⟩⟩

theorem SolidByte.not_mem_sep {x : UInt8} (hx : SolidByte x) (he : e ∈ spaces) : x ∉ e := by
  have hall : ∀ e ∈ spaces, e.all (fun y => !decide (SolidByte y)) = true := by decide +kernel
  intro hmem
  have hnot := List.all_eq_true.1 (hall e he) x hmem
  simp [hx] at hnot

theorem not_mem_blank {x : UInt8} (hx : SolidByte x) (hs : fields s = []) : x ∉ s := by
  have ht := tokens_fields s
  rw [hs] at ht
  generalize hws : ([] : List Bytes) = ws at ht
  induction ht with
  | nil => simp
  | sep he hrest ih =>
    subst hws
    rw [List.mem_append, not_or]
    exact ⟨hx.not_mem_sep he, ih (fields_of_tokens hrest) rfl⟩
  | last => cases hws
  | word => cases hws

theorem unbroken_of_solid {w : Bytes} (hw : w.all (SolidByte ·) = true) : Unbroken spaces w := by
  intro t ht
  rw [List.find?_eq_none]
  intro e he hpre
  rw [List.isPrefixOf_iff_prefix] at hpre
  obtain ⟨x, a, rfl⟩ := List.exists_cons_of_ne_nil (separators_spaces.ne_nil e he)
  have hmem : x ∈ w := ht.subset (hpre.subset List.mem_cons_self)
  have hx : SolidByte x := of_decide_eq_true (List.all_eq_true.1 hw x hmem)
  exact hx.not_mem_sep he List.mem_cons_self

end

/-! ## `TrimSpace` -/

section

variable {s : Bytes}

theorem fields_sep {e : Bytes} (he : e ∈ spaces) (t : Bytes) : fields (e ++ t) = fields t :=
  fields_append_sep he [] t

theorem trimLeft_spaces (fuel : Nat) (s : Bytes) (hfuel : s.length ≤ fuel) :
    ∃ b, fields b = [] ∧ s = b ++ trimLeft spaces fuel s ∧
      spaces.find? (·.isPrefixOf (trimLeft spaces fuel s)) = none := by
  induction fuel generalizing s with
  | zero =>
    have hs : s = [] := List.length_eq_zero_iff.1 (Nat.le_zero.1 hfuel)
    rw [hs]
    exact ⟨[], rfl, rfl, separators_spaces.find_nil⟩
  | succ fuel ih =>
    rw [trimLeft]
    cases hsep : spaces.find? (·.isPrefixOf s) with
    | none => exact ⟨[], rfl, rfl, hsep⟩
    | some e =>
      have he := List.mem_of_find?_eq_some hsep
      have hpre := List.find?_some hsep
      rw [List.isPrefixOf_iff_prefix] at hpre
      obtain ⟨r, rfl⟩ := hpre
      have hpos := List.length_pos_iff.2 (separators_spaces.ne_nil e he)
      dsimp only
      rw [List.drop_left]
      rw [List.length_append] at hfuel
      obtain ⟨b, hb, hr, hnone⟩ := ih r (by omega)
      refine ⟨e ++ b, by rw [fields_sep he, hb], ?_, hnone⟩
      rw [List.append_assoc, ← hr]

theorem trimRight_spaces (fuel : Nat) (s : Bytes) :
    ∃ b, fields b = [] ∧ s = (trimLeft (spaces.map List.reverse) fuel s.reverse).reverse ++ b := by
  induction fuel generalizing s with
  | zero => exact ⟨[], rfl, by rw [trimLeft, List.reverse_reverse, List.append_nil]⟩
  | succ fuel ih =>
    rw [trimLeft]
    cases hsep : (spaces.map List.reverse).find? (·.isPrefixOf s.reverse) with
    | none => exact ⟨[], rfl, by simp⟩
    | some e' =>
      obtain ⟨e, he, rfl⟩ := List.mem_map.1 (List.mem_of_find?_eq_some hsep)
      have hpre := List.find?_some hsep
      rw [List.isPrefixOf_iff_prefix, List.reverse_prefix] at hpre
      obtain ⟨r, rfl⟩ := hpre
      obtain ⟨b, hb, hr⟩ := ih r
      dsimp only
      rw [List.reverse_append, List.drop_left]
      refine ⟨b ++ e, ?_, ?_⟩
      · have hsplit := fields_append_sep he b []
        rw [List.append_nil] at hsplit
        rw [hsplit, hb]
        rfl
      · rw [← List.append_assoc, ← hr]

/-- **What `TrimSpace` leaves**: nothing, or a text that begins with the first field. -/
theorem trimSpaceBytes_spec (s : Bytes) :
    fields (trimSpaceBytes s) = fields s ∧
      spaces.find? (·.isPrefixOf (trimSpaceBytes s)) = none := by
  obtain ⟨b, hb, hs, hnone⟩ := trimLeft_spaces s.length s (Nat.le_refl _)
  unfold trimSpaceBytes
  generalize trimLeft spaces s.length s = l at hs hnone
  obtain ⟨b', hb', hl⟩ := trimRight_spaces l.length l
  dsimp only
  generalize (trimLeft (spaces.map List.reverse) l.length l.reverse).reverse = r at hl
  constructor
  · rw [hs, fields_blank_append hb, hl, fields_append_blank hb']
  · rw [List.find?_eq_none] at hnone ⊢
    intro e he hpre
    apply hnone e he
    rw [List.isPrefixOf_iff_prefix] at hpre ⊢
    rw [hl]
    exact hpre.trans (List.prefix_append r b')

theorem fields_trimSpaceBytes (s : Bytes) : fields (trimSpaceBytes s) = fields s :=
  (trimSpaceBytes_spec s).1

theorem trimSpaceBytes_cases (s : Bytes) :
    trimSpaceBytes s = [] ∧ fields s = [] ∨
    ∃ f r, trimSpaceBytes s = f ++ r ∧ (fields s).head? = some f ∧
      (r = [] ∨ ∃ e ∈ spaces, e <+: r) := by
  obtain ⟨hfields, hnone⟩ := trimSpaceBytes_spec s
  rw [← hfields]
  cases hhead : (fields (trimSpaceBytes s)).head? with
  | none =>
    rw [List.head?_eq_none_iff] at hhead
    refine .inl ⟨?_, hhead⟩
    have ht := tokens_fields (trimSpaceBytes s)
    rw [hhead] at ht
    generalize trimSpaceBytes s = t at ht hnone
    cases ht with
    | nil => rfl
    | sep he _ =>
      rw [separators_spaces.find_append he] at hnone
      cases hnone
  | some f =>
    obtain ⟨b, r, hs, hb, hr⟩ := exists_first hhead
    refine .inr ⟨f, r, ?_, rfl, hr⟩
    have ht := tokens_fields b
    rw [hb] at ht
    cases ht with
    | nil => exact hs
    | sep he _ =>
      rw [hs, List.append_assoc, separators_spaces.find_append he] at hnone
      cases hnone

theorem trimSpaceBytes_eq_nil : trimSpaceBytes s = [] ↔ fields s = [] := by
  rcases trimSpaceBytes_cases s with ⟨ht, hf⟩ | ⟨f, r, ht, hf, -⟩
  · exact iff_of_true ht hf
  · have hmem : f ∈ fields s := List.mem_of_head? hf
    apply iff_of_false
    · rw [ht]
      intro hnil
      exact (fields_of_mem hmem).1 (List.append_eq_nil_iff.1 hnil).1
    · intro hnil
      rw [hnil] at hmem
      cases hmem

theorem isPrefixOf_trimSpaceBytes {p : Bytes} (hp : p ≠ []) (hsolid : p.all (SolidByte ·) = true) :
    p.isPrefixOf (trimSpaceBytes s) = true ↔ ∃ f, (fields s).head? = some f ∧ p <+: f := by
  rw [List.isPrefixOf_iff_prefix]
  rcases trimSpaceBytes_cases s with ⟨ht, hf⟩ | ⟨f, r, ht, hf, hr⟩
  · rw [ht, hf]
    apply iff_of_false
    · intro hpre
      exact hp (List.prefix_nil.1 hpre)
    · rintro ⟨f, hf, -⟩
      cases hf
  rw [ht, hf]
  constructor
  · intro hpre
    refine ⟨f, rfl, ?_⟩
    rcases List.prefix_or_prefix_of_prefix hpre (List.prefix_append f r) with hle | ⟨a, ha⟩
    · exact hle
    rcases a with _ | ⟨x, a⟩
    · rw [← ha, List.append_nil]
    -- the text would go on into a separator
    rw [← ha, List.prefix_append_right_inj] at hpre
    rcases hr with rfl | ⟨e, he, t, rfl⟩
    · cases List.prefix_nil.1 hpre
    · obtain ⟨y, e₁, rfl⟩ := List.exists_cons_of_ne_nil (separators_spaces.ne_nil e he)
      rw [List.cons_append, List.cons_prefix_cons] at hpre
      rw [hpre.1] at ha
      have hy : SolidByte y := of_decide_eq_true (List.all_eq_true.1 hsolid y (by rw [← ha]; simp))
      exact absurd List.mem_cons_self (hy.not_mem_sep he)
  · rintro ⟨f', hf', hpre⟩
    cases hf'
    exact hpre.trans (List.prefix_append _ _)

end

end Dockerset.Go
