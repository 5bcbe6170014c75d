import Dockerset.Mdns.Packet

/-!
# Names in a packet

`Derives` says which labels stand at an offset, by the rules of compressed names
alone: a zero byte ends a name, a label is followed by a name, and a pointer
stands for the name at its target. `parseLabels` reads what these rules derive,
if no more than ten pointers are followed.
-/

namespace Dockerset.Mdns
open Go

/-- The labels of the name at offset `i`, where it ends, and how many pointers it
goes through. -/
inductive Derives (packet : Bytes) : Nat → List Bytes → Nat → Nat → Prop
  | root {i : Nat} (h : packet[i]? = some 0) : Derives packet i [] (i + 1) 0
  | label {i next jumps : Nat} {l : UInt8} {labels : List Bytes} (h : packet[i]? = some l)
      (hl : 1 ≤ l.toNat ∧ l.toNat ≤ 63) (hin : i + 1 + l.toNat ≤ packet.length)
      (hrest : Derives packet (i + 1 + l.toNat) labels next jumps) :
      Derives packet i ((packet.drop (i + 1)).take l.toNat :: labels) next jumps
  | pointer {i next jumps : Nat} {l lo : UInt8} {labels : List Bytes} (h : packet[i]? = some l)
      (hl : 0xC0 ≤ l.toNat) (hlo : packet[i + 1]? = some lo)
      (htarget : Derives packet (pointerTarget l lo) labels next jumps) :
      Derives packet i labels (i + 2) (jumps + 1)

section

variable {packet : Bytes} {i next jumps left : Nat} {labels : List Bytes}

theorem Derives.lt (h : Derives packet i labels next jumps) : i < packet.length := by
  cases h with
  | root h => exact (List.getElem?_eq_some_iff.1 h).1
  | label h => exact (List.getElem?_eq_some_iff.1 h).1
  | pointer h => exact (List.getElem?_eq_some_iff.1 h).1

theorem topBits_eq_zero (l : UInt8) : l &&& 0xC0 = 0x00 ↔ l.toNat ≤ 63 := by
  have h : ∀ n : Fin 256, UInt8.ofFin n &&& 0xC0 = 0x00 ↔ n.val ≤ 63 := by decide +kernel
  exact h l.toFin

theorem topBits_eq_ones (l : UInt8) : l &&& 0xC0 = 0xC0 ↔ 0xC0 ≤ l.toNat := by
  have h : ∀ n : Fin 256, UInt8.ofFin n &&& 0xC0 = 0xC0 ↔ 0xC0 ≤ n.val := by decide +kernel
  exact h l.toFin

/-! ## The rules, by the byte at the offset -/

theorem derives_root (h : packet[i]? = some 0) :
    Derives packet i labels next jumps ↔ labels = [] ∧ next = i + 1 ∧ jumps = 0 := by
  constructor
  · intro hd
    cases hd with
    | root => exact ⟨rfl, rfl, rfl⟩
    | label h' hl =>
      rw [h] at h'
      cases h'
      simp at hl
    | pointer h' hl =>
      rw [h] at h'
      cases h'
      simp at hl
  · rintro ⟨rfl, rfl, rfl⟩
    exact .root h

theorem derives_label {l : UInt8} (h : packet[i]? = some l) (hl : 1 ≤ l.toNat ∧ l.toNat ≤ 63) :
    Derives packet i labels next jumps ↔ i + 1 + l.toNat ≤ packet.length ∧
      ∃ rest, labels = (packet.drop (i + 1)).take l.toNat :: rest ∧
        Derives packet (i + 1 + l.toNat) rest next jumps := by
  constructor
  · intro hd
    cases hd with
    | root h' =>
      rw [h] at h'
      cases h'
      simp at hl
    | label h' _ hin hrest =>
      rw [h] at h'
      cases h'
      exact ⟨hin, _, rfl, hrest⟩
    | pointer h' hl' =>
      rw [h] at h'
      cases h'
      omega
  · rintro ⟨hin, rest, rfl, hrest⟩
    exact .label h hl hin hrest

theorem derives_pointer {l : UInt8} (h : packet[i]? = some l) (hl : 0xC0 ≤ l.toNat) :
    Derives packet i labels next jumps ↔ next = i + 2 ∧ ∃ lo next' jumps',
      packet[i + 1]? = some lo ∧ jumps = jumps' + 1 ∧
        Derives packet (pointerTarget l lo) labels next' jumps' := by
  constructor
  · intro hd
    cases hd with
    | root h' =>
      rw [h] at h'
      cases h'
      simp at hl
    | label h' hl' =>
      rw [h] at h'
      cases h'
      omega
    | pointer h' _ hlo htarget =>
      rw [h] at h'
      cases h'
      exact ⟨rfl, _, _, _, hlo, rfl, htarget⟩
  · rintro ⟨rfl, lo, next', jumps', hlo, rfl, htarget⟩
    exact .pointer h hl hlo htarget

theorem not_derives_other {l : UInt8} (h : packet[i]? = some l) (hl : 63 < l.toNat)
    (hl' : l.toNat < 0xC0) : ¬ Derives packet i labels next jumps := by
  intro hd
  cases hd with
  | root h' =>
    rw [h] at h'
    cases h'
    simp at hl
  | label h' hlabel =>
    rw [h] at h'
    cases h'
    omega
  | pointer h' hpointer =>
    rw [h] at h'
    cases h'
    omega

theorem Derives.unique (h : Derives packet i labels next jumps) :
    ∀ {labels' : List Bytes} {next' jumps' : Nat}, Derives packet i labels' next' jumps' →
      labels' = labels ∧ next' = next ∧ jumps' = jumps := by
  induction h with
  | root h =>
    intro labels' next' jumps' h'
    exact (derives_root h).1 h'
  | label h hl _ _ ih =>
    intro labels' next' jumps' h'
    obtain ⟨-, rest, rfl, hrest⟩ := (derives_label h hl).1 h'
    obtain ⟨rfl, rfl, rfl⟩ := ih hrest
    exact ⟨rfl, rfl, rfl⟩
  | pointer h hl hlo _ ih =>
    intro labels' next' jumps' h'
    obtain ⟨rfl, lo', _, _, hlo', rfl, htarget⟩ := (derives_pointer h hl).1 h'
    rw [hlo] at hlo'
    cases hlo'
    obtain ⟨rfl, -, rfl⟩ := ih htarget
    exact ⟨rfl, rfl, rfl⟩

/-! ## What `parseLabels` reads -/

section Loop

variable {jump : Nat → Fallible (List Bytes × Nat)} {before : List Bytes} {l : UInt8}

theorem labelLoop_end (h : packet.length ≤ i) :
    labelLoop packet jump before i = fail "truncated name" := by
  rw [labelLoop, dif_pos h]

/-- One turn of the loop, at the byte `l`. -/
theorem labelLoop_at (h : packet[i]? = some l) :
    labelLoop packet jump before i =
      if l &&& 0xC0 = 0x00 then
        if l = 0 then pure (before, i + 1)
        else if l > 63 then fail "invalid label length"
        else if i + 1 + l.toNat > packet.length then fail "label out of bounds"
        else do
          let label ← slice packet (i + 1) (i + 1 + l.toNat)
          labelLoop packet jump (before ++ [label]) (i + 1 + l.toNat)
      else if l &&& 0xC0 = 0xC0 then
        if i + 1 ≥ packet.length then fail "truncated compression pointer"
        else do
          let lo ← byteAt packet (i + 1)
          let (ptrLabels, _) ← jump (pointerTarget l lo)
          return (before ++ ptrLabels, i + 2)
      else fail "invalid label encoding" := by
  obtain ⟨hi, hl⟩ := List.getElem?_eq_some_iff.1 h
  rw [labelLoop, dif_neg (by omega), byteAt_of_lt hi, hl]
  rfl

theorem labelLoop_root (h : packet[i]? = some 0) :
    labelLoop packet jump before i = pure (before, i + 1) := by
  rw [labelLoop_at h]
  rfl

theorem labelLoop_label (h : packet[i]? = some l) (hl : 1 ≤ l.toNat ∧ l.toNat ≤ 63) :
    labelLoop packet jump before i =
      if i + 1 + l.toNat > packet.length then fail "label out of bounds"
      else labelLoop packet jump (before ++ [(packet.drop (i + 1)).take l.toNat])
        (i + 1 + l.toNat) := by
  have hne : l ≠ 0 := by
    rintro rfl
    simp at hl
  have hle : ¬ l > 63 := by
    rw [gt_iff_lt, UInt8.lt_iff_toNat_lt]
    exact Nat.not_lt.2 hl.2
  rw [labelLoop_at h, if_pos ((topBits_eq_zero l).2 hl.2), if_neg hne, if_neg hle]
  split
  · rfl
  · rw [slice_of_le (by omega) (by omega), Nat.add_sub_cancel_left]
    rfl

theorem labelLoop_pointer {lo : UInt8} (h : packet[i]? = some l) (hl : 0xC0 ≤ l.toNat)
    (hlo : packet[i + 1]? = some lo) :
    labelLoop packet jump before i =
      jump (pointerTarget l lo) >>= fun r => pure (before ++ r.1, i + 2) := by
  obtain ⟨hi, hlo⟩ := List.getElem?_eq_some_iff.1 hlo
  have hnot : ¬ l &&& 0xC0 = 0x00 := by
    rw [topBits_eq_zero]
    omega
  rw [labelLoop_at h, if_neg hnot, if_pos ((topBits_eq_ones l).2 hl), if_neg (by omega),
    byteAt_of_lt hi, hlo]
  rfl

theorem labelLoop_bad (h : packet[i]? = some l) (hl : 63 < l.toNat)
    (hbad : 0xC0 ≤ l.toNat → packet.length ≤ i + 1) :
    ∃ text, labelLoop packet jump before i = fail text := by
  have hnot : ¬ l &&& 0xC0 = 0x00 := by
    rw [topBits_eq_zero]
    omega
  rw [labelLoop_at h, if_neg hnot]
  by_cases hptr : l &&& 0xC0 = 0xC0
  · rw [if_pos hptr, if_pos (hbad ((topBits_eq_ones l).1 hptr))]
    exact ⟨_, rfl⟩
  · rw [if_neg hptr]
    exact ⟨_, rfl⟩

end Loop

/-- The labels so far and those that the rules derive here, with at most `left` pointers. -/
def Extends (packet : Bytes) (left : Nat) (before : List Bytes) (i : Nat) (labels : List Bytes)
    (next : Nat) : Prop :=
  ∃ rest, ∃ jumps ≤ left, labels = before ++ rest ∧ Derives packet i rest next jumps

section Turn

variable {jump : Nat → Fallible (List Bytes × Nat)} {before labels : List Bytes} {i next : Nat}
  {l lo : UInt8}

theorem yields_labelLoop_fail {text : Str} (heq : labelLoop packet jump before i = fail text)
    (hno : ∀ rest jumps, ¬ Derives packet i rest next jumps) :
    Yields (labelLoop packet jump before i) (labels, next) ↔
      Extends packet left before i labels next := by
  rw [heq]
  constructor
  · intro hy
    exact absurd hy not_yields_fail
  · rintro ⟨rest, jumps, -, -, hd⟩
    exact absurd hd (hno rest jumps)

theorem yields_labelLoop_root (hl : packet[i]? = some 0) :
    Yields (labelLoop packet jump before i) (labels, next) ↔
      Extends packet left before i labels next := by
  rw [labelLoop_root hl, yields_pure]
  constructor
  · intro heq
    cases heq
    exact ⟨[], 0, Nat.zero_le _, (List.append_nil _).symm, .root hl⟩
  · rintro ⟨rest, jumps, -, rfl, hd⟩
    obtain ⟨rfl, rfl, -⟩ := (derives_root hl).1 hd
    rw [List.append_nil]

theorem extends_label_iff (hl : packet[i]? = some l) (hlen : 1 ≤ l.toNat ∧ l.toNat ≤ 63)
    (hin : i + 1 + l.toNat ≤ packet.length) :
    Extends packet left before i labels next ↔
      Extends packet left (before ++ [(packet.drop (i + 1)).take l.toNat]) (i + 1 + l.toNat)
        labels next := by
  constructor
  · rintro ⟨rest, jumps, hjumps, rfl, hd⟩
    obtain ⟨-, rest, rfl, hrest⟩ := (derives_label hl hlen).1 hd
    exact ⟨rest, jumps, hjumps, List.append_cons _ _ _, hrest⟩
  · rintro ⟨rest, jumps, hjumps, rfl, hd⟩
    exact ⟨_ :: rest, jumps, hjumps, List.append_assoc _ _ _, .label hl hlen hin hd⟩

theorem yields_labelLoop_pointer
    (hjump : ∀ target labels next, Yields (jump target) (labels, next) ↔
      ∃ jumps < left, Derives packet target labels next jumps)
    (hl : packet[i]? = some l) (hptr : 0xC0 ≤ l.toNat) (hlo : packet[i + 1]? = some lo) :
    Yields (labelLoop packet jump before i) (labels, next) ↔
      Extends packet left before i labels next := by
  rw [labelLoop_pointer hl hptr hlo, yields_bind]
  constructor
  · rintro ⟨⟨labels', next'⟩, hy, hret⟩
    obtain ⟨jumps, hjumps, hd⟩ := (hjump _ _ _).1 hy
    cases yields_pure.1 hret
    exact ⟨labels', jumps + 1, hjumps, rfl, .pointer hl hptr hlo hd⟩
  · rintro ⟨rest, jumps, hjumps, rfl, hd⟩
    obtain ⟨rfl, lo', next', jumps', hlo', rfl, hd⟩ := (derives_pointer hl hptr).1 hd
    rw [hlo] at hlo'
    cases hlo'
    exact ⟨(rest, next'), (hjump _ _ _).2 ⟨jumps', hjumps, hd⟩, yields_pure.2 rfl⟩

theorem yields_labelLoop_bad (hl : packet[i]? = some l) (hlen : 63 < l.toNat)
    (hbad : 0xC0 ≤ l.toNat → packet.length ≤ i + 1) :
    Yields (labelLoop packet jump before i) (labels, next) ↔
      Extends packet left before i labels next := by
  obtain ⟨text, heq⟩ : ∃ text, labelLoop packet jump before i = fail text :=
    labelLoop_bad hl hlen hbad
  apply yields_labelLoop_fail heq
  intro rest jumps hd
  by_cases hC0 : 0xC0 ≤ l.toNat
  · obtain ⟨-, lo, _, _, hlo, -⟩ := (derives_pointer hl hC0).1 hd
    have hlt := (List.getElem?_eq_some_iff.1 hlo).1
    have hle := hbad hC0
    omega
  · exact not_derives_other hl hlen (by omega) hd

end Turn

/-- The loop reads the labels that the rules derive, if the jumps do. -/
theorem yields_labelLoop {jump : Nat → Fallible (List Bytes × Nat)}
    (hjump : ∀ target labels next, Yields (jump target) (labels, next) ↔
      ∃ jumps < left, Derives packet target labels next jumps)
    (before : List Bytes) (i : Nat) {labels : List Bytes} {next : Nat} :
    Yields (labelLoop packet jump before i) (labels, next) ↔
      Extends packet left before i labels next := by
  by_cases hi : packet.length ≤ i
  · apply yields_labelLoop_fail (labelLoop_end hi)
    intro rest jumps hd
    have hlt := hd.lt
    omega
  have hl : packet[i]? = some packet[i] := List.getElem?_eq_getElem (by omega)
  generalize packet[i] = l at hl
  by_cases hzero : l = 0
  · subst hzero
    exact yields_labelLoop_root hl
  have hpos : 1 ≤ l.toNat := by
    have hne : l.toNat ≠ 0 := fun h0 => hzero (UInt8.toNat_inj.1 h0)
    omega
  by_cases hlabel : l.toNat ≤ 63
  · have hrule : labelLoop packet jump before i = _ := labelLoop_label hl ⟨hpos, hlabel⟩
    by_cases hin : i + 1 + l.toNat > packet.length
    · rw [if_pos hin] at hrule
      apply yields_labelLoop_fail hrule
      intro rest jumps hd
      have hin' := ((derives_label hl ⟨hpos, hlabel⟩).1 hd).1
      omega
    · -- The loop goes on after the label.
      rw [hrule, if_neg hin, yields_labelLoop hjump]
      exact (extends_label_iff hl ⟨hpos, hlabel⟩ (by omega)).symm
  by_cases hptr : 0xC0 ≤ l.toNat ∧ i + 1 < packet.length
  · have hlo : packet[i + 1]? = some packet[i + 1] := List.getElem?_eq_getElem hptr.2
    exact yields_labelLoop_pointer hjump hl hptr.1 hlo
  · exact yields_labelLoop_bad hl (by omega) (by omega)
termination_by packet.length - i

theorem yields_labelsWithin (left start : Nat) {labels : List Bytes} {next : Nat} :
    Yields (labelsWithin packet left start) (labels, next) ↔
      ∃ jumps < left, Derives packet start labels next jumps := by
  induction left generalizing start labels next with
  | zero =>
    constructor
    · intro hy
      exact absurd hy not_yields_fail
    · rintro ⟨jumps, hjumps, -⟩
      omega
  | succ left ih =>
    unfold labelsWithin
    by_cases hstart : start ≥ packet.length
    · rw [if_pos hstart]
      constructor
      · intro hy
        exact absurd hy not_yields_fail
      · rintro ⟨jumps, -, hd⟩
        have hlt := hd.lt
        omega
    · rw [if_neg hstart, yields_labelLoop fun target _ _ => ih target]
      constructor
      · rintro ⟨rest, jumps, hjumps, rfl, hd⟩
        exact ⟨jumps, by omega, hd⟩
      · rintro ⟨jumps, hjumps, hd⟩
        exact ⟨labels, jumps, by omega, rfl, hd⟩

/-- `parseName` reads the name that the rules derive, with at most ten pointers. -/
theorem yields_parseName {lower : Char → Char} {off : Nat} {name : Bytes} {next : Nat} :
    Yields (parseName lower packet off) (name, next) ↔
      ∃ labels, ∃ jumps ≤ 10, Derives packet off labels next jumps ∧
        (joinDots labels).length ≤ maxNameLength ∧ name = toLower lower (joinDots labels) := by
  unfold parseName parseLabels
  rw [yields_bind]
  constructor
  · rintro ⟨⟨labels, next'⟩, hy, hname⟩
    obtain ⟨jumps, hjumps, hd⟩ := (yields_labelsWithin 11 off).1 hy
    rcases yields_ite.1 hname with ⟨-, hfail⟩ | ⟨hlen, hret⟩
    · exact absurd hfail not_yields_fail
    · cases yields_pure.1 hret
      exact ⟨labels, jumps, by omega, hd, by omega, rfl⟩
  · rintro ⟨labels, jumps, hjumps, hd, hlen, rfl⟩
    refine ⟨(labels, next), (yields_labelsWithin 11 off).2 ⟨jumps, by omega, hd⟩, ?_⟩
    exact yields_ite.2 (.inr ⟨by omega, yields_pure.2 rfl⟩)

/-! ## Where reading goes on -/

/-- Read forward from `i`, label by label: `next` is just after the first zero
byte or the first pointer. -/
inductive FirstStop (packet : Bytes) : Nat → Nat → Prop
  | zero {i : Nat} (h : packet[i]? = some 0) : FirstStop packet i (i + 1)
  | pointer {i : Nat} {l : UInt8} (h : packet[i]? = some l) (hl : 0xC0 ≤ l.toNat)
      (hlo : i + 1 < packet.length) : FirstStop packet i (i + 2)
  | label {i next : Nat} {l : UInt8} (h : packet[i]? = some l) (hl : 1 ≤ l.toNat ∧ l.toNat ≤ 63)
      (hrest : FirstStop packet (i + 1 + l.toNat) next) : FirstStop packet i next

/-- A name ends where its first pointer does, wherever that leads. -/
theorem Derives.firstStop (h : Derives packet i labels next jumps) : FirstStop packet i next := by
  induction h with
  | root h => exact .zero h
  | label h hl _ _ ih => exact .label h hl ih
  | pointer h hl hlo _ _ => exact .pointer h hl (List.getElem?_eq_some_iff.1 hlo).1

/-- **`parseName` accepts exactly the names of the grammar** that go through at
most ten pointers and are at most 255 bytes long in dotted form. It returns
their text in lower case and the offset after the part that stands in place. -/
theorem parseName_grammar (lower : Char → Char) (packet : Bytes) (off : Nat) :
    Returns (parseName lower packet off).run ∧
    ((∃ r, Yields (parseName lower packet off) r) ↔
      ∃ labels next, ∃ jumps ≤ 10, Derives packet off labels next jumps ∧
        (joinDots labels).length ≤ 255) ∧
    ∀ name next labels next' jumps, Yields (parseName lower packet off) (name, next) →
      Derives packet off labels next' jumps →
        name = toLower lower (joinDots labels) ∧ FirstStop packet off next := by
  refine ⟨(safe_parseName off).returns, ?_, ?_⟩
  · constructor
    · intro hsome
      obtain ⟨⟨name, next⟩, hy⟩ := hsome
      obtain ⟨labels, jumps, hjumps, hd, hlen, -⟩ := yields_parseName.1 hy
      exact ⟨labels, next, jumps, hjumps, hd, hlen⟩
    · intro hname
      obtain ⟨labels, next, jumps, hjumps, hd, hlen⟩ := hname
      exact ⟨_, yields_parseName.2 ⟨labels, jumps, hjumps, hd, hlen, rfl⟩⟩
  · intro name next labels next' jumps hy hd
    obtain ⟨labels', jumps', -, hd', -, hname⟩ := yields_parseName.1 hy
    obtain ⟨hlabels, -, -⟩ := hd.unique hd'
    rw [hname, hlabels]
    exact ⟨rfl, hd'.firstStop⟩

end

end Dockerset.Mdns
