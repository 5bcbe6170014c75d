import Mathlib.Data.List.TakeWhile
import Mathlib.Tactic.IntervalCases

/-!
# IPv4 addresses in C

`inet_pton` reads a dotted quad into a `struct in_addr`, four bytes in the order of
the text. Programs compare and mask such addresses as the 32-bit word that a little
endian machine loads from the four bytes; `ntohl` turns the word into the number
whose first bits are the first bits of the text.

`inet_pton` accepts exactly what `inet_ntoa` prints.
-/

namespace Dockerset.Clib

/-- A string without its terminating zero. -/
abbrev CString := List UInt8

/-- The four bytes of an address. -/
structure Quad where
  a : UInt8
  b : UInt8
  c : UInt8
  d : UInt8
deriving DecidableEq

/-- A `struct in_addr` as a little endian machine loads it. -/
abbrev InAddr := BitVec 32

def Quad.inAddr (q : Quad) : InAddr :=
  q.d.toBitVec ++ q.c.toBitVec ++ q.b.toBitVec ++ q.a.toBitVec

def ntohl (x : BitVec 32) : BitVec 32 :=
  x.extractLsb' 0 8 ++ x.extractLsb' 8 8 ++ x.extractLsb' 16 8 ++ x.extractLsb' 24 8

/-! ## Byte order -/

section ByteOrder

variable {x y : BitVec 32}

theorem getLsbD_ntohl (x : BitVec 32) {i : Nat} (hi : i < 32) :
    (ntohl x).getLsbD i = x.getLsbD (8 * (3 - i / 8) + i % 8) := by
  simp only [ntohl, BitVec.getLsbD_append, BitVec.getLsbD_extractLsb']
  split_ifs with h0 h1 h2
  · simp only [h0, decide_true, Bool.true_and]
    congr 1
    omega
  · simp only [h1, decide_true, Bool.true_and]
    congr 1
    omega
  · simp only [h2, decide_true, Bool.true_and]
    congr 1
    omega
  · have h3 : i - 8 - 8 - 8 < 8 := by omega
    simp only [h3, decide_true, Bool.true_and]
    congr 1
    omega

@[simp] theorem ntohl_ntohl (x : BitVec 32) : ntohl (ntohl x) = x := by
  apply BitVec.eq_of_getLsbD_eq
  intro i hi
  rw [getLsbD_ntohl _ hi, getLsbD_ntohl _ (by omega)]
  congr 1
  omega

theorem ntohl_injective : Function.Injective ntohl :=
  Function.LeftInverse.injective ntohl_ntohl

theorem ntohl_and (x y : BitVec 32) : ntohl (x &&& y) = ntohl x &&& ntohl y := by
  apply BitVec.eq_of_getLsbD_eq
  intro i hi
  rw [getLsbD_ntohl _ hi, BitVec.getLsbD_and, BitVec.getLsbD_and, getLsbD_ntohl _ hi,
    getLsbD_ntohl _ hi]

/-- The first bits of two numbers agree if the numbers do under a mask of that many ones. -/
theorem and_shiftLeft_eq_iff {n : Nat} (hn : n ≤ 32) :
    x &&& (0xffffffff#32 <<< (32 - n)) = y &&& (0xffffffff#32 <<< (32 - n)) ↔
      ∀ j < n, x.getMsbD j = y.getMsbD j := by
  have hmask : ∀ i < 32, (0xffffffff#32 <<< (32 - n)).getLsbD i = decide (32 - n ≤ i) := by
    intro i hi
    have hones : ∀ k < 32, (0xffffffff#32).getLsbD k = true := by decide
    rw [BitVec.getLsbD_shiftLeft]
    by_cases hle : 32 - n ≤ i
    · simp [hi, hle, hones (i - (32 - n)) (by omega)]
    · simp [hi, hle]
  constructor
  · intro h j hj
    have hbit := congrArg (fun z => z.getLsbD (31 - j)) h
    simp only [BitVec.getLsbD_and, hmask (31 - j) (by omega)] at hbit
    have hle : 32 - n ≤ 31 - j := by omega
    have hlt : j < 32 := by omega
    simpa [BitVec.getMsbD_eq_getLsbD, hle, hlt] using hbit
  · intro h
    apply BitVec.eq_of_getLsbD_eq
    intro i hi
    rw [BitVec.getLsbD_and, BitVec.getLsbD_and, hmask i hi]
    by_cases hle : 32 - n ≤ i
    · have hbit := h (31 - i) (by omega)
      have hsub : 32 - 1 - (31 - i) = i := by omega
      have hlt : 31 - i < 32 := by omega
      simp only [BitVec.getMsbD_eq_getLsbD, hlt, decide_true, Bool.true_and, hsub] at hbit
      rw [hbit]
    · simp [hle]

end ByteOrder

/-! ## The text of an address -/

def isDigit (c : UInt8) : Bool := 0x30 ≤ c && c ≤ 0x39

/-- The number that digits stand for. -/
def number (ds : CString) : Nat := ds.foldl (fun v c => 10 * v + (c.toNat - 0x30)) 0

/-- The digits that a part of the address starts with, at most three. -/
def leadingDigits (s : CString) : CString := (s.take 3).takeWhile isDigit

/-- One part of the address, without a leading zero. -/
def octet (s : CString) : Option (UInt8 × CString) :=
  if leadingDigits s = [] ∨ (1 < (leadingDigits s).length ∧ (leadingDigits s).head? = some 0x30) ∨
      255 < number (leadingDigits s) then none
  else some (UInt8.ofNat (number (leadingDigits s)), s.drop (leadingDigits s).length)

/-- `n` parts with dots between them. -/
def octets : Nat → CString → Option (List UInt8)
  | 0, _ => none
  | n + 1, s =>
    match octet s with
    | none => none
    | some (v, []) => if n = 0 then some [v] else none
    | some (v, c :: rest) => if c = 0x2e then (octets n rest).map (v :: ·) else none

/-- `inet_pton(AF_INET, s, &addr)`. -/
def inetPton (s : CString) : Option Quad :=
  match octets 4 s with
  | some [a, b, c, d] => some ⟨a, b, c, d⟩
  | _ => none

/-- The digit for `k`. -/
def digit (k : Nat) : UInt8 := UInt8.ofNat (0x30 + k)

/-- A number below 1000 in decimal. -/
def decimal (n : Nat) : CString :=
  if n < 10 then [digit n]
  else if n < 100 then [digit (n / 10), digit (n % 10)]
  else [digit (n / 100), digit (n / 10 % 10), digit (n % 10)]

def dec (v : UInt8) : CString := decimal v.toNat

/-- `inet_ntoa(addr)`. -/
def Quad.text (q : Quad) : CString :=
  dec q.a ++ 0x2e :: (dec q.b ++ 0x2e :: (dec q.c ++ 0x2e :: dec q.d))

section Octet

variable {s rest : CString} {v c : UInt8} {k : Nat}

theorem toNat_digit (hk : k < 10) : (digit k).toNat = 0x30 + k := by
  rw [digit, UInt8.toNat_ofNat_of_lt']
  show 48 + k < 256
  omega

theorem isDigit_digit (hk : k < 10) : isDigit (digit k) = true := by
  interval_cases k <;> rfl

theorem digit_of_isDigit (h : isDigit c = true) : ∃ k < 10, c = digit k := by
  simp only [isDigit, Bool.and_eq_true, decide_eq_true_eq, UInt8.le_iff_toNat_le] at h
  have hlo : 48 ≤ c.toNat := h.1
  have hhi : c.toNat ≤ 57 := h.2
  refine ⟨c.toNat - 48, by omega, UInt8.toNat_inj.1 ?_⟩
  rw [toNat_digit (by omega)]
  omega

theorem digit_eq_zero_iff (hk : k < 10) : digit k = 0x30 ↔ k = 0 := by
  interval_cases k <;> decide

/-- What does not start with a digit. -/
def NoDigit (s : CString) : Prop := ∀ c ∈ s.head?, isDigit c = false

theorem takeWhile_noDigit (h : NoDigit rest) (n : Nat) : (rest.take n).takeWhile isDigit = [] := by
  cases rest with
  | nil => simp
  | cons c l =>
    have hc : isDigit c = false := h c rfl
    cases n <;> simp [hc]

theorem decimal_cases {n : Nat} (hn : n < 1000) :
    (n < 10 ∧ decimal n = [digit n]) ∨
    (∃ i j, 0 < i ∧ i < 10 ∧ j < 10 ∧ n = 10 * i + j ∧ decimal n = [digit i, digit j]) ∨
    ∃ i j k, 0 < i ∧ i < 10 ∧ j < 10 ∧ k < 10 ∧ n = 100 * i + 10 * j + k ∧
      decimal n = [digit i, digit j, digit k] := by
  unfold decimal
  split
  · next h10 => exact .inl ⟨h10, rfl⟩
  · split
    · exact .inr (.inl ⟨n / 10, n % 10, by omega, by omega, by omega, by omega, rfl⟩)
    · exact .inr (.inr ⟨n / 100, n / 10 % 10, n % 10, by omega, by omega, by omega, by omega,
        by omega, rfl⟩)

theorem number_decimal {n : Nat} (hn : n < 1000) : number (decimal n) = n := by
  rcases decimal_cases hn with ⟨h10, h⟩ | ⟨i, j, -, hi, hj, hsum, h⟩ | ⟨i, j, k, -, hi, hj, hk, hsum, h⟩
  · simp only [h, number, List.foldl_cons, List.foldl_nil, toNat_digit h10]
    omega
  · simp only [h, number, List.foldl_cons, List.foldl_nil, toNat_digit hi, toNat_digit hj]
    omega
  · simp only [h, number, List.foldl_cons, List.foldl_nil, toNat_digit hi, toNat_digit hj,
      toNat_digit hk]
    omega

theorem isDigit_decimal {n : Nat} (hn : n < 1000) : ∀ c ∈ decimal n, isDigit c = true := by
  rcases decimal_cases hn with ⟨h10, h⟩ | ⟨i, j, -, hi, hj, -, h⟩ | ⟨i, j, k, -, hi, hj, hk, -, h⟩
  · simp [h, isDigit_digit h10]
  · simp [h, isDigit_digit hi, isDigit_digit hj]
  · simp [h, isDigit_digit hi, isDigit_digit hj, isDigit_digit hk]

theorem octet_dec (v : UInt8) (h : NoDigit rest) : octet (dec v ++ rest) = some (v, rest) := by
  have hlt : v.toNat < 256 := v.toNat_lt
  have hn : v.toNat < 1000 := by omega
  have hshape : (dec v).length ≤ 3 ∧ dec v ≠ [] ∧ ¬ (1 < (dec v).length ∧ (dec v).head? = some 0x30) := by
    rcases decimal_cases hn with ⟨-, h⟩ | ⟨i, j, h0, hi, -, -, h⟩ | ⟨i, j, k, h0, hi, -, -, -, h⟩
    · simp [dec, h]
    · have hne := (digit_eq_zero_iff hi).not.2 (by omega)
      simp [dec, h, hne]
    · have hne := (digit_eq_zero_iff hi).not.2 (by omega)
      simp [dec, h, hne]
  obtain ⟨hlen, hne, hlead⟩ := hshape
  have hdig : ∀ c ∈ dec v, isDigit c = true := isDigit_decimal hn
  have htake : leadingDigits (dec v ++ rest) = dec v := by
    rw [leadingDigits, List.take_append, List.take_of_length_le hlen,
      List.takeWhile_append_of_pos hdig, takeWhile_noDigit h, List.append_nil]
  have hnum : number (dec v) = v.toNat := number_decimal hn
  have hcond : ¬ (dec v = [] ∨ (1 < (dec v).length ∧ (dec v).head? = some 0x30) ∨
      255 < number (dec v)) := by
    rw [hnum]
    rintro (h | h | h)
    · exact hne h
    · exact hlead h
    · omega
  rw [octet, htake, if_neg hcond, hnum, UInt8.ofNat_toNat, List.drop_left]

theorem dec_number {ds : CString} (hdig : ∀ c ∈ ds, isDigit c = true) (hlen : ds.length ≤ 3)
    (hne : ds ≠ []) (hlead : ¬ (1 < ds.length ∧ ds.head? = some 0x30)) (hnum : number ds ≤ 255) :
    dec (UInt8.ofNat (number ds)) = ds := by
  have hval : (UInt8.ofNat (number ds)).toNat = number ds :=
    UInt8.toNat_ofNat_of_lt' (Nat.lt_of_le_of_lt hnum (by decide))
  rw [dec, hval, decimal]
  obtain _ | ⟨x, _ | ⟨y, _ | ⟨z, _ | ⟨u, l⟩⟩⟩⟩ := ds
  · exact absurd rfl hne
  · obtain ⟨i, hi, rfl⟩ := digit_of_isDigit (hdig x (by simp))
    have hn : number [digit i] = i := by
      simp only [number, List.foldl_cons, List.foldl_nil, toNat_digit hi]
      omega
    rw [hn, if_pos hi]
  · obtain ⟨i, hi, rfl⟩ := digit_of_isDigit (hdig x (by simp))
    obtain ⟨j, hj, rfl⟩ := digit_of_isDigit (hdig y (by simp))
    have hn : number [digit i, digit j] = 10 * i + j := by
      simp only [number, List.foldl_cons, List.foldl_nil, toNat_digit hi, toNat_digit hj]
      omega
    have hi0 : i ≠ 0 := fun h0 => hlead ⟨by simp, by rw [(digit_eq_zero_iff hi).2 h0]; rfl⟩
    have h1 : (10 * i + j) / 10 = i := by omega
    have h2 : (10 * i + j) % 10 = j := by omega
    rw [hn, if_neg (by omega), if_pos (by omega), h1, h2]
  · obtain ⟨i, hi, rfl⟩ := digit_of_isDigit (hdig x (by simp))
    obtain ⟨j, hj, rfl⟩ := digit_of_isDigit (hdig y (by simp))
    obtain ⟨k, hk, rfl⟩ := digit_of_isDigit (hdig z (by simp))
    have hn : number [digit i, digit j, digit k] = 100 * i + 10 * j + k := by
      simp only [number, List.foldl_cons, List.foldl_nil, toNat_digit hi, toNat_digit hj,
        toNat_digit hk]
      omega
    have hi0 : i ≠ 0 := fun h0 => hlead ⟨by simp, by rw [(digit_eq_zero_iff hi).2 h0]; rfl⟩
    have h1 : (100 * i + 10 * j + k) / 100 = i := by omega
    have h2 : (100 * i + 10 * j + k) / 10 % 10 = j := by omega
    have h3 : (100 * i + 10 * j + k) % 10 = k := by omega
    rw [hn, if_neg (by omega), if_neg (by omega), h1, h2, h3]
  · simp only [List.length_cons] at hlen
    omega

theorem octet_eq_some (h : octet s = some (v, rest)) : s = dec v ++ rest := by
  unfold octet at h
  split at h
  · cases h
  · next hcond =>
    push Not at hcond
    obtain ⟨hne, hlead, hnum⟩ := hcond
    obtain ⟨hv, hrest⟩ := Prod.mk.inj (Option.some.inj h)
    have hpre : leadingDigits s <+: s :=
      (List.takeWhile_prefix _).trans (List.take_prefix 3 s)
    have hdig : ∀ c ∈ leadingDigits s, isDigit c = true := fun c hc => List.mem_takeWhile_imp hc
    have hlen : (leadingDigits s).length ≤ 3 :=
      (List.takeWhile_prefix isDigit).length_le.trans (by simp)
    have hdec := dec_number hdig hlen hne (fun hl => hlead hl.1 hl.2) hnum
    rw [← hv, ← hrest, hdec]
    exact (List.prefix_iff_eq_append.1 hpre).symm

end Octet

/-! ## Round trip -/

section RoundTrip

variable {s : CString} {q : Quad}

theorem noDigit_dot (l : CString) : NoDigit (0x2e :: l) := by
  intro c hc
  cases hc
  rfl

theorem inetPton_text (q : Quad) : inetPton q.text = some q := by
  have hnil : NoDigit [] := by simp [NoDigit]
  have hd := octet_dec q.d hnil
  rw [List.append_nil] at hd
  have hocts : octets 4 q.text = some [q.a, q.b, q.c, q.d] := by
    simp only [Quad.text, octets, octet_dec _ (noDigit_dot _), hd, if_true, Option.map_some]
  rw [inetPton, hocts]

theorem octets_cons {n : Nat} {l : List UInt8} (h : octets (n + 1) s = some l) :
    (n = 0 ∧ ∃ v, l = [v] ∧ s = dec v) ∨
      ∃ v rest l', l = v :: l' ∧ s = dec v ++ 0x2e :: rest ∧ octets n rest = some l' := by
  unfold octets at h
  cases ho : octet s with
  | none => simp [ho] at h
  | some r =>
    obtain ⟨v, rest⟩ := r
    have hs := octet_eq_some ho
    cases rest with
    | nil =>
      simp only [ho] at h
      split at h
      · next hn =>
        cases h
        exact .inl ⟨hn, v, rfl, by rw [hs, List.append_nil]⟩
      · cases h
    | cons c rest =>
      simp only [ho] at h
      split at h
      · next hc =>
        obtain ⟨l', hl', rfl⟩ := Option.map_eq_some_iff.1 h
        exact .inr ⟨v, rest, l', rfl, hc ▸ hs, hl'⟩
      · cases h

/-- **`inet_pton` accepts exactly the dotted quads.** -/
theorem inetPton_eq_some : inetPton s = some q ↔ s = q.text := by
  constructor
  · intro h
    unfold inetPton at h
    split at h
    · next a b c d ho =>
      cases h
      rcases octets_cons ho with ⟨h0, -⟩ | ⟨a', s₁, l₁, hl₁, rfl, ho₁⟩
      · cases h0
      rcases octets_cons ho₁ with ⟨h0, -⟩ | ⟨b', s₂, l₂, rfl, rfl, ho₂⟩
      · cases h0
      rcases octets_cons ho₂ with ⟨h0, -⟩ | ⟨c', s₃, l₃, rfl, rfl, ho₃⟩
      · cases h0
      rcases octets_cons ho₃ with ⟨-, d', rfl, rfl⟩ | ⟨d', s₄, l₄, rfl, rfl, ho₄⟩
      · cases hl₁
        rfl
      · cases ho₄
    · cases h
  · rintro rfl
    exact inetPton_text q

end RoundTrip

/-! ## Numbers -/

/-- `isspace(c)`. -/
def isSpace (c : UInt8) : Bool := c == 0x20 || (0x09 ≤ c && c ≤ 0x0d)

/-- A sign, if there is one, and what follows it. -/
def sign : CString → Bool × CString
  | 0x2d :: s => (true, s)
  | 0x2b :: s => (false, s)
  | s => (false, s)

/-- `atoi(s)`; `overflow` is what it makes of a number that is no `int`. -/
def atoi (overflow : CString → Int) (s : CString) : Int :=
  let signed := sign (s.dropWhile isSpace)
  let n : Int := number (signed.2.takeWhile isDigit)
  let value := if signed.1 then -n else n
  if -2 ^ 31 ≤ value ∧ value < 2 ^ 31 then value else overflow s

end Dockerset.Clib
