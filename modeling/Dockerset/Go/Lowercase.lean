import Dockerset.Go.Utf8

/-!
# Lower case, character by character

`strings.ToLower` has a fast path for ASCII; both paths write the lower case of
the characters one after the other (`toLower_eq`). A byte of ASCII never belongs
to the encoding of another character, so the text before it and the text after
it are mapped on their own.
-/

namespace Dockerset.Go

/-! ## Decoding before a byte of ASCII -/

def within (lo hi x : UInt8) : Bool := decide (lo ≤ x) && decide (x ≤ hi)

theorem within_iff {lo hi x : UInt8} :
    within lo hi x = true ↔ lo.toNat ≤ x.toNat ∧ x.toNat ≤ hi.toNat := by
  simp [within, UInt8.le_iff_toNat_le]

theorem within_ascii {lo hi x : UInt8} (hx : x < 0x80) (hlo : 0x80 ≤ lo) : within lo hi x = false := by
  rw [Bool.eq_false_iff, ne_eq, within_iff]
  rw [UInt8.le_iff_toNat_le] at hlo
  rw [UInt8.lt_iff_toNat_lt] at hx
  omega

/-- The character that starts with `b` in `0xc2 … 0xdf`. -/
def twoBytes (b : UInt8) : Bytes → Char × Nat
  | x :: _ =>
    if within 0x80 0xbf x then (Char.ofNat (b.toNat % 32 * 64 + contBits x), 2) else (runeError, 1)
  | _ => (runeError, 1)

/-- The least value of the second byte, after `b` in `0xe0 … 0xef`. -/
def threeLo (b : UInt8) : UInt8 := if b = 0xe0 then 0xa0 else 0x80

def threeHi (b : UInt8) : UInt8 := if b = 0xed then 0x9f else 0xbf

def threeBytes (b : UInt8) : Bytes → Char × Nat
  | x :: y :: _ =>
    if within (threeLo b) (threeHi b) x && within 0x80 0xbf y then
      (Char.ofNat ((b.toNat % 16 * 64 + contBits x) * 64 + contBits y), 3)
    else (runeError, 1)
  | _ => (runeError, 1)

/-- The same after `b` in `0xf0 … 0xf4`. -/
def fourLo (b : UInt8) : UInt8 := if b = 0xf0 then 0x90 else 0x80

def fourHi (b : UInt8) : UInt8 := if b = 0xf4 then 0x8f else 0xbf

def fourBytes (b : UInt8) : Bytes → Char × Nat
  | x :: y :: z :: _ =>
    if within (fourLo b) (fourHi b) x && within 0x80 0xbf y && within 0x80 0xbf z then
      (Char.ofNat (((b.toNat % 8 * 64 + contBits x) * 64 + contBits y) * 64 + contBits z), 4)
    else (runeError, 1)
  | _ => (runeError, 1)

theorem decodeRune_eq (b : UInt8) (s : Bytes) : decodeRune b s =
    if b < 0x80 then (Char.ofNat b.toNat, 1)
    else if within 0xc2 0xdf b then twoBytes b s
    else if within 0xe0 0xef b then threeBytes b s
    else if within 0xf0 0xf4 b then fourBytes b s
    else (runeError, 1) := rfl

section Append

variable {x : UInt8} (hx : x < 0x80) (b : UInt8) (s rest : Bytes)
include hx

theorem twoBytes_append :
    twoBytes b (s ++ x :: rest) = twoBytes b s ∧ (twoBytes b s).2 ≤ s.length + 1 := by
  rcases s with _ | ⟨y, s⟩
  · simp [twoBytes, within_ascii hx]
  · refine ⟨rfl, ?_⟩
    simp only [twoBytes, List.length_cons]
    split <;> simp

theorem threeBytes_append :
    threeBytes b (s ++ x :: rest) = threeBytes b s ∧ (threeBytes b s).2 ≤ s.length + 1 := by
  have hlo : 0x80 ≤ threeLo b := by
    unfold threeLo
    split <;> decide
  rcases s with _ | ⟨y, _ | ⟨z, s⟩⟩
  · cases rest <;> simp [threeBytes, within_ascii hx hlo]
  · simp [threeBytes, within_ascii hx]
  · refine ⟨rfl, ?_⟩
    simp only [threeBytes, List.length_cons]
    split <;> simp

theorem fourBytes_append :
    fourBytes b (s ++ x :: rest) = fourBytes b s ∧ (fourBytes b s).2 ≤ s.length + 1 := by
  have hlo : 0x80 ≤ fourLo b := by
    unfold fourLo
    split <;> decide
  rcases s with _ | ⟨y, _ | ⟨z, _ | ⟨w, s⟩⟩⟩
  · rcases rest with _ | ⟨_, _ | ⟨_, _⟩⟩ <;> simp [fourBytes, within_ascii hx hlo]
  · cases rest <;> simp [fourBytes, within_ascii hx]
  · simp [fourBytes, within_ascii hx]
  · refine ⟨rfl, ?_⟩
    simp only [fourBytes, List.length_cons]
    split <;> simp

/-- A byte of ASCII ends what comes before it. -/
theorem decodeRune_append :
    decodeRune b (s ++ x :: rest) = decodeRune b s ∧ (decodeRune b s).2 ≤ s.length + 1 := by
  rw [decodeRune_eq, decodeRune_eq]
  split_ifs
  · exact ⟨rfl, by simp⟩
  · exact twoBytes_append hx b s rest
  · exact threeBytes_append hx b s rest
  · exact fourBytes_append hx b s rest
  · exact ⟨rfl, by simp⟩

end Append

theorem runes_cons_ascii {b : UInt8} (h : b < 0x80) (rest : Bytes) :
    runes (b :: rest) = Char.ofNat b.toNat :: runes rest := by
  rw [runes, decodeRune_eq, if_pos h]
  rfl

theorem runes_append {x : UInt8} (hx : x < 0x80) (rest : Bytes) :
    ∀ s : Bytes, runes (s ++ x :: rest) = runes s ++ runes (x :: rest)
  | [] => by simp [runes]
  | b :: s => by
    obtain ⟨heq, hlen⟩ := decodeRune_append hx b s rest
    have hdrop : (s ++ x :: rest).drop ((decodeRune b s).2 - 1) =
        s.drop ((decodeRune b s).2 - 1) ++ x :: rest := List.drop_append_of_le_length (by omega)
    rw [List.cons_append, runes, heq, hdrop, runes_append hx rest, ← List.cons_append]
    congr 1
    rw [runes]
termination_by s => s.length
decreasing_by
  simp only [List.length_drop, List.length_cons]
  omega

theorem runes_ascii {s : Bytes} (h : ∀ b ∈ s, b < 0x80) :
    runes s = s.map fun b => Char.ofNat b.toNat := by
  induction s with
  | nil => simp [runes]
  | cons b s ih =>
    rw [runes_cons_ascii (h b List.mem_cons_self), List.map_cons,
      ih fun c hc => h c (List.mem_cons_of_mem _ hc)]

/-! ## Lower case -/

/-- A character in lower case, encoded. -/
def lowerRune (lower : Char → Char) (c : Char) : Bytes :=
  String.utf8EncodeChar (if c.toNat < 0x80 then asciiLower c else lower c)

theorem lowerRune_ascii (lower : Char → Char) {b : UInt8} (h : b < 0x80) :
    lowerRune lower (Char.ofNat b.toNat) = [lowerByte b] := by
  have hall : ∀ n : Fin 128, (Char.ofNat n.val).toNat < 0x80 ∧
      String.utf8EncodeChar (asciiLower (Char.ofNat n.val)) = [lowerByte (UInt8.ofNat n.val)] := by
    decide +kernel
  rw [UInt8.lt_iff_toNat_lt] at h
  obtain ⟨hlt, henc⟩ := hall ⟨b.toNat, h⟩
  unfold lowerRune
  rw [if_pos hlt, henc, UInt8.ofNat_toNat]

theorem toLower_eq (lower : Char → Char) (s : Bytes) :
    toLower lower s = (runes s).flatMap (lowerRune lower) := by
  unfold toLower
  split
  · next hall =>
    have hascii : ∀ b ∈ s, b < 0x80 := by simpa using hall
    rw [runes_ascii hascii, List.flatMap_map]
    clear hall
    induction s with
    | nil => rfl
    | cons b s ih =>
      rw [List.map_cons, List.flatMap_cons, lowerRune_ascii lower (hascii b List.mem_cons_self),
        ih fun c hc => hascii c (List.mem_cons_of_mem _ hc)]
      rfl
  · rfl

theorem toLower_eq_nil (lower : Char → Char) {s : Bytes} : toLower lower s = [] ↔ s = [] := by
  cases s with
  | nil => simp [toLower]
  | cons b s =>
    rw [toLower_eq, runes, List.flatMap_cons, lowerRune]
    simp [String.utf8EncodeChar_ne_nil]

theorem toLower_ascii (lower : Char → Char) {s : Bytes} (h : ∀ b ∈ s, b < 0x80) :
    toLower lower s = s.map lowerByte := by
  unfold toLower
  rw [if_pos (by simpa using h)]

theorem toLower_append (lower : Char → Char) {x : UInt8} (hx : x < 0x80) (s rest : Bytes) :
    toLower lower (s ++ x :: rest) = toLower lower s ++ lowerByte x :: toLower lower rest := by
  rw [toLower_eq, toLower_eq, toLower_eq, runes_append hx, runes_cons_ascii hx, List.flatMap_append,
    List.flatMap_cons, lowerRune_ascii lower hx]
  rfl

theorem lowerByte_lt {b : UInt8} : lowerByte b < 0x80 ↔ b < 0x80 := by
  have hall : ∀ n : Fin 256, lowerByte (UInt8.ofFin n) < 0x80 ↔ UInt8.ofFin n < 0x80 := by
    decide +kernel
  exact hall b.toFin

/-! ## Text of ASCII characters only -/

theorem toNat_ofNat_of_valid {n : Nat} (h : n.isValidChar) : (Char.ofNat n).toNat = n := by
  rw [Char.ofNat, dif_pos h]
  rfl

theorem contBits_lt (x : UInt8) : contBits x < 64 := Nat.mod_lt _ (by decide)

theorem runeError_high : 0x80 ≤ runeError.toNat := by decide

theorem twoBytes_high {b : UInt8} (hb : within 0xc2 0xdf b = true) (s : Bytes) :
    0x80 ≤ (twoBytes b s).1.toNat := by
  rcases s with _ | ⟨x, s⟩
  · exact runeError_high
  · simp only [twoBytes]
    split
    · have hx := contBits_lt x
      rw [within_iff] at hb
      change 0xc2 ≤ _ ∧ _ ≤ 0xdf at hb
      rw [toNat_ofNat_of_valid (.inl (by omega))]
      omega
    · exact runeError_high

theorem threeRange (b : UInt8) :
    0x80 ≤ (threeLo b).toNat ∧ (threeHi b).toNat ≤ 0xbf ∧
    (b.toNat = 0xe0 → (threeLo b).toNat = 0xa0) ∧ (b.toNat = 0xed → (threeHi b).toNat = 0x9f) := by
  have hall : ∀ n : Fin 256, 0x80 ≤ (threeLo (.ofFin n)).toNat ∧ (threeHi (.ofFin n)).toNat ≤ 0xbf ∧
      (n.val = 0xe0 → (threeLo (.ofFin n)).toNat = 0xa0) ∧
      (n.val = 0xed → (threeHi (.ofFin n)).toNat = 0x9f) := by
    decide +kernel
  exact hall b.toFin

theorem fourRange (b : UInt8) :
    0x80 ≤ (fourLo b).toNat ∧ (fourHi b).toNat ≤ 0xbf ∧
    (b.toNat = 0xf0 → (fourLo b).toNat = 0x90) ∧ (b.toNat = 0xf4 → (fourHi b).toNat = 0x8f) := by
  have hall : ∀ n : Fin 256, 0x80 ≤ (fourLo (.ofFin n)).toNat ∧ (fourHi (.ofFin n)).toNat ≤ 0xbf ∧
      (n.val = 0xf0 → (fourLo (.ofFin n)).toNat = 0x90) ∧
      (n.val = 0xf4 → (fourHi (.ofFin n)).toNat = 0x8f) := by
    decide +kernel
  exact hall b.toFin

theorem threeBytes_high {b : UInt8} (hb : within 0xe0 0xef b = true) (s : Bytes) :
    0x80 ≤ (threeBytes b s).1.toNat := by
  rcases s with _ | ⟨x, _ | ⟨y, s⟩⟩
  · exact runeError_high
  · exact runeError_high
  · simp only [threeBytes, Bool.and_eq_true]
    split
    · next h =>
      have hy := contBits_lt y
      have hx : contBits x = x.toNat % 64 := rfl
      have hx' := within_iff.1 h.1
      have hrange := threeRange b
      rw [within_iff] at hb
      change 0xe0 ≤ _ ∧ _ ≤ 0xef at hb
      -- the bounds on the second byte leave out small values and the surrogates
      have hvalid : Nat.isValidChar ((b.toNat % 16 * 64 + contBits x) * 64 + contBits y) := by
        unfold Nat.isValidChar
        omega
      rw [toNat_ofNat_of_valid hvalid]
      omega
    · exact runeError_high

theorem fourBytes_high {b : UInt8} (hb : within 0xf0 0xf4 b = true) (s : Bytes) :
    0x80 ≤ (fourBytes b s).1.toNat := by
  rcases s with _ | ⟨x, _ | ⟨y, _ | ⟨z, s⟩⟩⟩
  · exact runeError_high
  · exact runeError_high
  · exact runeError_high
  · simp only [fourBytes, Bool.and_eq_true]
    split
    · next h =>
      have hy := contBits_lt y
      have hz := contBits_lt z
      have hx : contBits x = x.toNat % 64 := rfl
      have hx' := within_iff.1 h.1.1
      have hrange := fourRange b
      rw [within_iff] at hb
      change 0xf0 ≤ _ ∧ _ ≤ 0xf4 at hb
      have hvalid : Nat.isValidChar
          (((b.toNat % 8 * 64 + contBits x) * 64 + contBits y) * 64 + contBits z) := by
        unfold Nat.isValidChar
        omega
      rw [toNat_ofNat_of_valid hvalid]
      omega
    · exact runeError_high

theorem decodeRune_high {b : UInt8} (hb : ¬ b < 0x80) (s : Bytes) :
    0x80 ≤ (decodeRune b s).1.toNat := by
  rw [decodeRune_eq, if_neg hb]
  split_ifs with h2 h3 h4
  · exact twoBytes_high h2 s
  · exact threeBytes_high h3 s
  · exact fourBytes_high h4 s
  · exact runeError_high

theorem ascii_of_runes : ∀ {s : Bytes}, (∀ c ∈ runes s, c.toNat < 0x80) → ∀ b ∈ s, b < 0x80 := by
  intro s
  induction s with
  | nil => simp
  | cons b s ih =>
    intro h
    have hb : b < 0x80 := by
      by_contra hb
      have hhigh := decodeRune_high hb s
      have hlow := h (decodeRune b s).1 (by rw [runes]; exact List.mem_cons_self)
      omega
    rw [runes_cons_ascii hb] at h
    intro c hc
    rcases List.mem_cons.1 hc with rfl | hc
    · exact hb
    · exact ih (fun d hd => h d (List.mem_cons_of_mem _ hd)) c hc

end Dockerset.Go
