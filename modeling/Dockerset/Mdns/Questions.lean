import Dockerset.Go.Window
import Dockerset.Mdns.Intent

/-!
# Questions, written and read back (`encodeName`, `parseQuestions`)

`encodeName` has a limit on the bytes it writes, `parseName` one on the dotted
text it has read. What is written derives the labels of the name by the rules of
`Derives`, with no pointer, and the limit of the writer is the stricter one; so
a packet of encoded questions is read back, question by question.
-/

namespace Dockerset.Mdns
open Go

/-! ## Writing a name -/

inductive EncodeError where
  | invalidLabelLength (p : Bytes)
  | tooLong
deriving DecidableEq

/-- The loop of `encodeName`. -/
def encodeLabels (out : Bytes) : List Bytes → Except EncodeError Bytes
  | [] => .ok out
  | p :: parts =>
    if p.length = 0 ∨ p.length > 63 then .error (.invalidLabelLength p)
    else encodeLabels (out ++ [UInt8.ofNat p.length] ++ p) parts

/-- `encodeName(name)`. -/
def encodeName (name : Bytes) : Except EncodeError Bytes := do
  let parts := name.splitOn 0x2e
  let out ← encodeLabels [] parts
  let out := out ++ [0]
  if out.length > maxNameLength + 1 then .error .tooLong
  else return out

/-- Labels, each after its length. -/
def wireLabels (labels : List Bytes) : Bytes :=
  labels.flatMap fun p => UInt8.ofNat p.length :: p

theorem wireLabels_cons (p : Bytes) (labels : List Bytes) :
    wireLabels (p :: labels) = UInt8.ofNat p.length :: p ++ wireLabels labels := rfl

theorem encodeLabels_ok {out out' : Bytes} {parts : List Bytes} (h : encodeLabels out parts = .ok out') :
    (∀ p ∈ parts, 1 ≤ p.length ∧ p.length ≤ 63) ∧ out' = out ++ wireLabels parts := by
  induction parts generalizing out with
  | nil =>
    cases h
    exact ⟨by simp, (List.append_nil _).symm⟩
  | cons p parts ih =>
    unfold encodeLabels at h
    split at h
    · cases h
    · next hlen =>
      obtain ⟨hparts, rfl⟩ := ih h
      constructor
      · intro r hr
        rcases List.mem_cons.1 hr with rfl | hr
        · omega
        · exact hparts r hr
      · rw [wireLabels_cons]
        simp only [List.append_assoc, List.cons_append, List.nil_append]

theorem length_wireLabels (labels : List Bytes) (h : labels ≠ []) :
    (wireLabels labels).length = (joinDots labels).length + 1 := by
  induction labels with
  | nil => exact absurd rfl h
  | cons p labels ih =>
    cases labels with
    | nil => simp [wireLabels, joinDots]
    | cons q labels =>
      have hrest := ih (by simp)
      rw [wireLabels_cons, joinDots_cons, List.length_append, List.length_append, hrest]
      simp only [List.length_cons]
      omega

theorem encodeName_ok {name wire : Bytes} (h : encodeName name = .ok wire) :
    (∀ p ∈ name.splitOn 0x2e, 1 ≤ p.length ∧ p.length ≤ 63) ∧
    wire = wireLabels (name.splitOn 0x2e) ++ [0] ∧ wire.length = name.length + 2 ∧
    name.length ≤ 254 := by
  unfold encodeName at h
  dsimp only at h
  cases hout : encodeLabels [] (name.splitOn 0x2e) with
  | error e =>
    rw [hout] at h
    cases h
  | ok out =>
    rw [hout] at h
    change (if _ then _ else _) = _ at h
    obtain ⟨hparts, rfl⟩ := encodeLabels_ok hout
    split at h
    · cases h
    · next hlen =>
      cases h
      have hjoin : joinDots (name.splitOn 0x2e) = name := List.intercalate_splitOn _
      have hwire := length_wireLabels _ (List.splitOn_ne_nil 0x2e name)
      have hbytes : (wireLabels (name.splitOn 0x2e) ++ [0]).length = name.length + 2 := by
        rw [List.length_append, hwire, hjoin]
        rfl
      rw [List.nil_append, hbytes, maxNameLength] at hlen
      exact ⟨hparts, rfl, hbytes, by omega⟩

/-! ## Reading it -/

section

variable {lower : Char → Char} {packet name wire : Bytes} {off : Nat}

theorem derives_wireLabels {labels : List Bytes} (hlabels : ∀ p ∈ labels, 1 ≤ p.length ∧ p.length ≤ 63)
    (h : Window packet off (wireLabels labels ++ [0])) :
    Derives packet off labels (off + (wireLabels labels).length + 1) 0 := by
  induction labels generalizing off with
  | nil => exact .root h.getElem?
  | cons p labels ih =>
    obtain ⟨hp, hrest⟩ := List.forall_mem_cons.1 hlabels
    have hlen : (UInt8.ofNat p.length).toNat = p.length := by
      rw [UInt8.toNat_ofNat', Nat.mod_eq_of_lt (by omega)]
    rw [wireLabels_cons, List.append_assoc] at h
    have hname := ih hrest h.right
    rw [List.length_cons] at hname
    have hlabel : Window packet (off + 1) p := h.tail.left
    have hle := hlabel.le
    -- the label's bytes are those after its length
    have htext : p = (packet.drop (off + 1)).take (UInt8.ofNat p.length).toNat := by
      rw [hlen, hlabel.drop_take]
    have hnext : off + (p.length + 1) = off + 1 + (UInt8.ofNat p.length).toNat := by omega
    have hend : off + (wireLabels (p :: labels)).length + 1 =
        off + (p.length + 1) + (wireLabels labels).length + 1 := by
      rw [wireLabels_cons, List.length_append, List.length_cons]
      omega
    rw [hend]
    rw [hnext] at hname ⊢
    have hd := Derives.label h.getElem? (by omega) (by omega) hname
    rw [← htext] at hd
    exact hd

theorem yields_parseName_encoded (h : encodeName name = .ok wire) (hat : Window packet off wire) :
    Yields (parseName lower packet off) (toLower lower name, off + wire.length) := by
  obtain ⟨hparts, rfl, -, hlen⟩ := encodeName_ok h
  have hjoin : joinDots (name.splitOn 0x2e) = name := List.intercalate_splitOn _
  have hd := derives_wireLabels hparts hat
  apply yields_parseName.2
  refine ⟨name.splitOn 0x2e, 0, Nat.zero_le _, ?_, ?_, ?_⟩
  · rw [List.length_append]
    exact hd
  · rw [hjoin, maxNameLength]
    omega
  · rw [hjoin]

end

/-! ## Questions -/

/-- A question with a name that can be written, and how it is. -/
structure Question where
  name : Bytes
  wire : Bytes
  encoded : encodeName name = .ok wire
  qtype : UInt16
  qclass : UInt16

def Question.bytes (q : Question) : Bytes := q.wire ++ putUint16 q.qtype ++ putUint16 q.qclass

/-- The question as `parseQuestions` returns it. -/
def Question.read (lower : Char → Char) (q : Question) : DnsQuestion :=
  ⟨toLower lower q.name, q.qtype.toNat, q.qclass.toNat⟩

section

variable {lower : Char → Char} {packet : Bytes}

theorem yields_questionLoop (lower : Char → Char) (questions : List Question) (off : Nat)
    (before : List DnsQuestion)
    (h : Window packet off (questions.flatMap Question.bytes)) :
    Yields (questionLoop lower packet questions.length off before)
      (before ++ questions.map (Question.read lower)) := by
  induction questions generalizing off before with
  | nil =>
    rw [List.map_nil, List.append_nil]
    exact yields_pure.2 rfl
  | cons q questions ih =>
    rw [List.flatMap_cons, Question.bytes] at h
    have hname : Yields (parseName lower packet off) (toLower lower q.name, off + q.wire.length) :=
      yields_parseName_encoded q.encoded h.left.left.left
    have htype := h.left.left.right
    have hclass := h.left.right
    rw [List.length_append, length_putUint16, ← Nat.add_assoc] at hclass
    have hrest := h.right
    simp only [List.length_append, length_putUint16, ← Nat.add_assoc] at hrest
    have hend := hclass.le
    rw [length_putUint16] at hend
    rw [List.length_cons, List.map_cons, List.append_cons]
    apply yields_bind.2
    refine ⟨_, hname, yields_ite.2 (.inr ⟨by omega, ?_⟩)⟩
    apply yields_bind.2
    refine ⟨_, yields_lift.2 (Window.uint16 (w := []) htype), yields_bind.2 ?_⟩
    refine ⟨_, yields_lift.2 (Window.uint16 (w := []) hclass), ?_⟩
    exact ih _ _ hrest

theorem yields_readHeader {flags qdCount : Nat} (hlen : 12 ≤ packet.length)
    (hflags : uint16Of packet 2 4 = .ok flags) (hcount : uint16Of packet 4 6 = .ok qdCount) :
    ∃ id anCount nsCount arCount,
      Yields (readHeader packet) ⟨id, flags, qdCount, anCount, nsCount, arCount⟩ := by
  obtain ⟨id, hid⟩ : Returns (uint16Of packet 0 2) := returns_uint16 (by omega)
  obtain ⟨an, han⟩ : Returns (uint16Of packet 6 8) := returns_uint16 (by omega)
  obtain ⟨ns, hns⟩ : Returns (uint16Of packet 8 10) := returns_uint16 (by omega)
  obtain ⟨ar, har⟩ : Returns (uint16Of packet 10 12) := returns_uint16 (by omega)
  refine ⟨id, an, ns, ar, ?_⟩
  rw [readHeader, if_neg (by omega), hid, hflags, hcount, han, hns, har]
  rfl

theorem uint16Of_append {header rest : Bytes} {i n : Nat} (hi : i + 2 ≤ header.length)
    (h : uint16Of header i (i + 2) = .ok n) : uint16Of (header ++ rest) i (i + 2) = .ok n := by
  have hlong : i + 2 ≤ (header ++ rest).length := by
    rw [List.length_append]
    omega
  rw [uint16Of, uint16_of_le hi] at h
  rw [uint16Of, uint16_of_le hlong, ← h, List.getElem_append_left (by omega),
    List.getElem_append_left (by omega)]

/-- **Reading questions undoes writing them**, whatever comes after them; and a
query with these questions asks for the addresses of the names that are, in
lower case, the given one. -/
theorem parseQuestions_encoded (lower : Char → Char) (header trailing : Bytes)
    (questions : List Question) (hlen : header.length = 12)
    (hcount : uint16Of header 4 6 = .ok questions.length) :
    Yields (parseQuestions lower (header ++ questions.flatMap Question.bytes ++ trailing)
      questions.length) (questions.map (Question.read lower)) ∧
    ∀ flags hostnameFQDN, uint16Of header 2 4 = .ok flags → flags &&& 0x8000 = 0 →
      ∃ hdr intent,
        Yields (parseIntent lower (header ++ questions.flatMap Question.bytes ++ trailing)
          hostnameFQDN) (hdr, intent) ∧
        (intent.wantA = true ↔ ∃ q ∈ questions, toLower lower q.name = hostnameFQDN ∧
          (q.qtype = 1 ∨ q.qtype = 255)) ∧
        (intent.wantAAAA = true ↔ ∃ q ∈ questions, toLower lower q.name = hostnameFQDN ∧
          (q.qtype = 28 ∨ q.qtype = 255)) := by
  have hat : Window (header ++ questions.flatMap Question.bytes ++ trailing) 12
      (questions.flatMap Question.bytes) := ⟨header, trailing, rfl, hlen⟩
  have hloop := yields_questionLoop lower questions 12 [] hat
  rw [List.nil_append] at hloop
  refine ⟨hloop, ?_⟩
  intro flags hostnameFQDN hflags hquery
  rw [List.append_assoc] at hloop ⊢
  generalize questions.flatMap Question.bytes ++ trailing = rest at hloop ⊢
  have hlong : 12 ≤ (header ++ rest).length := by
    rw [List.length_append]
    omega
  obtain ⟨id, an, ns, ar, hhdr⟩ := yields_readHeader hlong
    (uint16Of_append (i := 2) (by omega) hflags) (uint16Of_append (i := 4) (by omega) hcount)
  refine ⟨_, _, yields_bind.2 ⟨_, hhdr, yields_ite.2 (.inr ⟨not_not.2 hquery, yields_bind.2
    ⟨_, hloop, yields_pure.2 rfl⟩⟩)⟩, ?_⟩
  obtain ⟨hA, hAAAA⟩ := foldl_noteQuestion hostnameFQDN (questions.map (Question.read lower))
    ⟨false, false⟩
  rw [hA, hAAAA]
  exact ⟨by simp [Question.read, ← UInt16.toNat_inj], by simp [Question.read, ← UInt16.toNat_inj]⟩

end

/-- The question of `buildQuery("Host.local", 1)`, and its header. -/
def hostQuestion : Question where
  name := ascii "Host.local"
  wire := 4 :: ascii "Host" ++ 5 :: ascii "local" ++ [0]
  encoded := by decide +kernel
  qtype := 1
  qclass := 1

def hostHeader : Bytes := [0x12, 0x34, 0, 0, 0, 1, 0, 0, 0, 0, 0, 0]

theorem parseQuestions_encoded_host :
    uint16Of hostHeader 4 6 = .ok 1 ∧ uint16Of hostHeader 2 4 = .ok 0 ∧
    Yields (parseQuestions id (hostHeader ++ [hostQuestion].flatMap Question.bytes ++ []) 1)
      [hostQuestion.read id] ∧
    ∃ hdr intent, Yields (parseIntent id (hostHeader ++ [hostQuestion].flatMap Question.bytes ++ [])
      (ascii "host.local")) (hdr, intent) ∧ intent.wantA = true ∧ ¬ intent.wantAAAA = true := by
  have hcount : uint16Of hostHeader 4 6 = .ok 1 := by decide +kernel
  have hflags : uint16Of hostHeader 2 4 = .ok 0 := by decide +kernel
  obtain ⟨hread, hintent⟩ := parseQuestions_encoded id hostHeader [] [hostQuestion] rfl hcount
  obtain ⟨hdr, intent, hparse, hA, hAAAA⟩ := hintent 0 (ascii "host.local") hflags rfl
  refine ⟨hcount, hflags, hread, hdr, intent, hparse, hA.2 ?_, fun hyes => ?_⟩
  · exact ⟨hostQuestion, List.mem_singleton_self _, by decide +kernel, .inl rfl⟩
  · obtain ⟨q, hq, -, htype⟩ := hAAAA.1 hyes
    rw [List.mem_singleton] at hq
    subst hq
    revert htype
    decide

end Dockerset.Mdns
