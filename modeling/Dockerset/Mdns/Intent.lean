import Dockerset.Go.Lowercase
import Dockerset.Mdns.Names

/-!
# Whose name a query asks for

`parseIntent` joins the labels of a question with dots, lower-cases the text and
compares it with `host.local`. Different names can have the same text: a label
may contain dots, and `strings.ToLower` maps two letters outside ASCII to `i`
and `k`. The texts that match are those of the name itself and of its
`Lookalike`s.
-/

namespace Dockerset.Mdns
open Go

/-! ## Host names -/

inductive HostnameError where
  | empty
  | tooLong (length : Nat)
  | invalidChar (r : Char)
deriving DecidableEq

/-- A letter, a digit or a hyphen. -/
def hostnameChar (r : Char) : Bool :=
  decide ('a' ≤ r ∧ r ≤ 'z' ∨ '0' ≤ r ∧ r ≤ '9') || r == '-'

/-- `normalizeHostname(v)`. -/
def normalizeHostname (lower : Char → Char) (v : Bytes) : Except HostnameError Bytes :=
  let name := trimSpaceBytes (toLower lower v)
  if name.length = 0 then .error .empty
  else if name.length > 63 then .error (.tooLong name.length)
  else
    match (runes name).find? fun r => !hostnameChar r with
    | some r => .error (.invalidChar r)
    | none => .ok name

/-- The name of the host, with the domain of mDNS. -/
def fqdn (h : Bytes) : Bytes := h ++ ascii ".local"

/-- The bytes of a host name. -/
structure HostByte (b : UInt8) : Prop where
  ascii : b < 0x80
  lower : lowerByte b = b
  noDot : b ≠ 0x2e

theorem hostByte_of_char {b : UInt8} (hb : b < 0x80) (h : hostnameChar (Char.ofNat b.toNat) = true) :
    HostByte b := by
  have hall : ∀ n : Fin 128, hostnameChar (Char.ofNat n.val) = true →
      lowerByte (UInt8.ofNat n.val) = UInt8.ofNat n.val ∧ UInt8.ofNat n.val ≠ 0x2e := by
    decide +kernel
  obtain ⟨hlower, hdot⟩ := hall ⟨b.toNat, UInt8.lt_iff_toNat_lt.1 hb⟩ h
  rw [UInt8.ofNat_toNat] at hlower hdot
  exact ⟨hb, hlower, hdot⟩

section

variable {lower : Char → Char} {v h : Bytes}

theorem hostByte_of_normalize (hh : normalizeHostname lower v = .ok h) : ∀ b ∈ h, HostByte b := by
  unfold normalizeHostname at hh
  dsimp only at hh
  split_ifs at hh
  split at hh
  · cases hh
  · next hnone =>
    cases hh
    generalize trimSpaceBytes (toLower lower v) = name at hnone
    have hchars : ∀ c ∈ runes name, hostnameChar c = true := by
      simpa using hnone
    have hlow : ∀ c : Char, hostnameChar c = true → c.toNat < 0x80 := by
      intro c hc
      simp only [hostnameChar, Bool.or_eq_true, decide_eq_true_eq, beq_iff_eq] at hc
      rcases hc with (hc | hc) | rfl
      · exact Nat.lt_of_le_of_lt hc.2 (by decide)
      · exact Nat.lt_of_le_of_lt hc.2 (by decide)
      · decide
    have hascii := ascii_of_runes fun c hc => hlow c (hchars c hc)
    intro b hb
    apply hostByte_of_char (hascii b hb)
    apply hchars
    rw [runes_ascii hascii]
    exact List.mem_map_of_mem hb

/-! ## Names and their texts -/

/-- The labels are those of the host's name, up to the case of English letters. -/
def OwnName (h : Bytes) (labels : List Bytes) : Prop :=
  ∃ a b, labels = [a, b] ∧ a.map lowerByte = h.map lowerByte ∧
    b.map lowerByte = (ascii "local").map lowerByte

/-- Another name with the same text in lower case: one label with the dot in it,
or two of which one has letters outside ASCII. -/
def Lookalike (lower : Char → Char) (h : Bytes) (labels : List Bytes) : Prop :=
  (∃ l, labels = [l] ∧ toLower lower l = fqdn h) ∨
  ∃ a b, labels = [a, b] ∧ toLower lower a = h ∧ toLower lower b = ascii "local" ∧ ¬ OwnName h labels

theorem joinDots_cons (a b : Bytes) (labels : List Bytes) :
    joinDots (a :: b :: labels) = a ++ 0x2e :: joinDots (b :: labels) := by
  simp [joinDots, List.intercalate]

theorem toLower_joinDots (a b : Bytes) (labels : List Bytes) :
    toLower lower (joinDots (a :: b :: labels)) =
      toLower lower a ++ 0x2e :: toLower lower (joinDots (b :: labels)) := by
  rw [joinDots_cons, toLower_append lower (by decide)]
  rfl

theorem toLower_of_map {a t : Bytes} (ht : ∀ b ∈ t, b < 0x80 ∧ lowerByte b = b)
    (h : a.map lowerByte = t.map lowerByte) : toLower lower a = t := by
  have hself : t.map lowerByte = t := by
    rw [List.map_congr_left fun b hb => (ht b hb).2]
    exact List.map_id' t
  rw [hself] at h
  have hascii : ∀ b ∈ a, b < 0x80 := by
    intro b hb
    apply lowerByte_lt.1
    have hmem : lowerByte b ∈ t := by
      rw [← h]
      exact List.mem_map_of_mem hb
    exact (ht _ hmem).1
  rw [toLower_ascii lower hascii, h]

/-- **The texts that match** are those of the name itself and of lookalikes. -/
theorem text_eq_fqdn_iff (hh : ∀ b ∈ h, HostByte b) (labels : List Bytes) :
    toLower lower (joinDots labels) = fqdn h ↔ OwnName h labels ∨ Lookalike lower h labels := by
  have hdot : (0x2e : UInt8) ∉ h := fun hmem => (hh _ hmem).noDot rfl
  have hlocal : (0x2e : UInt8) ∉ ascii "local" := by decide +kernel
  constructor
  · intro htext
    rcases labels with _ | ⟨a, _ | ⟨b, labels⟩⟩
    · simp [joinDots, List.intercalate, toLower, fqdn, ascii] at htext
    · refine .inr (.inl ⟨a, rfl, ?_⟩)
      simpa [joinDots, List.intercalate] using htext
    · rw [toLower_joinDots] at htext
      obtain ⟨ha, -, hb⟩ := (List.append_cons_inj_of_notMem hdot hlocal).1 htext.symm
      rcases labels with _ | ⟨c, labels⟩
      · have hb' : toLower lower b = ascii "local" := by
          simpa [joinDots, List.intercalate] using hb.symm
        by_cases hown : OwnName h [a, b]
        · exact .inl hown
        · exact .inr (.inr ⟨a, b, rfl, ha.symm, hb', hown⟩)
      · -- a third label would bring a second dot
        rw [toLower_joinDots] at hb
        rw [hb] at hlocal
        simp at hlocal
  · rintro (⟨a, b, rfl, ha, hb⟩ | ⟨l, rfl, hl⟩ | ⟨a, b, rfl, ha, hb, -⟩)
    · have ha' : toLower lower a = h := toLower_of_map (fun x hx => ⟨(hh x hx).ascii, (hh x hx).lower⟩) ha
      have hb' : toLower lower b = ascii "local" := toLower_of_map (by decide +kernel) hb
      rw [toLower_joinDots, ha']
      simp [joinDots, List.intercalate, hb', fqdn, ascii]
    · simpa [joinDots, List.intercalate] using hl
    · rw [toLower_joinDots, ha]
      simp [joinDots, List.intercalate, hb, fqdn, ascii]

/-! ## The questions of a packet -/

structure WireQuestion where
  labels : List Bytes
  qtype : Nat
  qclass : Nat

/-- The questions that stand in the packet from an offset on. -/
inductive Asked (packet : Bytes) : Nat → Nat → List WireQuestion → Prop
  | nil {off : Nat} : Asked packet 0 off []
  | cons {count off next jumps qtype qclass : Nat} {labels : List Bytes} {rest : List WireQuestion}
      (hname : Derives packet off labels next jumps)
      (htype : uint16Of packet next (next + 2) = .ok qtype)
      (hclass : uint16Of packet (next + 2) (next + 4) = .ok qclass)
      (hrest : Asked packet count (next + 4) rest) :
      Asked packet (count + 1) off (⟨labels, qtype, qclass⟩ :: rest)

/-- The packet is a query: its QR bit is 0. -/
def IsQuery (packet : Bytes) : Prop := ∃ flags, uint16Of packet 2 4 = .ok flags ∧ flags &&& 0x8000 = 0

/-- The packet asks a question of one of the types, for a name with `P`. -/
def Asks (packet : Bytes) (types : List Nat) (P : List Bytes → Prop) : Prop :=
  ∃ count questions, uint16Of packet 4 6 = .ok count ∧ Asked packet count 12 questions ∧
    ∃ q ∈ questions, q.qtype ∈ types ∧ P q.labels

variable {packet : Bytes} {count off : Nat} {questions questions' : List WireQuestion}

theorem Asked.unique (h : Asked packet count off questions) :
    ∀ {questions' : List WireQuestion}, Asked packet count off questions' → questions' = questions := by
  induction h with
  | nil =>
    intro questions' h'
    cases h'
    rfl
  | cons hname htype hclass _ ih =>
    intro questions' h'
    cases h' with
    | cons hname' htype' hclass' hrest' =>
      obtain ⟨rfl, rfl, -⟩ := hname.unique hname'
      rw [htype] at htype'
      rw [hclass] at hclass'
      cases htype'
      cases hclass'
      rw [ih hrest']

/-- The question as `parseQuestions` returns it. -/
def WireQuestion.read (lower : Char → Char) (q : WireQuestion) : DnsQuestion :=
  ⟨toLower lower (joinDots q.labels), q.qtype, q.qclass⟩

theorem asked_of_questionLoop (count off : Nat) (before : List DnsQuestion) {after : List DnsQuestion}
    (h : Yields (questionLoop lower packet count off before) after) :
    ∃ questions, Asked packet count off questions ∧
      after = before ++ questions.map (WireQuestion.read lower) := by
  induction count generalizing off before with
  | zero =>
    cases yields_pure.1 h
    exact ⟨[], .nil, (List.append_nil _).symm⟩
  | succ count ih =>
    obtain ⟨⟨name, next⟩, hname, h⟩ := yields_bind.1 h
    obtain ⟨labels, jumps, -, hd, -, rfl⟩ := yields_parseName.1 hname
    rcases yields_ite.1 h with ⟨-, hfail⟩ | ⟨-, h⟩
    · exact absurd hfail not_yields_fail
    obtain ⟨qtype, htype, h⟩ := yields_bind.1 h
    obtain ⟨qclass, hclass, h⟩ := yields_bind.1 h
    rw [yields_lift] at htype hclass
    obtain ⟨questions, hasked, rfl⟩ := ih _ _ h
    refine ⟨⟨labels, qtype, qclass⟩ :: questions, .cons hd htype hclass hasked, ?_⟩
    rw [List.append_assoc]
    rfl

theorem header_of_readHeader {hdr : DnsHeader} (h : Yields (readHeader packet) hdr) :
    uint16Of packet 2 4 = .ok hdr.flags ∧ uint16Of packet 4 6 = .ok hdr.qdCount := by
  rcases yields_ite.1 h with ⟨-, hfail⟩ | ⟨-, h⟩
  · exact absurd hfail not_yields_fail
  obtain ⟨id, -, h⟩ := yields_bind.1 h
  obtain ⟨flags, hflags, h⟩ := yields_bind.1 h
  obtain ⟨qdCount, hqd, h⟩ := yields_bind.1 h
  obtain ⟨anCount, -, h⟩ := yields_bind.1 h
  obtain ⟨nsCount, -, h⟩ := yields_bind.1 h
  obtain ⟨arCount, -, h⟩ := yields_bind.1 h
  cases yields_pure.1 h
  exact ⟨yields_lift.1 hflags, yields_lift.1 hqd⟩

theorem foldl_noteQuestion (name : Bytes) (questions : List DnsQuestion) (intent : QueryIntent) :
    ((questions.foldl (noteQuestion name) intent).wantA = true ↔
      intent.wantA = true ∨ ∃ q ∈ questions, q.name = name ∧ q.qtype ∈ [1, 255]) ∧
    ((questions.foldl (noteQuestion name) intent).wantAAAA = true ↔
      intent.wantAAAA = true ∨ ∃ q ∈ questions, q.name = name ∧ q.qtype ∈ [28, 255]) := by
  induction questions generalizing intent with
  | nil => simp
  | cons q questions ih =>
    have hone : ((noteQuestion name intent q).wantA = true ↔
          intent.wantA = true ∨ (q.name = name ∧ q.qtype ∈ [1, 255])) ∧
        ((noteQuestion name intent q).wantAAAA = true ↔
          intent.wantAAAA = true ∨ (q.name = name ∧ q.qtype ∈ [28, 255])) := by
      unfold noteQuestion
      split_ifs <;> simp_all
    obtain ⟨hA, hAAAA⟩ := ih (noteQuestion name intent q)
    constructor
    · rw [List.foldl_cons, hA, hone.1, List.exists_mem_cons_iff, or_assoc]
    · rw [List.foldl_cons, hAAAA, hone.2, List.exists_mem_cons_iff, or_assoc]

theorem intent_of_parse {name : Bytes} {hdr : DnsHeader} {intent : QueryIntent}
    (h : Yields (parseIntent lower packet name) (hdr, intent)) :
    (intent.wantA = true ↔ IsQuery packet ∧
      Asks packet [1, 255] fun labels => toLower lower (joinDots labels) = name) ∧
    (intent.wantAAAA = true ↔ IsQuery packet ∧
      Asks packet [28, 255] fun labels => toLower lower (joinDots labels) = name) := by
  obtain ⟨hdr', hhdr, h⟩ := yields_bind.1 h
  obtain ⟨hflags, hcount⟩ := header_of_readHeader hhdr
  have hquery : IsQuery packet ↔ hdr'.flags &&& 0x8000 = 0 := by
    constructor
    · rintro ⟨flags, hflags', hzero⟩
      rw [hflags] at hflags'
      cases hflags'
      exact hzero
    · intro hzero
      exact ⟨_, hflags, hzero⟩
  rcases yields_ite.1 h with ⟨hresponse, h⟩ | ⟨hzero, h⟩
  · cases yields_pure.1 h
    have hno : ¬ IsQuery packet := fun hq => hresponse (hquery.1 hq)
    simp [hno]
  · obtain ⟨after, hloop, h⟩ := yields_bind.1 h
    cases yields_pure.1 h
    obtain ⟨questions, hasked, rfl⟩ := asked_of_questionLoop _ _ _ hloop
    have hyes : IsQuery packet := hquery.2 (not_not.1 hzero)
    have hasks : ∀ types : List Nat,
        (∃ q ∈ questions.map (WireQuestion.read lower), q.name = name ∧ q.qtype ∈ types) ↔
          Asks packet types fun labels => toLower lower (joinDots labels) = name := by
      intro types
      constructor
      · rintro ⟨read, hmem, hname, htype⟩
        obtain ⟨q, hq, rfl⟩ := List.mem_map.1 hmem
        exact ⟨_, questions, hcount, hasked, q, hq, htype, hname⟩
      · rintro ⟨count, questions', hcount', hasked', q, hq, htype, hname⟩
        rw [hcount] at hcount'
        cases hcount'
        rw [hasked.unique hasked'] at hq
        exact ⟨q.read lower, List.mem_map_of_mem hq, hname, htype⟩
    obtain ⟨hA, hAAAA⟩ := foldl_noteQuestion name (questions.map (WireQuestion.read lower)) ⟨false, false⟩
    rw [List.nil_append, hA, hAAAA, hasks, hasks]
    simp [hyes]

theorem asks_or {types : List Nat} {P Q : List Bytes → Prop} :
    Asks packet types (fun labels => P labels ∨ Q labels) ↔ Asks packet types P ∨ Asks packet types Q := by
  constructor
  · rintro ⟨count, questions, hcount, hasked, q, hq, htype, hP | hQ⟩
    · exact .inl ⟨count, questions, hcount, hasked, q, hq, htype, hP⟩
    · exact .inr ⟨count, questions, hcount, hasked, q, hq, htype, hQ⟩
  · rintro (⟨count, questions, hcount, hasked, q, hq, htype, hP⟩ |
      ⟨count, questions, hcount, hasked, q, hq, htype, hQ⟩)
    · exact ⟨count, questions, hcount, hasked, q, hq, htype, .inl hP⟩
    · exact ⟨count, questions, hcount, hasked, q, hq, htype, .inr hQ⟩

/-- **When the responder answers for its own name only**: every query for a
lookalike also asks for the name itself, by a question of the same kind. -/
theorem intent_own_name_iff (hh : normalizeHostname lower v = .ok h) {hdr : DnsHeader}
    {intent : QueryIntent} (hparse : Yields (parseIntent lower packet (fqdn h)) (hdr, intent)) :
    ((intent.wantA = true ↔ IsQuery packet ∧ Asks packet [1, 255] (OwnName h)) ∧
      (intent.wantAAAA = true ↔ IsQuery packet ∧ Asks packet [28, 255] (OwnName h))) ↔
    (IsQuery packet → ∀ types ∈ [[1, 255], [28, 255]],
      Asks packet types (Lookalike lower h) → Asks packet types (OwnName h)) := by
  have htext : (fun labels => toLower lower (joinDots labels) = fqdn h) =
      fun labels => OwnName h labels ∨ Lookalike lower h labels := by
    funext labels
    exact propext (text_eq_fqdn_iff (hostByte_of_normalize hh) labels)
  have hone : ∀ {query own like : Prop}, (query ∧ (own ∨ like) ↔ query ∧ own) ↔
      (query → like → own) := by
    intro query own like
    tauto
  obtain ⟨hA, hAAAA⟩ := intent_of_parse hparse
  rw [hA, hAAAA, htext, asks_or, asks_or, hone, hone, ← imp_and]
  simp only [List.forall_mem_cons, List.not_mem_nil, false_imp_iff, implies_true, and_true]

end

/-- A query for the addresses of `Host.local`. -/
def plainQuery : Bytes := queryOf (4 :: ascii "Host" ++ 5 :: ascii "local" ++ [0, 0, 1, 0, 1])

/-- The same with one label, which has the dot in it. -/
def dottedQuery : Bytes := queryOf (10 :: ascii "host.local" ++ [0, 0, 1, 0, 1])

theorem asked_plainQuery : Asked plainQuery 1 12 [⟨[ascii "Host", ascii "local"], 1, 1⟩] := by
  have hread : Yields (labelsWithin plainQuery 11 12) ([ascii "Host", ascii "local"], 24) := by
    decide +kernel
  obtain ⟨jumps, -, hname⟩ := (yields_labelsWithin 11 12).1 hread
  exact .cons hname (by decide +kernel) (by decide +kernel) .nil

theorem asked_dottedQuery : Asked dottedQuery 1 12 [⟨[ascii "host.local"], 1, 1⟩] := by
  have hread : Yields (labelsWithin dottedQuery 11 12) ([ascii "host.local"], 24) := by
    decide +kernel
  obtain ⟨jumps, -, hname⟩ := (yields_labelsWithin 11 12).1 hread
  exact .cons hname (by decide +kernel) (by decide +kernel) .nil

theorem intent_own_name_plain :
    normalizeHostname id (ascii " HOST\n") = .ok (ascii "host") ∧
    Yields (parseIntent id plainQuery (fqdn (ascii "host"))) (⟨0, 0, 1, 0, 0, 0⟩, ⟨true, false⟩) ∧
    IsQuery plainQuery ∧ Asks plainQuery [1, 255] (OwnName (ascii "host")) := by
  have hh : normalizeHostname id (ascii " HOST\n") = .ok (ascii "host") := by decide +kernel
  have hparse : Yields (parseIntent id plainQuery (fqdn (ascii "host")))
      (⟨0, 0, 1, 0, 0, 0⟩, ⟨true, false⟩) := by
    decide +kernel
  have hown : OwnName (ascii "host") [ascii "Host", ascii "local"] :=
    ⟨_, _, rfl, by decide +kernel, by decide +kernel⟩
  have hcond : IsQuery plainQuery → ∀ types ∈ [[1, 255], [28, 255]],
      Asks plainQuery types (Lookalike id (ascii "host")) →
        Asks plainQuery types (OwnName (ascii "host")) := by
    rintro - types - ⟨count, questions, hcount, hasked, q, hq, htype, -⟩
    have hone : uint16Of plainQuery 4 6 = .ok 1 := by decide +kernel
    rw [hone] at hcount
    cases hcount
    rw [asked_plainQuery.unique hasked, List.mem_singleton] at hq
    subst hq
    exact ⟨1, _, hone, asked_plainQuery, _, List.mem_singleton_self _, htype, hown⟩
  exact ⟨hh, hparse, ((intent_own_name_iff hh hparse).2 hcond).1.1 rfl⟩

/-- One label `host.local` is taken for the two labels. -/
theorem intent_for_dotted_label :
    normalizeHostname id (ascii "host") = .ok (ascii "host") ∧
    Yields (parseIntent id dottedQuery (fqdn (ascii "host"))) (⟨0, 0, 1, 0, 0, 0⟩, ⟨true, false⟩) ∧
    ¬ Asks dottedQuery [1, 255] (OwnName (ascii "host")) := by
  refine ⟨by decide +kernel, by decide +kernel, ?_⟩
  rintro ⟨count, questions, hcount, hasked, q, hq, -, a, b, hlabels, -⟩
  have hone : uint16Of dottedQuery 4 6 = .ok 1 := by decide +kernel
  rw [hone] at hcount
  cases hcount
  rw [asked_dottedQuery.unique hasked, List.mem_singleton] at hq
  subst hq
  simp at hlabels

end Dockerset.Mdns
