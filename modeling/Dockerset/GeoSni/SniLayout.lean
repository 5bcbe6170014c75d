import Dockerset.Go.Fallible
import Dockerset.Go.Lowercase
import Dockerset.GeoSni.Sni

/-!
# Where a server name is taken from

The lengths in a hello are nested: the name lies in the server name list, the
list in the extension, the extension in the block of extensions, the block in
the record. `Lays b L` says which offsets and lengths the bytes declare on the
way to the first host name, by what stands in `b` alone; `finds_parseSNI` says
that a name is found there if nothing runs past the record. That a name lies in
its list, or a list in its extension, `parseSNI` does not ask.
-/

namespace Dockerset.GeoSni
open Go

/-- The 16-bit number at offset `i`. -/
abbrev NumAt (b : Bytes) (i n : Nat) : Prop := uint16Of b i (i + 2) = .ok n

/-- The record holds a handshake message of type `client_hello`. -/
structure IsHello (b : Bytes) : Prop where
  handshake : byteAt b 0 = .ok 0x16
  clientHello : byteAt b 5 = .ok 0x01
  fits : ∃ n, NumAt b 3 n ∧ 5 + n ≤ b.length

/-- The extensions begin at `start` and are declared to end at `stop`. -/
def Block (b : Bytes) (start stop : Nat) : Prop :=
  ∃ sessionID cipherSuites compression extensions,
    byteAt b 43 = .ok sessionID ∧
    NumAt b (44 + sessionID.toNat) cipherSuites ∧
    byteAt b (46 + sessionID.toNat + cipherSuites) = .ok compression ∧
    NumAt b (47 + sessionID.toNat + cipherSuites + compression.toNat) extensions ∧
    start = 49 + sessionID.toNat + cipherSuites + compression.toNat ∧
    stop = start + extensions

/-- From the extension at the first offset on, the one at the second offset is the
first of type `server_name`. -/
inductive ExtAt (b : Bytes) (stop : Nat) : Nat → Nat → Prop
  | here {o : Nat} (hin : o + 4 ≤ stop) (htyp : NumAt b o 0) : ExtAt b stop o o
  | skip {o typ l ext : Nat} (hin : o + 4 ≤ stop) (htyp : NumAt b o typ) (hne : typ ≠ 0)
      (hl : NumAt b (o + 2) l) (hrest : ExtAt b stop (o + 4 + l) ext) : ExtAt b stop o ext

/-- The same for the first entry of type `host_name` in a list. -/
inductive EntryAt (b : Bytes) (stop : Nat) : Nat → Nat → Prop
  | here {o : Nat} (hin : o + 3 ≤ stop) (htyp : byteAt b o = .ok 0) : EntryAt b stop o o
  | skip {o l entry : Nat} {typ : UInt8} (hin : o + 3 ≤ stop) (htyp : byteAt b o = .ok typ)
      (hne : typ ≠ 0) (hl : NumAt b (o + 1) l) (hrest : EntryAt b stop (o + 3 + l) entry) :
      EntryAt b stop o entry

/-- Offsets and lengths on the way to the first host name. -/
@[ext] structure Layout where
  blockEnd : Nat
  extOff : Nat
  extLen : Nat
  listLen : Nat
  entryOff : Nat
  nameLen : Nat

namespace Layout

variable (L : Layout)

/-- Where the extension, its list and the name are declared to end. -/
def extEnd : Nat := L.extOff + 4 + L.extLen
def listEnd : Nat := L.extOff + 6 + L.listLen
def nameEnd : Nat := L.entryOff + 3 + L.nameLen

def name (b : Bytes) : Bytes := (b.drop (L.entryOff + 3)).take L.nameLen

/-- Each length keeps to the container around it. -/
structure Nested : Prop where
  name : L.nameEnd ≤ L.listEnd
  list : L.listEnd ≤ L.extEnd
  ext : L.extEnd ≤ L.blockEnd

/-- Something is declared to end after the record. -/
def PastRecord (b : Bytes) : Prop :=
  b.length < L.blockEnd ∨ b.length < L.listEnd ∨ b.length < L.nameEnd

end Layout

/-- The bytes declare this layout. -/
structure Lays (b : Bytes) (L : Layout) : Prop where
  hello : IsHello b
  ext : ∃ start, Block b start L.blockEnd ∧ ExtAt b L.blockEnd start L.extOff
  extLen : NumAt b (L.extOff + 2) L.extLen
  listLen : NumAt b (L.extOff + 4) L.listLen
  entry : EntryAt b L.listEnd (L.extOff + 6) L.entryOff
  nameLen : NumAt b (L.entryOff + 1) L.nameLen

/-! ## A layout is determined by the bytes -/

section

variable {b : Bytes} {i m n : Nat}

theorem NumAt.unique (h : NumAt b i m) (h' : NumAt b i n) : m = n := Except.ok.inj (h.symm.trans h')

theorem numAt_le (h : NumAt b i n) : i + 2 ≤ b.length := by
  by_contra hshort
  have hslice : slice b i (i + 2) = .error .slice := if_neg (fun hle => hshort hle.2)
  rw [NumAt, uint16Of, hslice] at h
  cases h

theorem numAt_of_le (h : i + 2 ≤ b.length) : ∃ n, NumAt b i n := returns_uint16 h

theorem block_iff {start stop : Nat} : Block b start stop ↔
    ∃ sessionID cipherSuites compression extensions,
      byteAt b 43 = .ok sessionID ∧
      NumAt b (43 + (1 + sessionID.toNat)) cipherSuites ∧
      byteAt b (43 + (1 + sessionID.toNat) + (2 + cipherSuites)) = .ok compression ∧
      NumAt b (43 + (1 + sessionID.toNat) + (2 + cipherSuites) + (1 + compression.toNat)) extensions ∧
      start = 43 + (1 + sessionID.toNat) + (2 + cipherSuites) + (1 + compression.toNat) + 2 ∧
      stop = start + extensions := by
  have h44 : ∀ i, 43 + (1 + i) = 44 + i := by omega
  have h46 : ∀ i j, 44 + i + (2 + j) = 46 + i + j := by omega
  have h47 : ∀ i j k, 46 + i + j + (1 + k) = 47 + i + j + k := by omega
  have h49 : ∀ i j k, 47 + i + j + k + 2 = 49 + i + j + k := by omega
  simp only [Block, h44, h46, h47, h49]

theorem Block.unique {start start' stop stop' : Nat} (h : Block b start stop)
    (h' : Block b start' stop') : start' = start ∧ stop' = stop := by
  obtain ⟨sid, cs, comp, exts, hsid, hcs, hcomp, hexts, rfl, rfl⟩ := h
  obtain ⟨sid', cs', comp', exts', hsid', hcs', hcomp', hexts', rfl, rfl⟩ := h'
  cases Except.ok.inj (hsid.symm.trans hsid')
  cases hcs.unique hcs'
  cases Except.ok.inj (hcomp.symm.trans hcomp')
  cases hexts.unique hexts'
  exact ⟨rfl, rfl⟩

theorem ExtAt.unique {stop o ext ext' : Nat} (h : ExtAt b stop o ext) (h' : ExtAt b stop o ext') :
    ext' = ext := by
  induction h with
  | here _ htyp =>
    cases h' with
    | here => rfl
    | skip _ htyp' hne => exact absurd (htyp'.unique htyp) hne
  | skip _ htyp hne hl _ ih =>
    cases h' with
    | here _ htyp' => exact absurd (htyp.unique htyp') hne
    | skip _ _ _ hl' hrest' =>
      cases hl.unique hl'
      exact ih hrest'

theorem EntryAt.unique {stop o entry entry' : Nat} (h : EntryAt b stop o entry)
    (h' : EntryAt b stop o entry') : entry' = entry := by
  induction h with
  | here _ htyp =>
    cases h' with
    | here => rfl
    | skip _ htyp' hne => exact absurd (Except.ok.inj (htyp'.symm.trans htyp)) hne
  | skip _ htyp hne hl _ ih =>
    cases h' with
    | here _ htyp' => exact absurd (Except.ok.inj (htyp.symm.trans htyp')) hne
    | skip _ _ _ hl' hrest' =>
      cases hl.unique hl'
      exact ih hrest'

theorem Lays.unique {L L' : Layout} (h : Lays b L) (h' : Lays b L') : L' = L := by
  obtain ⟨start, hblock, hext⟩ := h.ext
  obtain ⟨start', hblock', hext'⟩ := h'.ext
  obtain ⟨hstart, hstop⟩ := hblock.unique hblock'
  rw [hstart, hstop] at hext'
  have hsame := hext.unique hext'
  have hextLen := h'.extLen
  have hlistLen := h'.listLen
  have hentry := h'.entry
  have hnameLen := h'.nameLen
  rw [hsame] at hextLen hlistLen hentry
  have hlist := h.listLen.unique hlistLen
  have hend : L'.listEnd = L.listEnd := by rw [Layout.listEnd, Layout.listEnd, hsame, hlist]
  rw [hend] at hentry
  have hentry := h.entry.unique hentry
  rw [hentry] at hnameLen
  apply Layout.ext
  · exact hstop
  · exact hsame
  · exact hextLen.unique h.extLen
  · exact hlist.symm
  · exact hentry
  · exact hnameLen.unique h.nameLen

end

/-! ## What `parseSNI` finds -/

/-- The outcome is a name, not the empty string. -/
def Finds (x : Except Panic Bytes) (name : Bytes) : Prop := x = .ok name ∧ name ≠ []

section

variable {lower : Char → Char} {b name : Bytes}

theorem finds_bind {α : Type} {x : Except Panic α} {f : α → Except Panic Bytes} :
    Finds (x >>= f) name ↔ ∃ a, x = .ok a ∧ Finds (f a) name := by
  cases x with
  | error p =>
    constructor
    · intro h
      cases h.1
    · intro h
      obtain ⟨a, ha, -⟩ := h
      cases ha
  | ok a =>
    constructor
    · intro h
      exact ⟨a, rfl, h⟩
    · intro h
      obtain ⟨a', ha, h⟩ := h
      cases ha
      exact h

theorem not_finds_nil : ¬ Finds (pure []) name := by
  intro h
  exact h.2 (Except.ok.inj h.1).symm

theorem finds_pure {s : Bytes} : Finds (pure s) name ↔ name = s ∧ s ≠ [] := by
  constructor
  · intro h
    have hs : s = name := Except.ok.inj h.1
    rw [hs]
    exact ⟨rfl, h.2⟩
  · intro h
    rw [h.1]
    exact ⟨rfl, h.2⟩

theorem finds_unless {c : Prop} [Decidable c] {k : Except Panic Bytes} :
    Finds (if c then pure [] else k) name ↔ ¬ c ∧ Finds k name := by
  split
  · next hc =>
    constructor
    · intro h
      exact absurd h not_finds_nil
    · intro h
      exact absurd hc h.1
  · next hc => simp only [hc, not_false_eq_true, true_and]

theorem finds_sniNames (listEnd cur : Nat) :
    Finds (sniNames lower b listEnd cur) name ↔
      ∃ entry nameLen, EntryAt b listEnd cur entry ∧ NumAt b (entry + 1) nameLen ∧
        entry + 3 + nameLen ≤ b.length ∧ nameLen ≠ 0 ∧
        name = toLower lower ((b.drop (entry + 3)).take nameLen) := by
  induction cur using sniNames.induct listEnd with
  | case2 cur hcur =>
    rw [sniNames, if_neg hcur]
    constructor
    · intro h
      exact absurd h not_finds_nil
    · intro h
      obtain ⟨entry, nameLen, hentry, -⟩ := h
      cases hentry with
      | here hin => exact absurd hin hcur
      | skip hin => exact absurd hin hcur
  | case1 cur hcur ih =>
    rw [sniNames, if_pos hcur, finds_bind]
    constructor
    · intro h
      obtain ⟨typ, htyp, h⟩ := h
      obtain ⟨nameLen, hlen, h⟩ := finds_bind.1 h
      by_cases hzero : typ = 0
      · rw [if_pos hzero] at h
        obtain ⟨hfits, h⟩ := finds_unless.1 h
        rw [slice_of_le (by omega) (by omega), Nat.add_sub_cancel_left] at h
        obtain ⟨hname, hne⟩ := finds_pure.1 h
        have hpos : nameLen ≠ 0 := by
          intro h0
          rw [h0] at hne
          exact hne ((toLower_eq_nil lower).2 List.take_zero)
        rw [hzero] at htyp
        exact ⟨cur, nameLen, .here hcur htyp, hlen, by omega, hpos, hname⟩
      · rw [if_neg hzero] at h
        obtain ⟨entry, nameLen', hentry, hrest⟩ := (ih nameLen).1 h
        exact ⟨entry, nameLen', .skip hcur htyp hzero hlen hentry, hrest⟩
    · intro h
      obtain ⟨entry, nameLen, hentry, hlen, hfits, hpos, hname⟩ := h
      cases hentry with
      | here _ htyp =>
        refine ⟨0, htyp, finds_bind.2 ⟨nameLen, hlen, ?_⟩⟩
        have htext : ((b.drop (cur + 3)).take nameLen).length = nameLen := by
          rw [List.length_take, List.length_drop]
          omega
        rw [if_pos rfl]
        apply finds_unless.2
        rw [slice_of_le (by omega) (by omega), Nat.add_sub_cancel_left]
        refine ⟨by omega, finds_pure.2 ⟨hname, ?_⟩⟩
        intro hnil
        rw [toLower_eq_nil] at hnil
        rw [hnil] at htext
        exact hpos htext.symm
      | skip _ htyp hne hl hrest =>
        refine ⟨_, htyp, finds_bind.2 ⟨_, hl, ?_⟩⟩
        rw [if_neg hne]
        exact (ih _).2 ⟨entry, nameLen, hrest, hlen, hfits, hpos, hname⟩

theorem finds_sniExtensions (extEnd offset : Nat) :
    Finds (sniExtensions lower b extEnd offset) name ↔
      extEnd ≤ b.length ∧ ∃ ext listLen, ExtAt b extEnd offset ext ∧ NumAt b (ext + 4) listLen ∧
        ext + 6 + listLen ≤ b.length ∧
        Finds (sniNames lower b (ext + 6 + listLen) (ext + 6)) name := by
  induction offset using sniExtensions.induct b extEnd with
  | case2 offset hoffset =>
    rw [sniExtensions, if_neg hoffset]
    constructor
    · intro h
      exact absurd h not_finds_nil
    · intro h
      obtain ⟨hend, ext, listLen, hext, -⟩ := h
      cases hext with
      | here hin => exact absurd ⟨hin, hend⟩ hoffset
      | skip hin => exact absurd ⟨hin, hend⟩ hoffset
  | case1 offset hoffset ih =>
    rw [sniExtensions, if_pos hoffset, finds_bind]
    constructor
    · intro h
      obtain ⟨typ, htyp, h⟩ := h
      obtain ⟨l, hl, h⟩ := finds_bind.1 h
      by_cases hzero : typ = 0x00
      · rw [if_pos hzero] at h
        obtain ⟨-, h⟩ := finds_unless.1 h
        obtain ⟨listLen, hlist, h⟩ := finds_bind.1 h
        obtain ⟨hfits, h⟩ := finds_unless.1 h
        rw [hzero] at htyp
        exact ⟨hoffset.2, offset, listLen, .here hoffset.1 htyp, hlist, by omega, h⟩
      · rw [if_neg hzero] at h
        obtain ⟨hend, ext, listLen, hext, hrest⟩ := (ih l).1 h
        exact ⟨hend, ext, listLen, .skip hoffset.1 htyp hzero hl hext, hrest⟩
    · intro h
      obtain ⟨hend, ext, listLen, hext, hlist, hfits, h⟩ := h
      cases hext with
      | here _ htyp =>
        obtain ⟨l, hl⟩ : ∃ l, NumAt b (offset + 2) l := numAt_of_le (by omega)
        refine ⟨0, htyp, finds_bind.2 ⟨l, hl, ?_⟩⟩
        have hin := numAt_le hlist
        rw [if_pos rfl]
        apply finds_unless.2
        refine ⟨by omega, finds_bind.2 ⟨listLen, hlist, finds_unless.2 ⟨by omega, h⟩⟩⟩
      | skip _ htyp hne hl hrest =>
        refine ⟨_, htyp, finds_bind.2 ⟨_, hl, ?_⟩⟩
        rw [if_neg hne]
        exact (ih _).2 ⟨hend, ext, listLen, hrest, hlist, hfits, h⟩

theorem finds_parseSNI_block :
    Finds (parseSNI lower b) name ↔ IsHello b ∧
      ∃ start stop, Block b start stop ∧ Finds (sniExtensions lower b stop start) name := by
  unfold parseSNI
  constructor
  · intro h
    obtain ⟨hlen, h⟩ := finds_unless.1 h
    obtain ⟨kind, hkind, h⟩ := finds_bind.1 h
    obtain ⟨h16, h⟩ := finds_unless.1 h
    obtain ⟨n, hn, h⟩ := finds_bind.1 h
    obtain ⟨hfits, h⟩ := finds_unless.1 h
    obtain ⟨msg, hmsg, h⟩ := finds_bind.1 h
    obtain ⟨h01, h⟩ := finds_unless.1 h
    obtain ⟨-, h⟩ := finds_unless.1 h
    obtain ⟨_, -, h⟩ := finds_bind.1 h
    obtain ⟨_, -, h⟩ := finds_bind.1 h
    obtain ⟨_, -, h⟩ := finds_bind.1 h
    obtain ⟨-, h⟩ := finds_unless.1 h
    obtain ⟨-, h⟩ := finds_unless.1 h
    obtain ⟨sid, hsid, h⟩ := finds_bind.1 h
    obtain ⟨-, h⟩ := finds_unless.1 h
    obtain ⟨cs, hcs, h⟩ := finds_bind.1 h
    obtain ⟨-, h⟩ := finds_unless.1 h
    obtain ⟨comp, hcomp, h⟩ := finds_bind.1 h
    obtain ⟨-, h⟩ := finds_unless.1 h
    obtain ⟨exts, hexts, h⟩ := finds_bind.1 h
    rw [not_not] at h16 h01
    rw [h16] at hkind
    rw [h01] at hmsg
    refine ⟨⟨hkind, hmsg, n, hn, by omega⟩, _, _, block_iff.2 ?_, h⟩
    exact ⟨sid, cs, comp, exts, hsid, hcs, hcomp, hexts, rfl, rfl⟩
  · intro h
    obtain ⟨⟨hkind, hmsg, n, hn, hfits⟩, start, stop, hblock, h⟩ := h
    obtain ⟨sid, cs, comp, exts, hsid, hcs, hcomp, hexts, rfl, rfl⟩ := block_iff.1 hblock
    -- every read before the extensions is in range, since the last one is
    have hin := numAt_le hexts
    refine finds_unless.2 ⟨by omega, finds_bind.2 ⟨_, hkind, finds_unless.2 ⟨by simp, ?_⟩⟩⟩
    refine finds_bind.2 ⟨n, hn, finds_unless.2 ⟨by omega, finds_bind.2 ⟨_, hmsg, ?_⟩⟩⟩
    refine finds_unless.2 ⟨by simp, finds_unless.2 ⟨by omega, ?_⟩⟩
    refine finds_bind.2 ⟨_, byteAt_of_lt (by omega), finds_bind.2 ⟨_, byteAt_of_lt (by omega), ?_⟩⟩
    refine finds_bind.2 ⟨_, byteAt_of_lt (by omega), ?_⟩
    refine finds_unless.2 ⟨by omega, finds_unless.2 ⟨by omega, finds_bind.2 ⟨sid, hsid, ?_⟩⟩⟩
    refine finds_unless.2 ⟨by omega, finds_bind.2 ⟨cs, hcs, finds_unless.2 ⟨by omega, ?_⟩⟩⟩
    refine finds_bind.2 ⟨comp, hcomp, finds_unless.2 ⟨by omega, finds_bind.2 ⟨exts, hexts, ?_⟩⟩⟩
    exact h

/-- **Where a name is found**: in the layout that the bytes declare, if nothing of
it runs past the record. -/
theorem finds_parseSNI :
    Finds (parseSNI lower b) name ↔ ∃ L, Lays b L ∧ ¬ L.PastRecord b ∧ L.nameLen ≠ 0 ∧
      name = toLower lower (L.name b) := by
  rw [finds_parseSNI_block]
  constructor
  · intro h
    obtain ⟨hhello, start, stop, hblock, h⟩ := h
    obtain ⟨hend, ext, listLen, hext, hlist, hfits, h⟩ := (finds_sniExtensions _ _).1 h
    obtain ⟨entry, nameLen, hentry, hlen, hin, hpos, hname⟩ := (finds_sniNames _ _).1 h
    have hlast := numAt_le hlist
    obtain ⟨extLen, hextLen⟩ : ∃ l, NumAt b (ext + 2) l := numAt_of_le (by omega)
    refine ⟨⟨stop, ext, extLen, listLen, entry, nameLen⟩, ?_, ?_, hpos, hname⟩
    · exact ⟨hhello, ⟨start, hblock, hext⟩, hextLen, hlist, hentry, hlen⟩
    · intro hpast
      simp only [Layout.PastRecord, Layout.listEnd, Layout.nameEnd] at hpast
      omega
  · intro h
    obtain ⟨L, ⟨hhello, ⟨start, hblock, hext⟩, -, hlist, hentry, hlen⟩, hpast, hpos, hname⟩ := h
    simp only [Layout.PastRecord, Layout.listEnd, Layout.nameEnd] at hpast
    refine ⟨hhello, start, _, hblock, (finds_sniExtensions _ _).2 ⟨by omega, ?_⟩⟩
    refine ⟨_, _, hext, hlist, by omega, (finds_sniNames _ _).2 ?_⟩
    exact ⟨_, _, hentry, hlen, by omega, hpos, hname⟩

/-! ## Overruns -/

/-- One of the nested lengths overruns its container. -/
inductive Overruns (b : Bytes) : Prop
  | block {start stop : Nat} (hblock : Block b start stop) (hover : b.length < stop)
  | ext {start stop ext extLen : Nat} (hblock : Block b start stop) (hext : ExtAt b stop start ext)
      (hlen : NumAt b (ext + 2) extLen) (hover : stop < ext + 4 + extLen)
  | list {start stop ext extLen listLen : Nat} (hblock : Block b start stop)
      (hext : ExtAt b stop start ext) (hlen : NumAt b (ext + 2) extLen)
      (hlist : NumAt b (ext + 4) listLen) (hover : ext + 4 + extLen < ext + 6 + listLen)
  | name {L : Layout} (hlays : Lays b L) (hover : L.listEnd < L.nameEnd)

/-- A layout that is nested and in the record is the only one, and nothing overruns. -/
theorem not_overruns {L : Layout} (h : Lays b L) (hnested : L.Nested) (hin : L.blockEnd ≤ b.length) :
    ¬ Overruns b := by
  obtain ⟨start, hblock, hext⟩ := h.ext
  have same : ∀ {start' stop' ext'}, Block b start' stop' → ExtAt b stop' start' ext' →
      stop' = L.blockEnd ∧ ext' = L.extOff := by
    intro start' stop' ext' hblock' hext'
    obtain ⟨hstart, hstop⟩ := hblock.unique hblock'
    rw [hstart, hstop] at hext'
    exact ⟨hstop, hext.unique hext'⟩
  have hname := hnested.name
  have hlist := hnested.list
  have hinner := hnested.ext
  simp only [Layout.listEnd, Layout.extEnd] at hlist hinner
  intro hover
  cases hover with
  | block hblock' hover =>
    rw [(hblock.unique hblock').2] at hover
    omega
  | ext hblock' hext' hlen hover =>
    obtain ⟨hstop, hoff⟩ := same hblock' hext'
    rw [hoff] at hlen hover
    rw [hstop, ← h.extLen.unique hlen] at hover
    omega
  | list hblock' hext' hlen hlist' hover =>
    obtain ⟨-, hoff⟩ := same hblock' hext'
    rw [hoff] at hlen hlist' hover
    rw [← h.extLen.unique hlen, ← h.listLen.unique hlist'] at hover
    omega
  | name hlays hover =>
    rw [h.unique hlays] at hover
    omega

/-- **When names are taken from inside the extension only**: whatever overruns its
container on the way to the first host name runs past the record too. -/
theorem parseSNI_inside_iff (lower : Char → Char) (b : Bytes) :
    ((∀ name, parseSNI lower b = .ok name → name ≠ [] →
        ∃ L, Lays b L ∧ name = toLower lower (L.name b) ∧ L.Nested ∧ L.blockEnd ≤ b.length) ∧
      (Overruns b → ∀ name, parseSNI lower b = .ok name → name = [])) ↔
    ∀ L, Lays b L → L.nameLen ≠ 0 → ¬ L.Nested → L.PastRecord b := by
  constructor
  · intro h L hlays hpos hnested
    by_contra hpast
    obtain ⟨hparse, hne⟩ := finds_parseSNI.2 ⟨L, hlays, hpast, hpos, rfl⟩
    obtain ⟨L', hlays', -, hnested', -⟩ := h.1 _ hparse hne
    rw [hlays.unique hlays'] at hnested'
    exact hnested hnested'
  · intro hcond
    have inside : ∀ name, parseSNI lower b = .ok name → name ≠ [] →
        ∃ L, Lays b L ∧ name = toLower lower (L.name b) ∧ L.Nested ∧ L.blockEnd ≤ b.length := by
      intro name hparse hne
      obtain ⟨L, hlays, hpast, hpos, hname⟩ := finds_parseSNI.1 ⟨hparse, hne⟩
      have hnested : L.Nested := by
        by_contra hnot
        exact hpast (hcond L hlays hpos hnot)
      have hin : L.blockEnd ≤ b.length := by
        unfold Layout.PastRecord at hpast
        omega
      exact ⟨L, hlays, hname, hnested, hin⟩
    refine ⟨inside, ?_⟩
    intro hover name hparse
    by_contra hne
    obtain ⟨L, hlays, -, hnested, hin⟩ := inside name hparse hne
    exact not_overruns hlays hnested hin hover

end

/-- A hello whose server name list has room for one byte of the name: the other
one is the first byte of the next extension. -/
def craftedHello : Bytes :=
  [0x16, 3, 1, 0, 61, 1, 0, 0, 57, 3, 3] ++ List.replicate 32 0 ++ [0, 0, 2, 0x13, 1, 1, 0] ++
    [0, 14, 0, 0, 0, 6, 0, 4, 0, 0, 2, 0x61, 0x62, 0, 0, 0]

theorem lays_craftedHello : Lays craftedHello ⟨66, 52, 6, 4, 58, 2⟩ where
  hello := ⟨by decide, by decide, 61, by decide +kernel, by decide⟩
  ext := ⟨52, ⟨0, 2, 1, 14, by decide, by decide +kernel, by decide, by decide +kernel, rfl, rfl⟩,
    .here (by decide) (by decide +kernel)⟩
  extLen := by decide +kernel
  listLen := by decide +kernel
  entry := .here (by decide) (by decide)
  nameLen := by decide +kernel

/-- It is routed by a name that no list holds. -/
theorem parseSNI_beyond_list :
    parseSNI id craftedHello = .ok (ascii "ab") ∧ Overruns craftedHello := by
  have hin : ¬ (⟨66, 52, 6, 4, 58, 2⟩ : Layout).PastRecord craftedHello := by
    unfold Layout.PastRecord
    decide
  have hfound : Finds (parseSNI id craftedHello) (toLower id (ascii "ab")) :=
    finds_parseSNI.2 ⟨_, lays_craftedHello, hin, by decide, by decide +kernel⟩
  exact ⟨hfound.1, .name lays_craftedHello (by decide)⟩

end Dockerset.GeoSni
