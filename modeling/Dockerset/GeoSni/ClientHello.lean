import Dockerset.Go.Window
import Dockerset.GeoSni.SniLayout

/-!
# A well-formed ClientHello

A hello as RFC 8446 and RFC 6066 serialise it into one handshake record, with any
fields. The record lays out its first host name as `SniLayout` describes, with
every length nested in the one around it, so `parseSNI` finds it.
-/

namespace Dockerset.GeoSni
open Go

/-- A vector after its length, in one byte and in two. -/
def vec8 (v : Bytes) : Bytes := UInt8.ofNat v.length :: v

def vec16 (v : Bytes) : Bytes := putUint16 (UInt16.ofNat v.length) ++ v

structure Extension where
  typ : UInt16
  data : Bytes

def Extension.bytes (e : Extension) : Bytes := putUint16 e.typ ++ vec16 e.data

/-- An entry of a server name list. -/
structure ServerName where
  nameType : UInt8
  name : Bytes

def ServerName.bytes (n : ServerName) : Bytes := n.nameType :: vec16 n.name

/-- The extension `server_name` with a list of names. -/
def serverNameExt (names : List ServerName) : Extension := ⟨0, vec16 (names.flatMap ServerName.bytes)⟩

structure ClientHello where
  recordVersion : UInt16
  legacyVersion : UInt16
  random : { r : Bytes // r.length = 32 }
  sessionID : { s : Bytes // s.length ≤ 32 }
  cipherSuites : List UInt16
  compression : { c : Bytes // c.length < 256 }
  extensions : List Extension

namespace ClientHello

variable (h : ClientHello)

def body : Bytes :=
  putUint16 h.legacyVersion ++ h.random.val ++ vec8 h.sessionID.val ++
    vec16 (h.cipherSuites.flatMap putUint16) ++ vec8 h.compression.val ++
    vec16 (h.extensions.flatMap Extension.bytes)

/-- The handshake message; its length takes three bytes. -/
def message : Bytes :=
  [0x01, UInt8.ofNat (h.body.length / 65536), UInt8.ofNat (h.body.length / 256),
    UInt8.ofNat h.body.length] ++ h.body

def record : Bytes := 0x16 :: putUint16 h.recordVersion ++ vec16 h.message

end ClientHello

/-! ## What stands where -/

section

variable {b v w : Bytes} {i : Nat}

theorem length_vec8 (v : Bytes) : (vec8 v).length = v.length + 1 := rfl

theorem length_vec16 (v : Bytes) : (vec16 v).length = v.length + 2 := by
  rw [vec16, List.length_append, length_putUint16, Nat.add_comm]

theorem window_vec8 (h : Window b i (vec8 v)) (hlen : v.length < 256) :
    (∃ n : UInt8, byteAt b i = .ok n ∧ n.toNat = v.length) ∧ Window b (i + 1) v := by
  refine ⟨⟨_, h.byteAt, ?_⟩, h.tail⟩
  rw [UInt8.toNat_ofNat', Nat.mod_eq_of_lt hlen]

theorem window_vec16 (h : Window b i (vec16 v)) (hlen : v.length < 65536) :
    NumAt b i v.length ∧ Window b (i + 2) v := by
  have hread : NumAt b i (UInt16.ofNat v.length).toNat := h.uint16
  rw [UInt16.toNat_ofNat', Nat.mod_eq_of_lt hlen] at hread
  exact ⟨hread, h.right⟩

theorem Extension.length_bytes (e : Extension) : e.bytes.length = 4 + e.data.length := by
  rw [Extension.bytes, List.length_append, length_putUint16, length_vec16]
  omega

theorem ServerName.length_bytes (n : ServerName) : n.bytes.length = 3 + n.name.length := by
  rw [ServerName.bytes, List.length_cons, length_vec16]
  omega

theorem window_extension {e : Extension} (h : Window b i e.bytes) (hlen : e.data.length < 65536) :
    NumAt b i e.typ.toNat ∧ NumAt b (i + 2) e.data.length ∧ Window b (i + 4) e.data := by
  obtain ⟨hl, hdata⟩ := window_vec16 h.right hlen
  exact ⟨h.uint16, hl, hdata⟩

theorem window_serverName {n : ServerName} (h : Window b i n.bytes) (hlen : n.name.length < 65536) :
    byteAt b i = .ok n.nameType ∧ NumAt b (i + 1) n.name.length ∧ Window b (i + 3) n.name := by
  obtain ⟨hl, hname⟩ := window_vec16 h.tail hlen
  exact ⟨h.byteAt, hl, hname⟩

theorem extAt_window (stop : Nat) {before : List Extension} {e : Extension}
    (hbefore : ∀ x ∈ before, x.typ ≠ 0) (htyp : e.typ = 0)
    (h : Window b i (before.flatMap Extension.bytes ++ e.bytes))
    (hstop : i + (before.flatMap Extension.bytes ++ e.bytes).length ≤ stop)
    (hsmall : stop < i + 65536) :
    ExtAt b stop i (i + (before.flatMap Extension.bytes).length) := by
  apply Window.walk (R := ExtAt b stop) (Nat.le_refl i) _ _ h hstop
  · intro k hk hwin hle
    have hlen := e.length_bytes
    obtain ⟨hnum, -⟩ := window_extension hwin (by omega)
    rw [htyp] at hnum
    exact .here (by omega) hnum
  · intro k j x hx hk hwin hle hrest
    have hlen := x.length_bytes
    obtain ⟨hnum, hl, -⟩ := window_extension hwin (by omega)
    have hne : x.typ.toNat ≠ 0 := by
      intro h0
      exact hbefore x hx (UInt16.toNat_inj.1 h0)
    rw [hlen, ← Nat.add_assoc] at hrest
    exact .skip (by omega) hnum hne hl hrest

theorem entryAt_window (stop : Nat) {before : List ServerName} {n : ServerName}
    (hbefore : ∀ x ∈ before, x.nameType ≠ 0) (htyp : n.nameType = 0)
    (h : Window b i (before.flatMap ServerName.bytes ++ n.bytes))
    (hstop : i + (before.flatMap ServerName.bytes ++ n.bytes).length ≤ stop)
    (hsmall : stop < i + 65536) :
    EntryAt b stop i (i + (before.flatMap ServerName.bytes).length) := by
  apply Window.walk (R := EntryAt b stop) (Nat.le_refl i) _ _ h hstop
  · intro k hk hwin hle
    have hlen := n.length_bytes
    obtain ⟨hkind, -⟩ := window_serverName hwin (by omega)
    rw [htyp] at hkind
    exact .here (by omega) hkind
  · intro k j x hx hk hwin hle hrest
    have hlen := x.length_bytes
    obtain ⟨hkind, hl, -⟩ := window_serverName hwin (by omega)
    rw [hlen, ← Nat.add_assoc] at hrest
    exact .skip (by omega) hkind (hbefore x hx) hl hrest

theorem host_window {skipped others : List ServerName} {host : Bytes}
    (hskipped : ∀ n ∈ skipped, n.nameType ≠ 0)
    (h : Window b i (vec16 ((skipped ++ ⟨0, host⟩ :: others).flatMap ServerName.bytes)))
    (hsmall : ((skipped ++ ⟨0, host⟩ :: others).flatMap ServerName.bytes).length < 65536) :
    ∃ listLen entry, NumAt b i listLen ∧ EntryAt b (i + 2 + listLen) (i + 2) entry ∧
      NumAt b (entry + 1) host.length ∧ Window b (entry + 3) host ∧ i + 2 + listLen ≤ b.length := by
  have hend := h.le
  obtain ⟨hlen, hlist⟩ := window_vec16 h hsmall
  rw [length_vec16] at hend
  rw [List.flatMap_append, List.flatMap_cons, ← List.append_assoc] at hlist hlen hsmall hend
  have hhost : (ServerName.bytes ⟨0, host⟩).length = 3 + host.length := ServerName.length_bytes _
  generalize hn : (skipped.flatMap ServerName.bytes ++ ServerName.bytes ⟨0, host⟩ ++
    others.flatMap ServerName.bytes).length = n at *
  rw [List.length_append] at hn
  have hentry := entryAt_window (i + 2 + n) hskipped rfl hlist.left (by omega) (by omega)
  rw [List.length_append] at hn
  obtain ⟨-, hnameLen, hname⟩ := window_serverName hlist.left.right (show host.length < 65536 by omega)
  exact ⟨n, _, hlen, hentry, hnameLen, hname, by omega⟩

/-! ## The layout of a record -/

theorem window_self (b : Bytes) : Window b 0 b := ⟨[], [], by simp, rfl⟩

namespace ClientHello

variable {h : ClientHello}

theorem window_message (hfits : h.message.length < 65536) :
    IsHello h.record ∧ Window h.record 5 h.message ∧ h.record.length = 5 + h.message.length := by
  have hrecord := window_self h.record
  have hvec : Window h.record 3 (vec16 h.message) := Window.right hrecord
  obtain ⟨hlen, hmsg⟩ := window_vec16 hvec hfits
  have hsize : h.record.length = 5 + h.message.length := by
    rw [record, List.length_append, List.length_cons, length_putUint16, length_vec16]
    omega
  refine ⟨⟨hrecord.byteAt, hmsg.byteAt, _, hlen, ?_⟩, hmsg, hsize⟩
  exact Nat.le_of_eq hsize.symm

theorem block_record (hfits : h.message.length < 65536) :
    ∃ start, Block h.record start h.record.length ∧
      Window h.record start (h.extensions.flatMap Extension.bytes) ∧
      start + (h.extensions.flatMap Extension.bytes).length = h.record.length ∧
      h.record.length < start + 65536 := by
  obtain ⟨-, hmsg, hsize⟩ := window_message hfits
  have hbody : Window h.record 9 h.body := hmsg.right
  have hmessage : h.message.length = 4 + h.body.length := by
    rw [message, List.length_append]
    rfl
  generalize hsuites : h.cipherSuites.flatMap putUint16 = suites at *
  generalize hexts : h.extensions.flatMap Extension.bytes = exts at *
  have hrandom := h.random.property
  have hsid := h.sessionID.property
  have hcomp := h.compression.property
  have hparts : h.body.length = 2 + 32 + (h.sessionID.val.length + 1) + (suites.length + 2) +
      (h.compression.val.length + 1) + (exts.length + 2) := by
    rw [body, hsuites, hexts]
    simp only [List.length_append, length_putUint16, length_vec8, length_vec16, hrandom]
  rw [body, hsuites, hexts] at hbody
  -- the parts, each at the sum of the lengths before it
  have atExts := hbody.right
  have atCompression := hbody.left.right
  have atSuites := hbody.left.left.right
  have atSession := hbody.left.left.left.right
  simp only [List.length_append, length_putUint16, length_vec8, length_vec16, hrandom]
    at atExts atCompression atSuites atSession
  obtain ⟨⟨sid, hsidByte, hsidLen⟩, -⟩ := window_vec8 atSession (by omega)
  obtain ⟨hsuitesLen, -⟩ := window_vec16 (atSuites.cast (j := 44 + sid.toNat) (by omega)) (by omega)
  obtain ⟨⟨comp, hcompByte, hcompLen⟩, -⟩ :=
    window_vec8 (atCompression.cast (j := 46 + sid.toNat + suites.length) (by omega)) hcomp
  obtain ⟨hextsLen, hblock⟩ := window_vec16
    (atExts.cast (j := 47 + sid.toNat + suites.length + comp.toNat) (by omega)) (by omega)
  refine ⟨49 + sid.toNat + suites.length + comp.toNat, ?_, hblock.cast (by omega), by omega, by omega⟩
  exact ⟨sid, suites.length, comp, exts.length, hsidByte, hsuitesLen, hcompByte, hextsLen, rfl,
    by omega⟩

/-- **`parseSNI` finds the name of every well-formed hello**: the first host name
of its server name extension, in lower case. -/
theorem parseSNI_record (lower : Char → Char) (h : ClientHello) (before after : List Extension)
    (skipped others : List ServerName) (host : Bytes) (hfits : h.message.length < 65536)
    (hexts : h.extensions =
      before ++ serverNameExt (skipped ++ ⟨0, host⟩ :: others) :: after)
    (hbefore : ∀ e ∈ before, e.typ ≠ 0) (hskipped : ∀ n ∈ skipped, n.nameType ≠ 0)
    (hne : host ≠ []) (hascii : ∀ x ∈ host, x < 0x80) :
    parseSNI lower h.record = .ok (host.map lowerByte) := by
  obtain ⟨hhello, -, -⟩ := window_message hfits
  obtain ⟨start, hblock, hwindow, hend, hsmall⟩ := block_record hfits
  rw [hexts, List.flatMap_append, List.flatMap_cons, ← List.append_assoc] at hwindow hend
  generalize hsni : serverNameExt (skipped ++ ⟨0, host⟩ :: others) = sni at *
  have hsniLen := sni.length_bytes
  have hlist : sni.data = vec16 ((skipped ++ ⟨0, host⟩ :: others).flatMap ServerName.bytes) := by
    rw [← hsni]
    rfl
  have htyp : sni.typ = 0 := by
    rw [← hsni]
    rfl
  rw [List.length_append] at hend
  have hext := extAt_window h.record.length hbefore htyp hwindow.left (by omega) (by omega)
  rw [List.length_append] at hend
  obtain ⟨-, hextLen, hdata⟩ := window_extension hwindow.left.right (by omega)
  have hdataLen := congrArg List.length hlist
  rw [length_vec16] at hdataLen
  rw [hlist] at hdata
  obtain ⟨listLen, entry, hlistLen, hentry, hnameLen, hname, hlistEnd⟩ :=
    host_window hskipped hdata (by omega)
  have hnameEnd := hname.le
  have hfound : Finds (parseSNI lower h.record) (toLower lower host) := by
    apply finds_parseSNI.2
    refine ⟨⟨h.record.length, _, sni.data.length, listLen, entry, host.length⟩,
      ⟨hhello, ⟨start, hblock, hext⟩, hextLen, hlistLen, hentry, hnameLen⟩, ?_, ?_, ?_⟩
    · simp only [Layout.PastRecord, Layout.listEnd, Layout.nameEnd]
      omega
    · intro h0
      exact hne (List.eq_nil_of_length_eq_zero h0)
    · rw [Layout.name, hname.drop_take]
  rw [hfound.1, toLower_ascii lower hascii]

end ClientHello

end

/-- A hello with an extension before `server_name`, and a name of another type in it. -/
def sampleHello : ClientHello where
  recordVersion := 0x0301
  legacyVersion := 0x0303
  random := ⟨List.replicate 32 7, rfl⟩
  sessionID := ⟨[1, 2], by decide⟩
  cipherSuites := [0x1301, 0x1302]
  compression := ⟨[0], by decide⟩
  extensions := [⟨43, [2, 3, 4]⟩, serverNameExt [⟨9, [1]⟩, ⟨0, ascii "Ab.C"⟩], ⟨16, []⟩]

theorem parseSNI_record_sample :
    sampleHello.message.length < 65536 ∧ parseSNI id sampleHello.record = .ok (ascii "ab.c") := by
  have hfits : sampleHello.message.length < 65536 := by decide
  refine ⟨hfits, ?_⟩
  have h := ClientHello.parseSNI_record id sampleHello [⟨43, [2, 3, 4]⟩] [⟨16, []⟩] [⟨9, [1]⟩] []
    (ascii "Ab.C") hfits rfl (by decide) (by decide) (by decide) (by decide +kernel)
  rw [h]
  decide +kernel

end Dockerset.GeoSni
