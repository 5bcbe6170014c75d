import Dockerset.Clib.Inet
import Dockerset.Go.Utf8
import Dockerset.Logic.EState

/-!
# The command line of the repeater

`-b` and `-w` take a subnet, an address and the length of its prefix. `parse` looks
for the last slash of the text: before it is a dotted quad, after it a number as
`atoi` reads it, so that `10.0.0.0/8 ` and `10.0.0.0/8x` are the same subnet and
`10.0.0.0/` has a prefix of length zero. For that length the mask is a shift by the
width of the word, of which C says nothing.
-/

namespace Dockerset.MdnsRepeater
open Clib Go Logic

/-- What the compiler and the library make of what C leaves undefined. -/
structure Undefined where
  /-- `atoi` of a number that is no `int`. -/
  overflow : CString → Int
  /-- A word shifted by its width. -/
  shift : BitVec 32 → BitVec 32

def Undefined.shl (u : Undefined) (x : BitVec 32) (n : Nat) : BitVec 32 :=
  if n < 32 then x <<< n else u.shift x

structure Subnet where
  addr : InAddr
  mask : InAddr
  net : InAddr
deriving DecidableEq

def Subnet.covers (s : Subnet) (a : InAddr) : Bool := a &&& s.mask == s.net

/-- The subnet of an address, with a prefix of `n` bits. -/
def subnet (u : Undefined) (q : Quad) (n : Nat) : Subnet :=
  let mask := ntohl (u.shl 0xffffffff (32 - n))
  ⟨q.inAddr, mask, q.inAddr &&& mask⟩

/-- The results -1, -2 and -3 of `parse`. -/
inductive ParseError
  | argument
  | address
  | mask
deriving DecidableEq

/-- The loop that looks for the end of the text and for its last slash. -/
def findDelim : CString → Nat → Nat → Nat
  | [], _, delim => delim
  | c :: s, e, delim => findDelim s (e + 1) (if c = 0x2f then e else delim)

def parse (u : Undefined) (input : CString) : Except ParseError Subnet :=
  let delim := findDelim input 0 0
  if input.length = 0 ∨ delim = 0 ∨ input.length = delim then .error .argument
  else
    match inetPton (input.take delim) with
    | none => .error .address
    | some q =>
      let n := atoi u.overflow (input.drop (delim + 1))
      if n < 0 ∨ 32 < n then .error .mask else .ok (subnet u q n.toNat)

/-! ## Which texts `parse` accepts -/

section Parse

variable {u : Undefined} {s l r : CString} {e d : Nat}

theorem findDelim_of_not_mem (h : 0x2f ∉ s) (e d : Nat) : findDelim s e d = d := by
  induction s generalizing e d with
  | nil => rfl
  | cons c s ih =>
    simp only [List.mem_cons, not_or] at h
    rw [findDelim, if_neg (Ne.symm h.1), ih h.2]

theorem findDelim_append (hr : 0x2f ∉ r) (e d : Nat) :
    findDelim (l ++ 0x2f :: r) e d = e + l.length := by
  induction l generalizing e d with
  | nil => rw [List.nil_append, findDelim, if_pos rfl, findDelim_of_not_mem hr, List.length_nil, Nat.add_zero]
  | cons c l ih =>
    rw [List.cons_append, findDelim, ih, List.length_cons]
    omega

theorem exists_last_slash (h : 0x2f ∈ s) : ∃ l r, s = l ++ 0x2f :: r ∧ 0x2f ∉ r := by
  induction s with
  | nil => simp at h
  | cons c s ih =>
    by_cases hs : 0x2f ∈ s
    · obtain ⟨l, r, rfl, hr⟩ := ih hs
      exact ⟨c :: l, r, rfl, hr⟩
    · have hc : c = 0x2f := by
        rcases List.mem_cons.1 h with hc | hc
        · exact hc.symm
        · exact absurd hc hs
      exact ⟨[], s, by rw [hc, List.nil_append], hs⟩

theorem text_ne_nil (q : Quad) : q.text ≠ [] := by
  simp [Quad.text]

theorem parse_split (hr : 0x2f ∉ r) (hl : l ≠ []) : parse u (l ++ 0x2f :: r) =
    match inetPton l with
    | none => .error .address
    | some q => if atoi u.overflow r < 0 ∨ 32 < atoi u.overflow r then .error .mask
      else .ok (subnet u q (atoi u.overflow r).toNat) := by
  have hdelim : findDelim (l ++ 0x2f :: r) 0 0 = l.length := by rw [findDelim_append hr, Nat.zero_add]
  have hpos : 0 < l.length := List.length_pos_of_ne_nil hl
  have htake : (l ++ 0x2f :: r).take l.length = l := List.take_left
  have hdrop : (l ++ 0x2f :: r).drop (l.length + 1) = r := by
    rw [← List.drop_drop, List.drop_left, List.drop_one, List.tail_cons]
  simp only [parse, hdelim, htake, hdrop]
  rw [if_neg]
  simp only [List.length_append, List.length_cons]
  omega

/-- **`parse` accepts exactly** a dotted quad, a slash, and what `atoi` reads as a
number from 0 to 32. -/
theorem parse_eq_ok {sn : Subnet} : parse u s = .ok sn ↔
    ∃ q r, s = q.text ++ 0x2f :: r ∧ 0x2f ∉ r ∧ 0 ≤ atoi u.overflow r ∧ atoi u.overflow r ≤ 32 ∧
      sn = subnet u q (atoi u.overflow r).toNat := by
  constructor
  · intro h
    have hslash : 0x2f ∈ s := by
      by_contra hno
      simp [parse, findDelim_of_not_mem hno] at h
    obtain ⟨l, r, rfl, hr⟩ := exists_last_slash hslash
    have hl : l ≠ [] := by
      rintro rfl
      have hdelim : findDelim (0x2f :: r) 0 0 = 0 := findDelim_append (l := []) hr 0 0
      simp [parse, hdelim] at h
    rw [parse_split hr hl] at h
    cases hq : inetPton l with
    | none => simp [hq] at h
    | some q =>
      simp only [hq] at h
      split at h
      · cases h
      · next hn =>
        cases h
        rw [inetPton_eq_some] at hq
        subst hq
        exact ⟨q, r, rfl, hr, by omega, by omega, rfl⟩
  · rintro ⟨q, r, rfl, hr, h0, h32, rfl⟩
    rw [parse_split hr (text_ne_nil q), inetPton_text]
    simp only
    rw [if_neg (by omega)]

theorem covers_subnet (q : Quad) {n : Nat} (h0 : 0 < n) (hn : n ≤ 32) (a : InAddr) :
    (subnet u q n).covers a = true ↔ ∀ j < n, (ntohl a).getMsbD j = (ntohl q.inAddr).getMsbD j := by
  have hshl : u.shl 0xffffffff (32 - n) = 0xffffffff#32 <<< (32 - n) := if_pos (by omega)
  rw [← and_shiftLeft_eq_iff hn, Subnet.covers, beq_iff_eq, ← ntohl_injective.eq_iff]
  simp only [subnet, ntohl_and, ntohl_ntohl, hshl]

end Parse

/-! ## `parse_opts` -/

/-- How the program ends before it repeats anything. -/
structure Exit where
  code : Nat
  message : CString
deriving DecidableEq

/-- What `getopt` returns. -/
inductive Opt
  | help
  | errorOnly
  | foreground
  | pidFile (path : CString)
  | blacklist (arg : CString)
  | whitelist (arg : CString)
  | user (name : CString)
  /-- An unknown option, or one without its argument. -/
  | unknown
deriving DecidableEq

structure Options where
  help : Bool := false
  errorOnly : Bool := false
  foreground : Bool := false
  pidFile : CString := ascii "/var/run/mdns-repeater.pid"
  user : Option CString := none
  blacklisted : List Subnet := []
  whitelisted : List Subnet := []
deriving DecidableEq

def maxSubnets : Nat := 16

/-- The cases `-b` and `-w`: one more subnet for a list, as long as the other is empty. -/
def addSubnet (u : Undefined) (name : CString) (own other : List Subnet) (arg : CString) :
    Except Exit (List Subnet) :=
  if maxSubnets ≤ own.length then
    .error ⟨2, ascii "too many " ++ name ++ ascii "ed subnets (maximum is 16)"⟩
  else if other ≠ [] then
    .error ⟨2, ascii "simultaneous whitelisting and blacklisting does not make sense"⟩
  else
    match parse u arg with
    | .error .argument => .error ⟨2, ascii "invalid " ++ name ++ ascii " argument"⟩
    | .error .address => .error ⟨2, ascii "could not parse netmask"⟩
    | .error .mask => .error ⟨2, ascii "invalid netmask"⟩
    | .ok s => .ok (own ++ [s])

/-- One turn of the loop; `users` are the names that `getpwnam` knows. -/
def parseOpt (u : Undefined) (users : CString → Bool) (o : Options) : Opt → Except Exit Options
  | .help => .ok { o with help := true }
  | .errorOnly => .ok { o with errorOnly := true }
  | .foreground => .ok { o with foreground := true }
  | .pidFile path => .ok (if path.head? = some 0x2f then { o with pidFile := path } else o)
  | .blacklist arg => do
    let l ← addSubnet u (ascii "blacklist") o.blacklisted o.whitelisted arg
    .ok { o with blacklisted := l }
  | .whitelist arg => do
    let l ← addSubnet u (ascii "whitelist") o.whitelisted o.blacklisted arg
    .ok { o with whitelisted := l }
  | .user name =>
    if users name then .ok { o with user := some name }
    else .error ⟨2, ascii "No such user '" ++ name ++ ascii "'"⟩
  | .unknown => .ok o

def parseOpts (u : Undefined) (users : CString → Bool) (opts : List Opt) : Except Exit Options := do
  let o ← opts.foldlM (parseOpt u users) {}
  if o.help then .error ⟨0, []⟩ else .ok o

/-- The arguments of `-b`. -/
def blacklists (opts : List Opt) : List CString :=
  opts.filterMap fun | .blacklist arg => some arg | _ => none

/-- The arguments of `-w`. -/
def whitelists (opts : List Opt) : List CString :=
  opts.filterMap fun | .whitelist arg => some arg | _ => none

/-- The options so far: each list has the subnets of its arguments, in their order, and
one of the lists is empty. -/
structure Read (u : Undefined) (opts : List Opt) (o : Options) : Prop where
  blacklisted : List.Forall₂ (fun arg s => parse u arg = .ok s) (blacklists opts) o.blacklisted
  whitelisted : List.Forall₂ (fun arg s => parse u arg = .ok s) (whitelists opts) o.whitelisted
  one : o.blacklisted = [] ∨ o.whitelisted = []

section Opts

variable {u : Undefined} {users : CString → Bool} {o o' : Options} {opt : Opt} {opts : List Opt}

theorem addSubnet_ok {name arg : CString} {own other l : List Subnet}
    (h : addSubnet u name own other arg = .ok l) :
    other = [] ∧ ∃ s, parse u arg = .ok s ∧ l = own ++ [s] := by
  unfold addSubnet at h
  split at h
  · cases h
  · split at h
    · cases h
    · next hother =>
      split at h
      · cases h
      · cases h
      · cases h
      · next s hs =>
        cases h
        exact ⟨not_not.1 hother, s, hs, rfl⟩

theorem Read.step (h : Read u opts o) (ho : parseOpt u users o opt = .ok o') :
    Read u (opts ++ [opt]) o' := by
  have hsame : (blacklists (opts ++ [opt]) = blacklists opts) →
      (whitelists (opts ++ [opt]) = whitelists opts) → o'.blacklisted = o.blacklisted →
      o'.whitelisted = o.whitelisted → Read u (opts ++ [opt]) o' := by
    intro hb hw hb' hw'
    refine ⟨?_, ?_, ?_⟩
    · rw [hb, hb']
      exact h.blacklisted
    · rw [hw, hw']
      exact h.whitelisted
    · rw [hb', hw']
      exact h.one
  cases opt with
  | help | errorOnly | foreground | unknown =>
    cases ho
    exact hsame (by simp [blacklists]) (by simp [whitelists]) rfl rfl
  | pidFile path =>
    cases ho
    refine hsame (by simp [blacklists]) (by simp [whitelists]) ?_ ?_
    · split <;> rfl
    · split <;> rfl
  | user name =>
    simp only [parseOpt] at ho
    split at ho
    · cases ho
      exact hsame (by simp [blacklists]) (by simp [whitelists]) rfl rfl
    · cases ho
  | blacklist arg =>
    simp only [parseOpt] at ho
    obtain ⟨l, hadd, hok⟩ := except_bind_ok ho
    cases hok
    obtain ⟨hother, s, hs, rfl⟩ := addSubnet_ok hadd
    refine ⟨?_, ?_, .inr hother⟩
    · have hb : blacklists (opts ++ [.blacklist arg]) = blacklists opts ++ [arg] := by simp [blacklists]
      rw [hb]
      exact List.rel_append h.blacklisted (.cons hs .nil)
    · have hw : whitelists (opts ++ [.blacklist arg]) = whitelists opts := by simp [whitelists]
      rw [hw]
      exact h.whitelisted
  | whitelist arg =>
    simp only [parseOpt] at ho
    obtain ⟨l, hadd, hok⟩ := except_bind_ok ho
    cases hok
    obtain ⟨hother, s, hs, rfl⟩ := addSubnet_ok hadd
    refine ⟨?_, ?_, .inl hother⟩
    · have hb : blacklists (opts ++ [.whitelist arg]) = blacklists opts := by simp [blacklists]
      rw [hb]
      exact h.blacklisted
    · have hw : whitelists (opts ++ [.whitelist arg]) = whitelists opts ++ [arg] := by simp [whitelists]
      rw [hw]
      exact List.rel_append h.whitelisted (.cons hs .nil)

theorem read_foldlM (h : opts.foldlM (parseOpt u users) {} = .ok o) : Read u opts o := by
  induction opts using List.reverseRecOn generalizing o with
  | nil =>
    cases h
    exact ⟨.nil, .nil, .inl rfl⟩
  | append_singleton opts opt ih =>
    rw [List.foldlM_append] at h
    obtain ⟨o₁, hpre, hlast⟩ := except_bind_ok h
    rw [List.foldlM_cons] at hlast
    obtain ⟨o₂, hone, hnil⟩ := except_bind_ok hlast
    cases hnil
    exact (ih hpre).step hone

/-- **The options that `parse_opts` accepts.** -/
theorem parseOpts_ok (h : parseOpts u users opts = .ok o) : Read u opts o := by
  obtain ⟨o₁, hall, hif⟩ := except_bind_ok h
  split at hif
  · cases hif
  · cases hif
    exact read_foldlM hall

end Opts

end Dockerset.MdnsRepeater
