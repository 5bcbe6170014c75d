import Dockerset.CidrChecker.Checker
import Dockerset.Data.LastWith

/-!
# Which networks the checker admits

The loops of `getCIDR` are one fold over the networks of the interface, in their
order (`addResponse_eq`). What they leave is that of a simpler machine on lists
(`Shadow`): the second list is always the first one with one prefix behind it, and
if the array had room for that prefix, the next address of the first list takes its
place. So at most the last prefix is in the result.
-/

namespace Dockerset.CidrChecker
open Go Data

/-- A network of the interface, as the loops come to it. -/
inductive Found where
  | address (cidr : Str)
  | assigned (cidr : Str)
deriving DecidableEq

def Interface.found (iface : Str) (i : Interface) : List Found :=
  if i.interface = iface then
    i.ipv4Address.map (fun addr => .address addr.cidr) ++
      i.ipv6PrefixAssignment.map (fun addr => .assigned addr.cidr)
  else []

def Result.found (iface : Str) (r : Result) : List Found :=
  match r.realResult with
  | none => []
  | some realResult => realResult.interface.flatMap (Interface.found iface)

/-- The networks of the interface in a response, in order. -/
def found (iface : Str) (response : Welcome) : List Found :=
  response.flatMap fun w => w.result.flatMap (Result.found iface)

def Lists.add (g : Growth) (l : Lists) : Found → Lists
  | .address cidr => l.addIpv4 g cidr
  | .assigned cidr => l.addIpv6 g cidr

variable {g : Growth} {iface : Str}

theorem addInterface_eq (l : Lists) (i : Interface) :
    l.addInterface g iface i = (i.found iface).foldl (Lists.add g) l := by
  unfold Lists.addInterface Interface.found
  split
  · simp only [List.foldl_append, List.foldl_map]
    rfl
  · rfl

theorem addResult_eq (l : Lists) (r : Result) :
    l.addResult g iface r = (r.found iface).foldl (Lists.add g) l := by
  unfold Lists.addResult Result.found
  cases r.realResult with
  | none => rfl
  | some realResult =>
    simp only [List.foldl_flatMap]
    congr 1
    funext l i
    exact addInterface_eq l i

theorem addResponse_eq {response : Welcome} (h : ∀ w ∈ response, w.error = none) (l : Lists) :
    l.addResponse g iface response = .ok ((found iface response).foldl (Lists.add g) l) := by
  induction response generalizing l with
  | nil => rfl
  | cons w response ih =>
    have hw := h w (List.mem_cons_self ..)
    have hresult : w.result.foldl (Lists.addResult g iface) l =
        (w.result.flatMap (Result.found iface)).foldl (Lists.add g) l := by
      rw [List.foldl_flatMap]
      congr 1
      funext l r
      exact addResult_eq l r
    rw [Lists.addResponse, hw, hresult, found, List.flatMap_cons, List.foldl_append]
    exact ih (fun w' hw' => h w' (List.mem_cons_of_mem _ hw')) _

/-! ## The two lists without their arrays -/

/-- The capacity of a slice that has grown to a length one element at a time. -/
def capAt (g : Growth) : Nat → Nat
  | 0 => 0
  | n + 1 => if capAt g n < n + 1 then g.newCap (capAt g n) (n + 1) else capAt g n

/-- The two lists, and whether the last element of the second one is in the room behind the first. -/
structure Shadow where
  ipv4 : List Str
  ipv6 : List Str
  exposed : Bool

def Shadow.empty : Shadow := ⟨[], [], false⟩

def Shadow.add (g : Growth) (a : Shadow) : Found → Shadow
  | .address cidr => ⟨a.ipv4 ++ [cidr], if a.exposed then a.ipv4 ++ [cidr] else a.ipv6, false⟩
  | .assigned cidr =>
    ⟨a.ipv4, a.ipv4 ++ [cidr], decide (a.ipv4.length < capAt g a.ipv4.length)⟩

/-- The slices read as the lists. -/
structure Shadows (g : Growth) (l : Lists) (a : Shadow) : Prop where
  valid4 : l.ipv4.Valid l.heap
  valid6 : l.ipv6.Valid l.heap
  read4 : l.ipv4.read l.heap = a.ipv4
  read6 : l.ipv6.read l.heap = a.ipv6
  cap4 : l.ipv4.cap = capAt g a.ipv4.length
  exposed : a.exposed = true →
    l.ipv6.array = l.ipv4.array ∧ l.ipv6.len = l.ipv4.len + 1 ∧ ¬ l.ipv4.Full 1
  hidden : a.exposed = false →
    l.ipv4.Full 1 ∨ l.ipv4.array ≠ l.ipv6.array ∨ l.ipv6.len ≤ l.ipv4.len

variable {l : Lists} {a : Shadow}

theorem shadows_empty (g : Growth) : Shadows g .empty .empty where
  valid4 := Slice.valid_nil _
  valid6 := Slice.valid_nil _
  read4 := rfl
  read6 := rfl
  cap4 := rfl
  exposed h := by cases h
  hidden _ := .inr (.inr (Nat.le_refl 0))

theorem Shadows.length4 (h : Shadows g l a) : a.ipv4.length = l.ipv4.len := by
  rw [← h.read4, h.valid4.length_read]

theorem Shadows.full_iff (h : Shadows g l a) :
    l.ipv4.Full 1 ↔ ¬ a.ipv4.length < capAt g a.ipv4.length := by
  rw [← h.cap4, h.length4]
  unfold Slice.Full
  omega

theorem Shadows.cap_append (h : Shadows g l a) (cidr : Str) :
    (l.ipv4.append g l.heap [cidr]).1.cap = capAt g (a.ipv4.length + 1) := by
  have hlen := h.length4
  have hcap := h.cap4
  rw [capAt, ← hcap, hlen]
  by_cases hfull : l.ipv4.cap < l.ipv4.len + 1
  · rw [if_pos hfull, Slice.append_of_full (show l.ipv4.Full [cidr].length from hfull)]
    rfl
  · rw [if_neg hfull, Slice.append_of_not_full (show ¬ l.ipv4.Full [cidr].length from hfull)]

theorem Shadows.addIpv4 (h : Shadows g l a) (cidr : Str) :
    Shadows g (l.addIpv4 g cidr) (a.add g (.address cidr)) where
  valid4 := h.valid4.append
  valid6 := h.valid4.append_other h.valid6
  read4 := by
    change Slice.read _ _ = a.ipv4 ++ [cidr]
    rw [← h.read4]
    exact h.valid4.read_append
  read6 := by
    change Slice.read _ l.ipv6 = if a.exposed then a.ipv4 ++ [cidr] else a.ipv6
    cases hexposed : a.exposed with
    | true =>
      obtain ⟨harray, hlen, hroom⟩ := h.exposed hexposed
      rw [if_pos rfl, ← h.read4]
      exact h.valid4.read_append_shared hroom harray hlen
    | false =>
      rw [if_neg Bool.false_ne_true, ← h.read6]
      exact h.valid4.read_append_other h.valid6 (h.hidden hexposed)
  cap4 := by
    change (l.ipv4.append g l.heap [cidr]).1.cap = capAt g (a.ipv4 ++ [cidr]).length
    rw [List.length_append]
    exact h.cap_append cidr
  exposed hexposed := by cases hexposed
  hidden _ := by
    right
    change (l.ipv4.append g l.heap [cidr]).1.array ≠ l.ipv6.array ∨
      l.ipv6.len ≤ (l.ipv4.append g l.heap [cidr]).1.len
    by_cases hfull : l.ipv4.Full 1
    · -- The new array is not that of the prefixes.
      rw [Slice.append_of_full hfull]
      by_cases hzero : l.ipv6.len = 0
      · right
        omega
      · left
        have hle := h.valid6.le_cap
        have halloc := h.valid6.allocated (by omega)
        exact Nat.ne_of_gt halloc
    · rw [Slice.append_of_not_full hfull]
      cases hexposed : a.exposed with
      | true =>
        obtain ⟨-, hlen, -⟩ := h.exposed hexposed
        right
        exact Nat.le_of_eq hlen
      | false =>
        rcases h.hidden hexposed with hfull' | harray | hlen
        · exact absurd hfull' hfull
        · exact .inl harray
        · exact .inr (Nat.le_succ_of_le hlen)

theorem Shadows.addIpv6 (h : Shadows g l a) (cidr : Str) :
    Shadows g (l.addIpv6 g cidr) (a.add g (.assigned cidr)) where
  valid4 := h.valid4.append_other h.valid4
  valid6 := h.valid4.append
  read4 := by
    change Slice.read _ l.ipv4 = a.ipv4
    rw [← h.read4]
    exact h.valid4.read_append_other h.valid4 (.inr (.inr (Nat.le_refl _)))
  read6 := by
    change Slice.read _ _ = a.ipv4 ++ [cidr]
    rw [← h.read4]
    exact h.valid4.read_append
  cap4 := h.cap4
  exposed hexposed := by
    have hroom : ¬ l.ipv4.Full 1 := by
      rw [h.full_iff, not_not]
      exact of_decide_eq_true hexposed
    change (l.ipv4.append g l.heap [cidr]).1.array = l.ipv4.array ∧
      (l.ipv4.append g l.heap [cidr]).1.len = l.ipv4.len + 1 ∧ ¬ l.ipv4.Full 1
    rw [Slice.append_of_not_full hroom]
    exact ⟨rfl, rfl, hroom⟩
  hidden hexposed := .inl (h.full_iff.2 (of_decide_eq_false hexposed))

/-- The loops, on the lists. -/
theorem Shadows.fold (h : Shadows g l a) (fs : List Found) :
    Shadows g (fs.foldl (Lists.add g) l) (fs.foldl (Shadow.add g) a) := by
  induction fs generalizing l a with
  | nil => exact h
  | cons f fs ih =>
    cases f with
    | address cidr => exact ih (h.addIpv4 cidr)
    | assigned cidr => exact ih (h.addIpv6 cidr)

/-! ## What is in the lists at the end -/

/-- The networks of the addresses. -/
def addresses (fs : List Found) : List Str :=
  fs.filterMap fun
    | .address cidr => some cidr
    | .assigned _ => none

/-- There is room behind the addresses. -/
def Spare (g : Growth) (fs : List Found) : Prop :=
  (addresses fs).length < capAt g (addresses fs).length

instance (g : Growth) (fs : List Found) : Decidable (Spare g fs) := inferInstanceAs (Decidable (_ < _))

/-- The prefix is the last one, and no later address takes its place. -/
def Kept (g : Growth) (fs : List Found) (cidr : Str) : Prop :=
  ∃ earlier later, fs = earlier ++ .assigned cidr :: later ∧ (∀ p, .assigned p ∉ later) ∧
    (later = [] ∨ ¬ Spare g earlier)

variable {fs : List Found} {cidr p : Str}

theorem addresses_concat_address : addresses (fs ++ [.address cidr]) = addresses fs ++ [cidr] := by
  simp [addresses]

theorem addresses_concat_assigned : addresses (fs ++ [.assigned cidr]) = addresses fs := by
  simp [addresses]

theorem mem_addresses : cidr ∈ addresses fs ↔ .address cidr ∈ fs := by
  rw [addresses, List.mem_filterMap]
  constructor
  · rintro ⟨f, hf, hcidr⟩
    cases f with
    | address c =>
      rw [← Option.some.inj hcidr]
      exact hf
    | assigned c => cases hcidr
  · intro hf
    exact ⟨_, hf, rfl⟩

/-- The last thing found is a prefix, in the room behind the addresses. -/
def Exposed (g : Growth) (fs : List Found) : Prop :=
  ∃ earlier p, fs = earlier ++ [.assigned p] ∧ Spare g earlier

theorem last_assigned {earlier later : List Found} {x : Str}
    (h : fs ++ [.assigned p] = earlier ++ .assigned x :: later) (hlater : ∀ p, .assigned p ∉ later) :
    fs = earlier ∧ x = p := by
  rcases concat_eq_append_cons h with ⟨-, hfs, hp⟩ | ⟨rest, hrest, -⟩
  · injection hp with hp
    exact ⟨hfs, hp.symm⟩
  · exact absurd (by simp [hrest]) (hlater p)

theorem kept_concat_assigned {x : Str} : Kept g (fs ++ [.assigned p]) x ↔ x = p := by
  constructor
  · rintro ⟨earlier, later, heq, hlater, -⟩
    exact (last_assigned heq hlater).2
  · rintro rfl
    exact ⟨fs, [], rfl, by simp, .inl rfl⟩

theorem kept_concat_address {x : Str} :
    Kept g (fs ++ [.address cidr]) x ↔ Kept g fs x ∧ ¬ Exposed g fs := by
  constructor
  · rintro ⟨earlier, later, heq, hlater, hplace⟩
    rcases concat_eq_append_cons heq with ⟨-, -, hx⟩ | ⟨rest, rfl, hfs⟩
    · cases hx
    · have hfull : ¬ Spare g earlier := hplace.resolve_left (by simp)
      have hnone : ∀ p, .assigned p ∉ rest := fun p hp => hlater p (List.mem_append_left _ hp)
      refine ⟨⟨earlier, rest, hfs, hnone, .inr hfull⟩, ?_⟩
      rintro ⟨earlier', p, hfs', hspare⟩
      rw [hfs'] at hfs
      rw [(last_assigned hfs hnone).1] at hspare
      exact hfull hspare
  · rintro ⟨⟨earlier, later, rfl, hlater, hplace⟩, hhidden⟩
    refine ⟨earlier, later ++ [.address cidr], by simp, by simpa using hlater, .inr ?_⟩
    rcases hplace with rfl | hfull
    · intro hspare
      exact hhidden ⟨earlier, x, rfl, hspare⟩
    · exact hfull

/-- What the lists are after the networks found so far. -/
structure Describes (g : Growth) (fs : List Found) (a : Shadow) : Prop where
  ipv4 : a.ipv4 = addresses fs
  exposed : a.exposed = true ↔ Exposed g fs
  ipv6 : ∀ x, x ∈ a.ipv6 → x ∈ addresses fs ∨ Kept g fs x
  kept : ∀ x, Kept g fs x → x ∈ a.ipv6

theorem describes_empty (g : Growth) : Describes g [] .empty where
  ipv4 := rfl
  exposed := by simp [Shadow.empty, Exposed]
  ipv6 x hx := absurd hx List.not_mem_nil
  kept x hx := by
    obtain ⟨earlier, later, heq, -⟩ := hx
    simp at heq

theorem Describes.address (h : Describes g fs a) (cidr : Str) :
    Describes g (fs ++ [.address cidr]) (a.add g (.address cidr)) where
  ipv4 := by
    rw [addresses_concat_address, ← h.ipv4]
    rfl
  exposed := by
    constructor
    · intro hexposed
      cases hexposed
    · rintro ⟨earlier, p, heq, -⟩
      have hlast := List.singleton_inj.1 (List.append_inj' heq rfl).2
      cases hlast
  ipv6 x hx := by
    rw [addresses_concat_address, kept_concat_address, ← h.exposed, ← h.ipv4]
    change x ∈ if a.exposed then a.ipv4 ++ [cidr] else a.ipv6 at hx
    cases hexposed : a.exposed with
    | true =>
      rw [hexposed, if_pos rfl] at hx
      exact .inl hx
    | false =>
      rw [hexposed, if_neg Bool.false_ne_true] at hx
      rcases h.ipv6 x hx with hmem | hkept
      · left
        rw [h.ipv4]
        exact List.mem_append_left _ hmem
      · exact .inr ⟨hkept, Bool.false_ne_true⟩
  kept x hx := by
    rw [kept_concat_address, ← h.exposed, Bool.not_eq_true] at hx
    change x ∈ if a.exposed then a.ipv4 ++ [cidr] else a.ipv6
    rw [hx.2, if_neg Bool.false_ne_true]
    exact h.kept x hx.1

theorem Describes.assigned (h : Describes g fs a) (cidr : Str) :
    Describes g (fs ++ [.assigned cidr]) (a.add g (.assigned cidr)) where
  ipv4 := by
    rw [addresses_concat_assigned, ← h.ipv4]
    rfl
  exposed := by
    change decide (a.ipv4.length < capAt g a.ipv4.length) = true ↔ _
    rw [decide_eq_true_eq, h.ipv4]
    constructor
    · intro hspare
      exact ⟨fs, cidr, rfl, hspare⟩
    · rintro ⟨earlier, p, heq, hspare⟩
      rw [(List.append_inj' heq rfl).1]
      exact hspare
  ipv6 x hx := by
    rw [addresses_concat_assigned, kept_concat_assigned, ← h.ipv4]
    simpa [Shadow.add] using hx
  kept x hx := by
    rw [kept_concat_assigned] at hx
    simp [Shadow.add, hx]

theorem describes_fold (g : Growth) (fs : List Found) :
    Describes g fs (fs.foldl (Shadow.add g) .empty) := by
  induction fs using List.reverseRecOn with
  | nil => exact describes_empty g
  | append_singleton fs f ih =>
    rw [List.foldl_append]
    cases f with
    | address cidr => exact ih.address cidr
    | assigned cidr => exact ih.assigned cidr

/-- What the two lists hold together. -/
def Lists.cidrs (l : Lists) : List Str := l.ipv4.read l.heap ++ l.ipv6.read l.heap

/-- The two lists hold the addresses, and the prefix that is kept. -/
theorem mem_cidrs_iff (g : Growth) (fs : List Found) (x : Str) :
    x ∈ (fs.foldl (Lists.add g) .empty).cidrs ↔ .address x ∈ fs ∨ Kept g fs x := by
  have hshadows := (shadows_empty g).fold fs
  have hdescribes := describes_fold g fs
  rw [Lists.cidrs, hshadows.read4, hshadows.read6, List.mem_append, hdescribes.ipv4, mem_addresses]
  constructor
  · rintro (hmem | hmem)
    · exact .inl hmem
    · rw [← mem_addresses]
      exact hdescribes.ipv6 x hmem
  · rintro (hmem | hkept)
    · exact .inl hmem
    · exact .inr (hdescribes.kept x hkept)

/-! ## The answers -/

/-- A network of the interface in a response: of an IPv4 address or an IPv6 prefix assignment. -/
def Network (iface : Str) (response : Welcome) (cidr : Str) : Prop :=
  ∃ w ∈ response, ∃ r ∈ w.result, ∃ realResult, r.realResult = some realResult ∧
    ∃ i ∈ realResult.interface, i.interface = iface ∧
      ((∃ addr ∈ i.ipv4Address, addr.cidr = cidr) ∨ ∃ addr ∈ i.ipv6PrefixAssignment, addr.cidr = cidr)

theorem mem_found_interface {i : Interface} :
    .address cidr ∈ i.found iface ∨ .assigned cidr ∈ i.found iface ↔
      i.interface = iface ∧ ((∃ addr ∈ i.ipv4Address, addr.cidr = cidr) ∨
        ∃ addr ∈ i.ipv6PrefixAssignment, addr.cidr = cidr) := by
  unfold Interface.found
  by_cases h : i.interface = iface
  · simp [h]
  · simp [h]

theorem mem_found {f : Found} {response : Welcome} :
    f ∈ found iface response ↔ ∃ w ∈ response, ∃ r ∈ w.result, ∃ realResult,
      r.realResult = some realResult ∧ ∃ i ∈ realResult.interface, f ∈ i.found iface := by
  have hresult : ∀ r : Result, f ∈ r.found iface ↔ ∃ realResult,
      r.realResult = some realResult ∧ ∃ i ∈ realResult.interface, f ∈ i.found iface := by
    intro r
    unfold Result.found
    cases r.realResult with
    | none => simp
    | some realResult => simp
  simp only [found, List.mem_flatMap, hresult]

theorem network_iff {response : Welcome} :
    Network iface response cidr ↔
      .address cidr ∈ found iface response ∨ .assigned cidr ∈ found iface response := by
  simp only [Network, mem_found, ← mem_found_interface]
  constructor
  · rintro ⟨w, hw, r, hr, realResult, heq, i, hi, hmem | hmem⟩
    · exact .inl ⟨w, hw, r, hr, realResult, heq, i, hi, hmem⟩
    · exact .inr ⟨w, hw, r, hr, realResult, heq, i, hi, hmem⟩
  · rintro (⟨w, hw, r, hr, realResult, heq, i, hi, hmem⟩ | ⟨w, hw, r, hr, realResult, heq, i, hi, hmem⟩)
    · exact ⟨w, hw, r, hr, realResult, heq, i, hi, .inl hmem⟩
    · exact ⟨w, hw, r, hr, realResult, heq, i, hi, .inr hmem⟩

/-- Every prefix assignment is the last one and kept, or has the network of an address. -/
def NothingLost (g : Growth) (iface : Str) (response : Welcome) : Prop :=
  ∀ p, .assigned p ∈ found iface response →
    .address p ∈ found iface response ∨ Kept g (found iface response) p

section

variable {W : Type}

/-- The response that the handler goes by: at once, or after logging in again. -/
inductive Obtains (g : Growth) (iface : Str) (router : Router W) (response : Welcome) :
    Nat → Str → W → Prop
  | now {tries : Nat} {token : Str} {w : W} (h : (router.dump token w).1 = .response response) :
      Obtains g iface router response (tries + 1) token w
  | later {tries : Nat} {token token' : Str} {w w' : W}
      (hdenied : getCIDR g iface (router.dump token w).1 = .error accessDeniedErrMsg)
      (hauth : router.doAuth (router.dump token w).2 = (some token', w'))
      (h : Obtains g iface router response tries token' w') :
      Obtains g iface router response (tries + 1) token w

variable {router : Router W} {response : Welcome} {token : Str} {w : W}

theorem Obtains.fetchLists {tries : Nat} (h : Obtains g iface router response tries token w)
    {lists : Lists} (hlists : getCIDR g iface (.response response) = .ok lists) :
    (fetchLists g iface router tries token w).1 = some lists := by
  induction h with
  | now h => simp [CidrChecker.fetchLists, h, hlists]
  | later hdenied hauth _ ih => simp [CidrChecker.fetchLists, hdenied, hauth, ih]

end

theorem admits_iff {lists : Lists} (hvalid : lists.ipv4.Valid lists.heap) (net : Net) (ip : net.IP) :
    admits g net lists ip = .statusOk ↔
      ∃ cidr ∈ lists.cidrs, ∃ range, net.parseRange cidr = some range ∧ net.contains range ip = true := by
  have hjoined : (lists.ipv4.append g lists.heap (lists.ipv6.read lists.heap)).1.read
      (lists.ipv4.append g lists.heap (lists.ipv6.read lists.heap)).2 = lists.cidrs :=
    hvalid.read_append
  have hany : ((lists.cidrs.filterMap net.parseRange).any fun range => net.contains range ip) = true ↔
      ∃ cidr ∈ lists.cidrs, ∃ range, net.parseRange cidr = some range ∧
        net.contains range ip = true := by
    simp only [List.any_eq_true, List.mem_filterMap]
    constructor
    · rintro ⟨range, ⟨cidr, hmem, hparse⟩, hin⟩
      exact ⟨cidr, hmem, range, hparse, hin⟩
    · rintro ⟨cidr, hmem, range, hparse, hin⟩
      exact ⟨range, ⟨cidr, hmem, hparse⟩, hin⟩
  rw [← hany]
  simp only [admits, hjoined]
  split
  · next h => simp [h]
  · next h => simp [h]

theorem httpHandler_eq_admits {W : Type} {router : Router W} {net : Net} {response : Welcome}
    {lists : Lists} {realIP token : Str} {w : W} {ip : net.IP}
    (hlists : getCIDR g iface (.response response) = .ok lists)
    (hobtains : Obtains g iface router response failedCountLimit token w) (hreal : realIP ≠ [])
    (hip : net.parseIP realIP = some ip) :
    (httpHandler g iface net router realIP token w).1 = admits g net lists ip := by
  have hfetch := hobtains.fetchLists hlists
  rcases hpair : fetchLists g iface router failedCountLimit token w with ⟨fetched, token', w'⟩
  rw [hpair] at hfetch
  change fetched = some lists at hfetch
  subst hfetch
  rw [httpHandler, if_neg hreal, hip]
  simp only [hpair]

theorem cidrs_exact_iff (g : Growth) (iface : Str) (response : Welcome) :
    (∀ cidr, cidr ∈ ((found iface response).foldl (Lists.add g) .empty).cidrs ↔
      Network iface response cidr) ↔ NothingLost g iface response := by
  constructor
  · intro hexact p hp
    exact (mem_cidrs_iff g _ p).1 ((hexact p).2 (network_iff.2 (.inr hp)))
  · intro hlost cidr
    rw [mem_cidrs_iff, network_iff]
    constructor
    · rintro (hmem | ⟨earlier, later, heq, -⟩)
      · exact .inl hmem
      · right
        rw [heq]
        simp
    · rintro (hmem | hmem)
      · exact .inl hmem
      · exact hlost cidr hmem

/-- The checker goes by the networks of the interface just if no prefix is lost. -/
theorem admits_exactly_iff (g : Growth) (iface : Str) (net : Net) (response : Welcome)
    (hok : ∀ w ∈ response, w.error = none) :
    ((∃ lists, getCIDR g iface (.response response) = .ok lists ∧
        ∀ cidr, cidr ∈ lists.cidrs ↔ Network iface response cidr) ∧
      ∀ (W : Type) (router : Router W) (realIP token : Str) (w : W) (ip : net.IP),
        Obtains g iface router response failedCountLimit token w →
        realIP ≠ [] → net.parseIP realIP = some ip →
        ((httpHandler g iface net router realIP token w).1 = .statusOk ↔
          ∃ cidr, Network iface response cidr ∧
            ∃ range, net.parseRange cidr = some range ∧ net.contains range ip = true)) ↔
    NothingLost g iface response := by
  have hlists : getCIDR g iface (.response response) =
      .ok ((found iface response).foldl (Lists.add g) .empty) := addResponse_eq hok .empty
  rw [← cidrs_exact_iff]
  constructor
  · rintro ⟨⟨lists, hget, hexact⟩, -⟩
    rw [hlists] at hget
    injection hget with hget
    rw [hget]
    exact hexact
  · intro hexact
    refine ⟨⟨_, hlists, hexact⟩, ?_⟩
    intro W router realIP token w ip hobtains hreal hip
    have hvalid := ((shadows_empty g).fold (found iface response)).valid4
    rw [httpHandler_eq_admits hlists hobtains hreal hip, admits_iff hvalid]
    simp only [hexact]

/-- Room for twice as much. -/
def doubling : Growth where
  newCap oldCap len := max len (2 * oldCap)
  le_newCap _ _ := Nat.le_max_left ..

/-- Addresses and ranges as they are written; a range is one address. -/
def plainNet : Net where
  IP := Str
  Range := Str
  parseIP := some
  parseRange := some
  contains range ip := decide (range = ip)

def responseWith (addrs : List Ipv4Address) (assigned : List Ipv6) : Welcome :=
  [⟨[⟨none⟩, ⟨some ⟨[⟨"lan", addrs, assigned⟩]⟩⟩], none⟩]

theorem admits_exactly_one_prefix :
    ∃ lists, getCIDR doubling "lan" (.response (responseWith [⟨"10.0.0.1", 24⟩] [⟨"fd00::", 64⟩])) =
        .ok lists ∧
      ∀ cidr, cidr ∈ lists.cidrs ↔
        Network "lan" (responseWith [⟨"10.0.0.1", 24⟩] [⟨"fd00::", 64⟩]) cidr := by
  apply ((admits_exactly_iff doubling "lan" plainNet _ (by decide +kernel)).2 _).1
  intro p hp
  right
  have hfound : found "lan" (responseWith [⟨"10.0.0.1", 24⟩] [⟨"fd00::", 64⟩]) =
      [.address (sprintfCidr "10.0.0.1" 24), .assigned (sprintfCidr "fd00::" 64)] := by
    decide +kernel
  rw [hfound] at hp ⊢
  have hcidr : p = sprintfCidr "fd00::" 64 := by simpa using hp
  rw [hcidr]
  exact ⟨[.address (sprintfCidr "10.0.0.1" 24)], [], rfl, by simp, .inl rfl⟩

/-- Of two prefixes the first one is lost. -/
theorem first_prefix_lost :
    (∀ w ∈ responseWith [] [⟨"fd00::", 64⟩, ⟨"fd01::", 64⟩], w.error = none) ∧
    Network "lan" (responseWith [] [⟨"fd00::", 64⟩, ⟨"fd01::", 64⟩]) (sprintfCidr "fd00::" 64) ∧
    ∀ lists, getCIDR doubling "lan" (.response (responseWith [] [⟨"fd00::", 64⟩, ⟨"fd01::", 64⟩])) =
      .ok lists → sprintfCidr "fd00::" 64 ∉ lists.cidrs := by
  refine ⟨by decide +kernel, ?_, ?_⟩
  · rw [network_iff]
    decide +kernel
  · intro lists hget
    have hnone : (getCIDR doubling "lan"
        (.response (responseWith [] [⟨"fd00::", 64⟩, ⟨"fd01::", 64⟩]))).toOption.map Lists.cidrs =
        some [sprintfCidr "fd01::" 64] := by
      decide +kernel
    rw [hget] at hnone
    injection hnone with hcidrs
    rw [hcidrs]
    decide +kernel

end Dockerset.CidrChecker
