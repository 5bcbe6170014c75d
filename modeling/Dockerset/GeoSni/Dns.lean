import Dockerset.Go.Strings
import Mathlib.Logic.Relation

/-!
# Rewriting DNS answers (`internal/dns/dns.go`)

`rewriteAnswers` goes over the records of an answer one by one and sends the
names that a matcher selects to a local address. What a client makes of an
answer is another matter: it follows aliases from the name it asked for to the
names that own addresses. `Reachable` is what it finds, and the rewrite is
described by what is reachable before and after.

Domain names are kept as the DNS library prints them. They are equal when they
differ in the case of letters only.
-/

namespace Dockerset.GeoSni
open Go

/-- The record types that have no place of their own in `RData`. -/
abbrev OtherType := { t : UInt16 // t ∉ [1, 5, 28, 64, 65] }

/-- The data of a record. Its constructor is the record's type. -/
inductive RData (IP : Type) where
  | a (ip : IP)
  | aaaa (ip : IP)
  | cname (target : Str)
  | svcb (rdata : List UInt8)
  | https (rdata : List UInt8)
  | other (rrtype : OtherType) (rdata : List UInt8)
deriving DecidableEq

/-- A resource record: the fields of its header, and its data. -/
structure RR (IP : Type) where
  name : Str
  cls : UInt16
  ttl : UInt32
  data : RData IP
deriving DecidableEq

section

variable {IP : Type}

/-- One record of the loop in `rewriteAnswers`; the state is `out` and `changed`. -/
def rewriteRecord (matchName : Str → Bool) (ipA : IP) (s : List (RR IP) × Bool) (rr : RR IP) :
    List (RR IP) × Bool :=
  let name := trimSuffix rr.name ['.']
  if matchName name then
    match rr.data with
    -- the class is dns.ClassINET
    | .a _ => (s.1 ++ [⟨rr.name, 1, rr.ttl, .a ipA⟩], true)
    | .aaaa _ => (s.1, true)
    | .cname _ => (s.1 ++ [⟨rr.name, 1, rr.ttl, .a ipA⟩], true)
    | .https _ | .svcb _ => (s.1, true)
    | .other _ _ => (s.1 ++ [rr], s.2)
  else (s.1 ++ [rr], s.2)

/-- `rewriteAnswers(match, answers, ipA)`. -/
def rewriteAnswers (matchName : Str → Bool) (answers : List (RR IP)) (ipA : IP) :
    List (RR IP) × Bool :=
  answers.foldl (rewriteRecord matchName ipA) ([], false)

/-! ## What a client finds -/

/-- The record belongs to the name. -/
def RR.OwnedBy (rr : RR IP) (name : Str) : Prop := EqualFold rr.name name

instance (rr : RR IP) (name : Str) : Decidable (rr.OwnedBy name) :=
  inferInstanceAs (Decidable (EqualFold rr.name name))

/-- An alias of `name` in `l` leads to `target`. -/
def Alias (l : List (RR IP)) (name target : Str) : Prop :=
  ∃ rr ∈ l, rr.OwnedBy name ∧ rr.data = .cname target

/-- The name owns the address. -/
def HasAddress (l : List (RR IP)) (name : Str) (ip : IP) : Prop :=
  ∃ rr ∈ l, rr.OwnedBy name ∧ (rr.data = .a ip ∨ rr.data = .aaaa ip)

/-- The address is found from `q` by following aliases. -/
def Reachable (l : List (RR IP)) (q : Str) (ip : IP) : Prop :=
  ∃ name, Relation.ReflTransGen (Alias l) q name ∧ HasAddress l name ip

/-- The matcher selects the name. -/
abbrev Matched (matchName : Str → Bool) (name : Str) : Prop :=
  matchName (trimSuffix name ['.']) = true

/-- An alias of a name that the matcher does not select. -/
def OpenAlias (matchName : Str → Bool) (l : List (RR IP)) (name target : Str) : Prop :=
  ¬ Matched matchName name ∧ Alias l name target

/-- `target` is reached from `q` through aliases of unselected names only. -/
abbrev OpenlyReaches (matchName : Str → Bool) (l : List (RR IP)) (q target : Str) : Prop :=
  Relation.ReflTransGen (OpenAlias matchName l) q target

/-- The name owns a record that the rewrite turns into an address record. -/
def Redirected (l : List (RR IP)) (name : Str) : Prop :=
  ∃ rr ∈ l, rr.OwnedBy name ∧ ((∃ ip, rr.data = .a ip) ∨ ∃ target, rr.data = .cname target)

/-! ## The rewrite, record by record -/

/-- What becomes of one record. -/
def rewritten (matchName : Str → Bool) (ipA : IP) (rr : RR IP) : List (RR IP) :=
  (rewriteRecord matchName ipA ([], false) rr).1

variable {matchName : Str → Bool} {ipA ip : IP} {rr rr' : RR IP} {answers : List (RR IP)}
  {name target q : Str}

theorem rewriteRecord_out (s : List (RR IP) × Bool) :
    (rewriteRecord matchName ipA s rr).1 = s.1 ++ rewritten matchName ipA rr := by
  simp only [rewritten, rewriteRecord]
  split
  · split <;> simp
  · simp

theorem rewriteAnswers_out :
    (rewriteAnswers matchName answers ipA).1 = answers.flatMap (rewritten matchName ipA) := by
  have go : ∀ s : List (RR IP) × Bool, (answers.foldl (rewriteRecord matchName ipA) s).1 =
      s.1 ++ answers.flatMap (rewritten matchName ipA) := by
    induction answers with
    | nil => simp
    | cons rr rest ih =>
      intro s
      rw [List.foldl_cons, ih, rewriteRecord_out, List.flatMap_cons, List.append_assoc]
  exact go ([], false)

theorem mem_rewriteAnswers : rr' ∈ (rewriteAnswers matchName answers ipA).1 ↔
    ∃ rr ∈ answers, rr' ∈ rewritten matchName ipA rr := by
  rw [rewriteAnswers_out, List.mem_flatMap]

theorem rewritten_of_unmatched (h : ¬ Matched matchName rr.name) : rewritten matchName ipA rr = [rr] := by
  simp only [rewritten, rewriteRecord, if_neg h, List.nil_append]

/-- What becomes of the record of a selected name: it is turned into an address
record, or it stays, and then it is neither address nor alias. -/
theorem mem_rewritten_of_matched (h : Matched matchName rr.name) :
    rr' ∈ rewritten matchName ipA rr ↔
      (rr' = ⟨rr.name, 1, rr.ttl, .a ipA⟩ ∧ ((∃ ip, rr.data = .a ip) ∨ ∃ t, rr.data = .cname t)) ∨
      (rr' = rr ∧ ∃ t d, rr.data = .other t d) := by
  simp only [rewritten, rewriteRecord, if_pos h]
  cases rr.data <;> simp

theorem name_of_mem_rewritten (h : rr' ∈ rewritten matchName ipA rr) : rr'.name = rr.name := by
  by_cases hm : Matched matchName rr.name
  · rcases (mem_rewritten_of_matched hm).1 h with ⟨h, -⟩ | ⟨h, -⟩ <;> rw [h]
  · rw [rewritten_of_unmatched hm, List.mem_singleton] at h
    rw [h]

/-- **Records of unselected names are kept, in order.** -/
theorem filter_rewriteAnswers :
    (rewriteAnswers matchName answers ipA).1.filter (fun rr => !matchName (trimSuffix rr.name ['.'])) =
      answers.filter fun rr => !matchName (trimSuffix rr.name ['.']) := by
  rw [rewriteAnswers_out]
  induction answers with
  | nil => rfl
  | cons rr rest ih =>
    rw [List.flatMap_cons, List.filter_append, ih]
    by_cases hm : Matched matchName rr.name
    · have hnone : (rewritten matchName ipA rr).filter
          (fun rr => !matchName (trimSuffix rr.name ['.'])) = [] := by
        apply List.filter_eq_nil_iff.2
        intro rr' hrr'
        rw [name_of_mem_rewritten hrr', hm]
        simp
      rw [hnone, List.filter_cons_of_neg (by simp [hm])]
      rfl
    · rw [rewritten_of_unmatched hm, List.filter_cons_of_pos (by simpa using hm),
        List.filter_cons_of_pos (by simpa using hm)]
      rfl

/-! ## What a client finds in the rewritten answer -/

section Fold

variable (hfold : ∀ s t, EqualFold s t → matchName s = matchName t)

include hfold

theorem matched_of_ownedBy (h : rr.OwnedBy name) : Matched matchName rr.name ↔ Matched matchName name := by
  rw [Matched, hfold _ _ (EqualFold.trimSuffix_dot h)]

theorem alias_rewriteAnswers :
    Alias (rewriteAnswers matchName answers ipA).1 name target ↔
      OpenAlias matchName answers name target := by
  constructor
  · rintro ⟨rr', hmem, hown, hdata⟩
    obtain ⟨rr, hrr, hmem⟩ := mem_rewriteAnswers.1 hmem
    by_cases hm : Matched matchName rr.name
    · rcases (mem_rewritten_of_matched hm).1 hmem with ⟨h, -⟩ | ⟨h, t, d, ho⟩
      · rw [h] at hdata
        cases hdata
      · rw [h, ho] at hdata
        cases hdata
    · rw [rewritten_of_unmatched hm, List.mem_singleton] at hmem
      subst hmem
      exact ⟨fun h => hm ((matched_of_ownedBy hfold hown).2 h), rr', hrr, hown, hdata⟩
  · rintro ⟨hm, rr, hrr, hown, hdata⟩
    have hm' : ¬ Matched matchName rr.name := fun h => hm ((matched_of_ownedBy hfold hown).1 h)
    refine ⟨rr, mem_rewriteAnswers.2 ⟨rr, hrr, ?_⟩, hown, hdata⟩
    rw [rewritten_of_unmatched hm']
    exact List.mem_singleton_self rr

/-- A selected name owns the local address if anything of it was redirected; an
unselected name owns what it owned. -/
theorem hasAddress_rewriteAnswers :
    HasAddress (rewriteAnswers matchName answers ipA).1 name ip ↔
      (Matched matchName name ∧ ip = ipA ∧ Redirected answers name) ∨
      (¬ Matched matchName name ∧ HasAddress answers name ip) := by
  constructor
  · rintro ⟨rr', hmem, hown, hdata⟩
    obtain ⟨rr, hrr, hmem⟩ := mem_rewriteAnswers.1 hmem
    have hown' : rr.OwnedBy name := by
      rw [RR.OwnedBy, ← name_of_mem_rewritten hmem]
      exact hown
    by_cases hm : Matched matchName rr.name
    · left
      refine ⟨(matched_of_ownedBy hfold hown').1 hm, ?_⟩
      rcases (mem_rewritten_of_matched hm).1 hmem with ⟨h, hred⟩ | ⟨h, t, d, ho⟩
      · rw [h] at hdata
        exact ⟨by simpa [eq_comm] using hdata, rr, hrr, hown', hred⟩
      · rw [h, ho] at hdata
        simp at hdata
    · rw [rewritten_of_unmatched hm, List.mem_singleton] at hmem
      subst hmem
      exact .inr ⟨fun h => hm ((matched_of_ownedBy hfold hown).2 h), rr', hrr, hown, hdata⟩
  · rintro (⟨hm, rfl, rr, hrr, hown, hred⟩ | ⟨hm, rr, hrr, hown, hdata⟩)
    · have hm' := (matched_of_ownedBy hfold hown).2 hm
      refine ⟨⟨rr.name, 1, rr.ttl, .a ip⟩, mem_rewriteAnswers.2 ⟨rr, hrr, ?_⟩, hown, .inl rfl⟩
      exact (mem_rewritten_of_matched hm').2 (.inl ⟨rfl, hred⟩)
    · have hm' : ¬ Matched matchName rr.name := fun h => hm ((matched_of_ownedBy hfold hown).1 h)
      refine ⟨rr, mem_rewriteAnswers.2 ⟨rr, hrr, ?_⟩, hown, hdata⟩
      rw [rewritten_of_unmatched hm']
      exact List.mem_singleton_self rr

/-- **The rewrite redirects exactly the selected names.** From any name a client
finds the local address if it comes, through aliases of unselected names, to a
selected name with an address or alias, and it finds the addresses of the
unselected names it comes to. The records of unselected names are untouched. -/
theorem rewriteAnswers_redirects (answers : List (RR IP)) (q : Str) (ipA : IP) :
    (∀ ip, Reachable (rewriteAnswers matchName answers ipA).1 q ip ↔
      (ip = ipA ∧ ∃ n, OpenlyReaches matchName answers q n ∧ Matched matchName n ∧ Redirected answers n) ∨
      ∃ n, OpenlyReaches matchName answers q n ∧ ¬ Matched matchName n ∧ HasAddress answers n ip) ∧
    (rewriteAnswers matchName answers ipA).1.filter (fun rr => !matchName (trimSuffix rr.name ['.'])) =
      answers.filter fun rr => !matchName (trimSuffix rr.name ['.']) := by
  have halias : Alias (rewriteAnswers matchName answers ipA).1 = OpenAlias matchName answers := by
    funext n t
    exact propext (alias_rewriteAnswers hfold)
  refine ⟨fun ip => ?_, filter_rewriteAnswers⟩
  rw [Reachable, halias]
  constructor
  · rintro ⟨n, hreach, haddr⟩
    rcases (hasAddress_rewriteAnswers hfold).1 haddr with ⟨hm, hip, hred⟩ | ⟨hm, haddr⟩
    · exact .inl ⟨hip, n, hreach, hm, hred⟩
    · exact .inr ⟨n, hreach, hm, haddr⟩
  · rintro (⟨hip, n, hreach, hm, hred⟩ | ⟨n, hreach, hm, haddr⟩)
    · exact ⟨n, hreach, (hasAddress_rewriteAnswers hfold).2 (.inl ⟨hm, hip, hred⟩)⟩
    · exact ⟨n, hreach, (hasAddress_rewriteAnswers hfold).2 (.inr ⟨hm, haddr⟩)⟩

end Fold

end

/-- An alias of an unselected name to a selected one. -/
def aliasAnswers : List (RR Nat) :=
  [⟨"www.a.".toList, 1, 60, .cname "B.".toList⟩, ⟨"b.".toList, 1, 60, .a 5⟩]

theorem rewriteAnswers_redirects_alias :
    Reachable (rewriteAnswers (fun s => decide (EqualFold s "b".toList)) aliasAnswers 7).1
      "www.a.".toList 7 := by
  have hfold : ∀ s t : Str, EqualFold s t →
      decide (EqualFold s "b".toList) = decide (EqualFold t "b".toList) := by
    intro s t h
    rw [decide_eq_decide]
    exact ⟨h.symm.trans, h.trans⟩
  apply ((rewriteAnswers_redirects hfold aliasAnswers "www.a.".toList 7).1 7).2
  left
  refine ⟨rfl, "B.".toList, Relation.ReflTransGen.single ⟨by decide, ?_⟩, by decide, ?_⟩
  · exact ⟨_, List.mem_cons_self, by decide, rfl⟩
  · exact ⟨_, List.mem_cons_of_mem _ (List.mem_singleton_self _), by decide, .inl ⟨5, rfl⟩⟩

end Dockerset.GeoSni
