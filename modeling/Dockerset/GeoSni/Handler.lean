import Dockerset.GeoSni.Dns

/-!
# Answering DNS queries (`internal/dns/dns.go`)

The handler asks the upstream server the client's questions, copies the three
sections of its reply and rewrites the first of them. The records of the other
two, and those of names that the matcher does not select, reach the client as
they came.

`SetReply` and `Exchange` belong to the DNS library and are parameters: `setReply`, of
which the handler needs that it adds no records, and `exchange`, what comes back over
a transport for a message.
-/

namespace Dockerset.GeoSni
open Go

structure Question where
  name : Str
  qtype : UInt16
  qclass : UInt16
deriving DecidableEq

structure MsgHdr where
  id : UInt16
  response : Bool
  opcode : Nat
  authoritative : Bool
  truncated : Bool
  recursionDesired : Bool
  recursionAvailable : Bool
  checkingDisabled : Bool
  rcode : Nat
deriving DecidableEq

structure Msg (IP : Type) where
  hdr : MsgHdr
  question : List Question
  answer : List (RR IP)
  ns : List (RR IP)
  extra : List (RR IP)
deriving DecidableEq

inductive Transport where
  | udp
  | tcp
deriving DecidableEq

section

variable {IP : Type}

/-- `new(Msg)`. -/
def Msg.zero : Msg IP := ⟨⟨0, false, 0, false, false, false, false, false, 0⟩, [], [], [], []⟩

/-- `resp.SetReply(r)` leaves the records of `resp` alone. -/
structure SetsReply (setReply : Msg IP → Msg IP → Msg IP) : Prop where
  answer : ∀ resp r, (setReply resp r).answer = resp.answer
  ns : ∀ resp r, (setReply resp r).ns = resp.ns
  extra : ∀ resp r, (setReply resp r).extra = resp.extra

/-- `queryUpstreamMsg(upstream, r)`: again over TCP when UDP fails or the reply is
truncated. -/
def queryUpstreamMsg (exchange : Transport → Msg IP → Except Str (Option (Msg IP))) (r : Msg IP) :
    Option (Msg IP) :=
  let msg : Msg IP :=
    { Msg.zero with
      hdr := { (Msg.zero : Msg IP).hdr with recursionDesired := r.hdr.recursionDesired }
      question := r.question }
  let again := (exchange .tcp msg).toOption.join
  match exchange .udp msg with
  | .error _ => again
  | .ok none => none
  | .ok (some resp) => if resp.hdr.truncated then again else some resp

/-- The reply with what the upstream server has said. -/
def Msg.copyUpstream (resp up : Msg IP) : Msg IP :=
  { resp with
    hdr :=
      { resp.hdr with
        rcode := up.hdr.rcode
        recursionAvailable := up.hdr.recursionAvailable
        authoritative := up.hdr.authoritative
        truncated := up.hdr.truncated }
    answer := resp.answer ++ up.answer
    ns := resp.ns ++ up.ns
    extra := resp.extra ++ up.extra }

/-- The reply that the handler of `StartServer` writes. -/
def handleQuery (setReply : Msg IP → Msg IP → Msg IP) (matchName : Str → Bool) (ipA : IP)
    (exchange : Transport → Msg IP → Except Str (Option (Msg IP))) (r : Msg IP) : Msg IP :=
  let resp : Msg IP :=
    match queryUpstreamMsg exchange r with
    | none => setReply .zero r
    | some up => (setReply .zero r).copyUpstream up
  let rewrite := rewriteAnswers matchName resp.answer ipA
  if rewrite.2 then { resp with hdr := { resp.hdr with rcode := 0 }, answer := rewrite.1 } else resp

/-! ## The addresses in a reply -/

def Msg.records (m : Msg IP) : List (RR IP) := m.answer ++ m.ns ++ m.extra

/-- The record has no address, or it is an `A` record with the local address. -/
def RR.Local (ipA : IP) (rr : RR IP) : Prop :=
  match rr.data with
  | .a ip => ip = ipA
  | .aaaa _ => False
  | _ => True

variable {matchName : Str → Bool} {ipA : IP} {r : Msg IP} {answers : List (RR IP)} {rr : RR IP}
  {exchange : Transport → Msg IP → Except Str (Option (Msg IP))} {setReply : Msg IP → Msg IP → Msg IP}

theorem rewriteRecord_unchanged {s : List (RR IP) × Bool}
    (h : (rewriteRecord matchName ipA s rr).2 = false) :
    s.2 = false ∧ rewriteRecord matchName ipA s rr = (s.1 ++ [rr], false) := by
  unfold rewriteRecord at h ⊢
  dsimp only at h ⊢
  split_ifs at h ⊢ with hm
  · cases hd : rr.data <;> simp_all
  · exact ⟨h, by rw [h]⟩

theorem rewriteAnswers_unchanged (h : (rewriteAnswers matchName answers ipA).2 = false) :
    (rewriteAnswers matchName answers ipA).1 = answers := by
  have go : ∀ s : List (RR IP) × Bool, (answers.foldl (rewriteRecord matchName ipA) s).2 = false →
      s.2 = false ∧ (answers.foldl (rewriteRecord matchName ipA) s).1 = s.1 ++ answers := by
    clear h
    induction answers with
    | nil =>
      intro s hs
      exact ⟨hs, (List.append_nil _).symm⟩
    | cons rr rest ih =>
      intro s hs
      obtain ⟨hstep, hrest⟩ := ih _ hs
      obtain ⟨hstart, heq⟩ := rewriteRecord_unchanged hstep
      refine ⟨hstart, ?_⟩
      rw [List.foldl_cons, hrest, heq, List.append_assoc]
      rfl
  exact (go ([], false) h).2

/-- The answer section is the rewritten one, whether or not `changed` was set. -/
theorem handleQuery_sections (hreply : SetsReply setReply) (matchName : Str → Bool) (ipA : IP)
    {up : Msg IP} (hup : queryUpstreamMsg exchange r = some up) :
    (handleQuery setReply matchName ipA exchange r).answer =
      (rewriteAnswers matchName up.answer ipA).1 ∧
    (handleQuery setReply matchName ipA exchange r).ns = up.ns ∧
    (handleQuery setReply matchName ipA exchange r).extra = up.extra := by
  have hanswer : ((setReply .zero r).copyUpstream up).answer = up.answer := by
    rw [Msg.copyUpstream, hreply.answer]
    rfl
  have hns : ((setReply .zero r).copyUpstream up).ns = up.ns := by
    rw [Msg.copyUpstream, hreply.ns]
    rfl
  have hextra : ((setReply .zero r).copyUpstream up).extra = up.extra := by
    rw [Msg.copyUpstream, hreply.extra]
    rfl
  unfold handleQuery
  rw [hup]
  dsimp only
  rw [hanswer]
  split_ifs with hchanged
  · exact ⟨rfl, hns, hextra⟩
  · refine ⟨?_, hns, hextra⟩
    rw [rewriteAnswers_unchanged (Bool.eq_false_iff.2 hchanged), hanswer]

theorem handleQuery_no_upstream (hreply : SetsReply setReply)
    (hup : queryUpstreamMsg exchange r = none) :
    (handleQuery setReply matchName ipA exchange r).records = [] := by
  have hanswer : (setReply .zero r).answer = [] := hreply.answer .zero r
  unfold handleQuery
  rw [hup]
  dsimp only
  rw [hanswer]
  change (setReply .zero r).answer ++ (setReply .zero r).ns ++ (setReply .zero r).extra = []
  rw [hanswer, hreply.ns, hreply.extra]
  rfl

theorem rewriteAnswers_local_iff :
    (∀ rr ∈ (rewriteAnswers matchName answers ipA).1, rr.Local ipA) ↔
      ∀ rr ∈ answers, ¬ Matched matchName rr.name → rr.Local ipA := by
  constructor
  · intro h rr hrr hm
    apply h rr
    apply mem_rewriteAnswers.2
    refine ⟨rr, hrr, ?_⟩
    rw [rewritten_of_unmatched hm]
    exact List.mem_singleton_self rr
  · intro h rr' hmem
    obtain ⟨rr, hrr, hmem⟩ := mem_rewriteAnswers.1 hmem
    by_cases hm : Matched matchName rr.name
    · rcases (mem_rewritten_of_matched hm).1 hmem with ⟨heq, -⟩ | ⟨heq, t, d, hdata⟩
      · rw [heq]
        rfl
      · rw [heq, RR.Local, hdata]
        trivial
    · rw [rewritten_of_unmatched hm, List.mem_singleton] at hmem
      rw [hmem]
      exact h rr hrr hm

/-- **When a reply carries no address but the local one.** Every record that the
rewrite does not touch must be local in the upstream server's reply: those of
unselected names, and those of the authority and additional sections. -/
theorem handleQuery_local_iff (hreply : SetsReply setReply) (matchName : Str → Bool) (ipA : IP)
    (exchange : Transport → Msg IP → Except Str (Option (Msg IP))) (r : Msg IP) :
    (∀ rr ∈ (handleQuery setReply matchName ipA exchange r).records, rr.Local ipA) ↔
      ∀ up, queryUpstreamMsg exchange r = some up →
        (∀ rr ∈ up.answer, ¬ Matched matchName rr.name → rr.Local ipA) ∧
        ∀ rr ∈ up.ns ++ up.extra, rr.Local ipA := by
  cases hup : queryUpstreamMsg exchange r with
  | none =>
    rw [handleQuery_no_upstream hreply hup]
    simp
  | some up =>
    obtain ⟨hanswer, hns, hextra⟩ := handleQuery_sections hreply matchName ipA hup
    rw [Msg.records, hanswer, hns, hextra, List.append_assoc, List.forall_mem_append,
      rewriteAnswers_local_iff]
    simp

end

/-- A reply that has the questions of the query. -/
def asked (resp r : Msg Nat) : Msg Nat := { resp with question := r.question }

/-- An upstream server whose reply leads through an alias to the name `target`. -/
def aliasExchange (target : Str) (_ : Transport) (msg : Msg Nat) : Except Str (Option (Msg Nat)) :=
  .ok (some { msg with answer := [⟨"a.".toList, 1, 60, .cname target⟩, ⟨target, 1, 60, .a 9⟩] })

/-- With an alias of a selected name nothing but the local address is left. -/
theorem handleQuery_local_alias :
    SetsReply asked ∧
    ∀ rr ∈ (handleQuery asked (fun _ => true) 7 (aliasExchange "b.".toList) Msg.zero).records,
      rr.Local 7 := by
  have hreply : SetsReply asked := ⟨fun _ _ => rfl, fun _ _ => rfl, fun _ _ => rfl⟩
  refine ⟨hreply, (handleQuery_local_iff hreply _ 7 _ _).2 ?_⟩
  intro up hup
  cases hup
  exact ⟨fun rr _ hm => absurd rfl hm, by simp [Msg.zero]⟩

/-- The address of the alias's target reaches the client. -/
theorem handleQuery_leaks :
    let matchName : Str → Bool := fun s => s = "a".toList
    let r : Msg Nat := { Msg.zero with question := [⟨"a.".toList, 1, 1⟩] }
    (∀ q ∈ r.question, Matched matchName q.name) ∧
    ∃ rr ∈ (handleQuery asked matchName 7 (aliasExchange "cdn.".toList) r).records,
      rr.data = .a 9 := by
  decide

end Dockerset.GeoSni
