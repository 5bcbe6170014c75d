import Mathlib.Data.List.Basic

/-!
# Messages that arrive in any order

Messages are posted one after the other and each is delivered at most once, at any
time after that: nothing keeps one from overtaking another. `lastDelivered` is the
content of the message posted last among those delivered. Where messages write to a
register it is what the register ought to hold, and it does as long as nothing is
delivered that a message of other content has overtaken (`NotOvertaken`).
-/

namespace Dockerset.Data

variable {α β : Type}

/-- A message that was posted. -/
structure Posted (α : Type) where
  msg : α
  delivered : Bool := false
deriving DecidableEq

/-- Post the messages after those in the log. -/
def post (log : List (Posted α)) (msgs : List α) : List (Posted α) := log ++ msgs.map fun m => { msg := m }

/-- Deliver the message at an index of the log, unless it was delivered before. -/
def deliver (log : List (Posted α)) (i : Nat) : Option (α × List (Posted α)) :=
  match log[i]? with
  | some ⟨m, false⟩ => some (m, log.set i ⟨m, true⟩)
  | _ => none

/-- The content of the message posted last of those delivered; `content` says which
messages have one. -/
def lastDelivered (content : α → Option β) (log : List (Posted α)) : Option β :=
  ((log.filter fun p => p.delivered).filterMap fun p => content p.msg).getLast?

/-- No message posted after the one at `i` has been delivered, unless with the same content. -/
def NotOvertaken (content : α → Option β) (log : List (Posted α)) (i : Nat) : Prop :=
  ∀ p ∈ log[i]?, ∀ q ∈ log.drop (i + 1), q.delivered = true →
    ∀ b ∈ content p.msg, ∀ b' ∈ content q.msg, b' = b

instance [DecidableEq β] (content : α → Option β) (log : List (Posted α)) (i : Nat) :
    Decidable (NotOvertaken content log i) :=
  inferInstanceAs (Decidable (∀ p ∈ log[i]?, ∀ q ∈ log.drop (i + 1), q.delivered = true →
    ∀ b ∈ content p.msg, ∀ b' ∈ content q.msg, b' = b))

theorem getLast?_append_of_forall_eq {l r : List β} {b : β} (hr : r ≠ []) (h : ∀ x ∈ r, x = b) :
    (l ++ r).getLast? = some b := by
  rw [List.getLast?_append_of_ne_nil _ hr, List.getLast?_eq_some_getLast hr,
    h _ (List.getLast_mem hr)]

section

variable {content : α → Option β} {log log' : List (Posted α)} {m : α} {i : Nat} {b : β}

theorem deliver_eq_some (h : deliver log i = some (m, log')) :
    ∃ earlier later, log = earlier ++ ⟨m, false⟩ :: later ∧ log' = earlier ++ ⟨m, true⟩ :: later ∧
      i = earlier.length := by
  unfold deliver at h
  split at h
  · next hi =>
    obtain ⟨rfl, rfl⟩ := Prod.mk.inj (Option.some.inj h)
    obtain ⟨hlt, hget⟩ := List.getElem?_eq_some_iff.1 hi
    refine ⟨log.take i, log.drop (i + 1), ?_, ?_, ?_⟩
    · rw [← hget, List.getElem_cons_drop, List.take_append_drop]
    · rw [List.set_eq_take_append_cons_drop, if_pos hlt]
    · rw [List.length_take]
      omega
  · cases h

theorem map_msg_deliver (h : deliver log i = some (m, log')) :
    log'.map Posted.msg = log.map Posted.msg := by
  obtain ⟨earlier, later, rfl, rfl, -⟩ := deliver_eq_some h
  simp

theorem map_msg_post (log : List (Posted α)) (msgs : List α) :
    (post log msgs).map Posted.msg = log.map Posted.msg ++ msgs := by
  simp [post, Function.comp_def]

theorem lastDelivered_post (log : List (Posted α)) (msgs : List α) :
    lastDelivered content (post log msgs) = lastDelivered content log := by
  have hnone : (msgs.map fun m => ({ msg := m } : Posted α)).filter (fun p => p.delivered) = [] := by
    rw [List.filter_eq_nil_iff]
    intro p hp
    obtain ⟨m, -, rfl⟩ := List.mem_map.1 hp
    simp
  rw [lastDelivered, post, List.filter_append, hnone, List.append_nil]
  rfl

theorem lastDelivered_deliver_none (h : deliver log i = some (m, log')) (hm : content m = none) :
    lastDelivered content log' = lastDelivered content log := by
  obtain ⟨earlier, later, rfl, rfl, -⟩ := deliver_eq_some h
  simp [lastDelivered, hm]

theorem lastDelivered_deliver (h : deliver log i = some (m, log')) (hm : content m = some b)
    (horder : NotOvertaken content log i) : lastDelivered content log' = some b := by
  obtain ⟨earlier, later, rfl, rfl, rfl⟩ := deliver_eq_some h
  have hlater : ∀ q ∈ later, q.delivered = true → ∀ b' ∈ content q.msg, b' = b := by
    intro q hq hdel
    exact horder ⟨m, false⟩ (by simp) q (by simpa [List.drop_length_add_append] using hq) hdel b hm
  rw [lastDelivered, List.filter_append, List.filterMap_append]
  apply getLast?_append_of_forall_eq
  · simp [hm]
  · intro x hx
    rw [List.filter_cons_of_pos rfl, List.filterMap_cons, hm, List.mem_cons] at hx
    rcases hx with rfl | hx
    · rfl
    · -- it is the content of a message posted later and delivered earlier
      obtain ⟨q, hq, hx⟩ := List.mem_filterMap.1 hx
      obtain ⟨hq, hdel⟩ := List.mem_filter.1 hq
      exact hlater q hq hdel x hx

/-- Once everything is delivered the message posted last counts. -/
theorem lastDelivered_of_all (h : ∀ p ∈ log, p.delivered = true) :
    lastDelivered content log = ((log.map Posted.msg).filterMap content).getLast? := by
  rw [lastDelivered, List.filter_eq_self.2 h, List.filterMap_map]
  rfl

end

end Dockerset.Data
