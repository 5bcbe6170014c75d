import Dockerset.Go.Bytes
import Mathlib.Data.List.Infix

/-!
# Searching in byte strings

Where `strings.Index` finds a text in an append: a text that begins with a
delimiter is found at a delimiter, and a text without the delimiter is not found
across it.
-/

namespace Dockerset.Go

theorem isPrefixOf_append_cons {w u v : Bytes} {d : UInt8} (hd : d ∉ w) :
    w.isPrefixOf (u ++ d :: v) = w.isPrefixOf u := by
  rw [Bool.eq_iff_iff, List.isPrefixOf_iff_prefix, List.isPrefixOf_iff_prefix]
  constructor
  · intro hpre
    obtain ⟨r, hr⟩ := hpre
    rw [List.append_eq_append_iff] at hr
    rcases hr with ⟨a, ha, -⟩ | ⟨a, ha, hr⟩
    · exact ⟨a, ha.symm⟩
    · rcases a with _ | ⟨x, a⟩
      · exact ⟨[], by rw [ha, List.append_nil, List.append_nil]⟩
      · cases hr
        exact absurd (by rw [ha]; simp) hd
  · intro hpre
    exact hpre.trans (List.prefix_append _ _)

theorem indexBytes_skip {u v w : Bytes}
    (h : ∀ t, t <:+ u → t ≠ [] → w.isPrefixOf (t ++ v) = false) :
    indexBytes (u ++ v) w = (indexBytes v w).map (· + u.length) := by
  induction u with
  | nil => simp
  | cons x u ih =>
    have hu := ih fun t ht => h t (ht.trans (List.suffix_cons x u))
    have hx := h (x :: u) List.suffix_rfl (by simp)
    unfold indexBytes at hu ⊢
    rw [List.cons_append, List.tails_cons, List.findIdx?_cons, ← List.cons_append, hx, hu,
      if_neg Bool.false_ne_true, Option.map_map]
    rfl

theorem indexBytes_delim {u v w : Bytes} {d : UInt8} (hd : d ∉ u) :
    indexBytes (u ++ d :: v) (d :: w) =
      if w.isPrefixOf v then some u.length
      else (indexBytes v (d :: w)).map (· + (u.length + 1)) := by
  have hskip : indexBytes (u ++ d :: v) (d :: w) =
      (indexBytes (d :: v) (d :: w)).map (· + u.length) := by
    apply indexBytes_skip
    intro t ht hne
    cases t with
    | nil => exact absurd rfl hne
    | cons x t =>
      have hx : (d == x) = false := beq_false_of_ne fun hdx => hd (ht.subset (by simp [hdx]))
      rw [List.cons_append, List.isPrefixOf_cons_cons, hx, Bool.false_and]
  rw [hskip]
  unfold indexBytes
  rw [List.tails_cons, List.findIdx?_cons, List.isPrefixOf_cons_cons, beq_self_eq_true,
    Bool.true_and]
  split
  · simp
  · rw [Option.map_map]
    congr 1
    funext n
    simp only [Function.comp_apply]
    omega

/-- A text with an `e` but no `d` is not found across a `d`. -/
theorem indexBytes_across {u v w : Bytes} {d e : UInt8} (hd : d ∉ w) (he : e ∈ w) (hu : e ∉ u) :
    indexBytes (u ++ d :: v) w = (indexBytes v w).map (· + (u.length + 1)) := by
  have hskip : indexBytes ((u ++ [d]) ++ v) w = (indexBytes v w).map (· + (u ++ [d]).length) := by
    apply indexBytes_skip
    intro t ht hne
    obtain ⟨t', rfl, ht'⟩ := (List.suffix_concat_iff.1 ht).resolve_left hne
    rw [List.append_assoc, List.singleton_append, isPrefixOf_append_cons hd, ← Bool.not_eq_true,
      List.isPrefixOf_iff_prefix]
    intro hpre
    exact hu (ht'.subset (hpre.subset he))
  simpa using hskip

theorem indexBytes_of_prefix {s w : Bytes} (h : w.isPrefixOf s = true) :
    indexBytes s w = some 0 := by
  unfold indexBytes
  cases s with
  | nil => rw [List.tails, List.findIdx?_cons, h, if_pos rfl]
  | cons x s => rw [List.tails_cons, List.findIdx?_cons, h, if_pos rfl]

end Dockerset.Go
