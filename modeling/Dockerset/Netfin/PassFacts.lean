import Dockerset.Netfin.MirrorWalk

/-!
# What a pass over the source achieves

Facts about one visit (`Touch`), and by induction about a whole pass (`Pass`):
what it leaves alone, what it adds, and what every visited path looks like
afterwards. The order of the walk enters in one way only: a visit never comes
after one that lies at or below it, so what is done for a file is not undone.
-/

namespace Dockerset.Netfin
open Go Os Logic

/-- The visit of `q` removes a backup at or above `x`. -/
def Clears (S : Tree) (rm : Bool) (q x : Path) : Prop :=
  rm = true ∧ S.kind q = some .special ∧ q <+: x

/-- A path of `l` is such a visit. -/
def Cleared (S : Tree) (rm : Bool) (l : List Path) (x : Path) : Prop := ∃ q ∈ l, Clears S rm q x

theorem Cleared.snoc {S : Tree} {rm : Bool} {l : List Path} {q x : Path} (h : Cleared S rm l x) :
    Cleared S rm (l ++ [q]) x := by
  obtain ⟨y, hy, hc⟩ := h
  exact ⟨y, List.mem_append_left _ hy, hc⟩

theorem not_cleared_false (S : Tree) (l : List Path) (x : Path) : ¬ Cleared S false l x := by
  rintro ⟨_, _, h, _⟩
  cases h

section Touch

variable {S : Tree} {T : Set Time} {U : Perm} {rm : Bool} {q x : Path} {t t' : Tree} {m m' : StateMap}

theorem Touch.clears {a : Attr} (hS : S.get q = some (.special a)) (hrm : rm = true) (hx : q <+: x) :
    Clears S rm q x := ⟨hrm, Tree.kind_of_get hS, hx⟩

theorem Touch.state_frame (h : Touch S T U rm q t m t' m') (hq : q ≠ []) (hne : x ≠ q)
    (hx : ¬ Clears S rm q x) : m'.lookup x = m.lookup x := by
  cases h with
  | dirKnown | fileKnown | specialKept => rfl
  | dirMade | fileMatched | fileCopied => rw [AList.lookup_insert_eq_ite, if_neg hne]
  | specialRemoved hS hrm => rw [lookup_prune hq, if_neg fun hqx => hx (Touch.clears hS hrm hqx)]

theorem Touch.tree_frame (h : Touch S T U rm q t m t' m') (hxq : ¬ x <+: q) (hx : ¬ Clears S rm q x) :
    t'.get x = t.get x := by
  cases h with
  | dirKnown | fileKnown | specialKept | fileMatched => rfl
  | dirMade _ h => exact h.frame x hxq
  | fileCopied _ h => exact h.frame x hxq
  | specialRemoved hS hrm h =>
    exact h.frame x (fun hqx => hx (Touch.clears hS hrm hqx))
      fun he => hxq (he ▸ List.dropLast_prefix q)

theorem Touch.shape_frame (h : Touch S T U rm q t m t' m') (hne : x ≠ q) (hx : ¬ Clears S rm q x)
    (hhas : t.Has x) : t'.shape x = t.shape x := by
  have hsome := Tree.shape_ne_none.2 hhas
  cases h with
  | dirKnown | fileKnown | specialKept | fileMatched => rfl
  | dirMade _ h => rw [h.shape, if_neg fun hc => hsome hc.2]
  | fileCopied _ h => rw [h.shape, if_neg hne, if_neg fun hc => hsome hc.2]
  | specialRemoved hS hrm h => rw [h.shape, if_neg fun hqx => hx (Touch.clears hS hrm hqx)]

theorem Touch.kind (h : Touch S T U rm q t m t' m') (hx : ¬ Clears S rm q x) {k : Kind}
    (hk : t.kind x = some k) (hdf : k = .dir ∨ k = .file) : t'.kind x = some k := by
  have hhas := Tree.has_of_kind hk
  have hsome := Tree.shape_ne_none.2 hhas
  by_cases hne : x = q
  · subst hne
    cases h with
    | dirKnown | fileKnown | specialKept | fileMatched => exact hk
    | dirMade _ h =>
      rw [Tree.kind_eq_shape, h.shape, if_neg fun hc => hsome hc.2, ← Tree.kind_eq_shape, hk]
    | fileCopied _ h =>
      rcases hdf with rfl | rfl
      · exact absurd hk h.notDir
      · rw [Tree.kind_eq_shape, h.shape, if_pos rfl]
        rfl
    | specialRemoved hS hrm h => exact absurd (Touch.clears hS hrm List.prefix_rfl) hx
  · rw [Tree.kind_eq_shape, h.shape_frame hne hx hhas, ← Tree.kind_eq_shape, hk]

theorem Touch.new (h : Touch S T U rm q t m t' m') (hx : t'.Has x) : t.Has x ∨ x <+: q := by
  rw [Tree.has_iff_shape] at hx ⊢
  cases h with
  | dirKnown | fileKnown | specialKept | fileMatched => exact .inl hx
  | dirMade _ h =>
    rw [h.shape] at hx
    split at hx
    · next hc => exact .inr hc.1
    · exact .inl hx
  | fileCopied _ h =>
    rw [h.shape] at hx
    split at hx
    · next hc => exact .inr (hc ▸ List.prefix_rfl)
    · split at hx
      · next hc => exact .inr hc.1
      · exact .inl hx
  | specialRemoved _ _ h =>
    rw [h.shape] at hx
    split at hx
    · cases hx
    · exact .inl hx

theorem Touch.stamped (h : Touch S T U rm q t m t' m') : Tree.Stamped T t t' := by
  cases h with
  | dirKnown | fileKnown | specialKept | fileMatched => exact .refl T t
  | dirMade _ h => exact h.stamped
  | fileCopied _ h => exact h.stamped
  | specialRemoved _ _ h => exact h.stamped

end Touch

/-! ## A visited path afterwards -/

/-- A visited directory: it was known, or it is there. -/
def DirDone (a : Attr) (x : Path) (m₀ : StateMap) (t : Tree) : Prop :=
  m₀.lookup x = some (dirState a) ∨ t.IsDir x

/-- A visited file: it was known or its backup reported its metadata, and nothing
was done; or it has been copied. -/
inductive FileDone (f : File) (x : Path) (t₀ : Tree) (m₀ : StateMap) (t : Tree) : Prop
  | known (hm : m₀.lookup x = some (fileState f)) (ht : t.get x = t₀.get x)
  | matched (hr : Reports t₀ x f.info) (ht : t.get x = t₀.get x)
  | copied (ht : t.get x = some (.file f)) (hd : ¬ t₀.IsDir x) (hno : ¬ Reports t₀ x f.info)

/-- The outcome at a visited path. -/
def Done (S : Tree) (rm : Bool) (x : Path) (t₀ : Tree) (m₀ : StateMap) (t : Tree) (m : StateMap) : Prop :=
  match S.get x with
  | some (.dir a) => m.lookup x = some (dirState a) ∧ DirDone a x m₀ t
  | some (.file f) => m.lookup x = some (fileState f) ∧ FileDone f x t₀ m₀ t
  | some (.special _) =>
    if rm then t.get x = none ∧ m.lookup x = none
    else t.get x = t₀.get x ∧ m.lookup x = m₀.lookup x
  | _ => False

section Pass

variable {S : Tree} {ex : Path → Bool} {T : Set Time} {U : Perm} {rm : Bool} {p x : Path} {t₀ t : Tree}
  {m₀ m : StateMap} {l : List Path}

theorem Reach.has {q : Path} (h : Reach S ex p q) : S.Has q := by
  obtain ⟨n, hn, -⟩ := h.node
  exact Tree.has_of_get hn

/-- What lies strictly below a visit of `l` is not visited later, unless through
directories. -/
theorem Reach.eq_of_leaf {q : Path} {k : Kind} (hq : Reach S ex p q) (hx : S.kind x = some k)
    (hk : k ≠ .dir) (hxq : x <+: q) : x = q :=
  Tree.eq_of_leaf hx hk hq.has hxq

/-- No visit lies below a special file. -/
theorem Reach.clears_eq {q : Path} (hx : Reach S ex p x) (h : Clears S rm q x) : q = x :=
  Tree.eq_of_leaf h.2.1 (by decide) hx.has h.2.2

theorem Pass.state_frame (h : Pass S ex T U rm p t₀ m₀ l t m) (hx : x ∉ l) (hc : ¬ Cleared S rm l x) :
    m.lookup x = m₀.lookup x := by
  induction h with
  | nil => rfl
  | @snoc l q _ _ _ _ _ hq _ _ ht ih =>
    simp only [List.mem_append, List.mem_singleton, not_or] at hx
    rw [ht.state_frame hq.ne_root hx.2 fun hcl => hc ⟨q, by simp, hcl⟩,
      ih hx.1 (mt Cleared.snoc hc)]

theorem Pass.tree_frame (h : Pass S ex T U rm p t₀ m₀ l t m) (hx : ∀ q ∈ l, ¬ x <+: q)
    (hc : ¬ Cleared S rm l x) : t.get x = t₀.get x := by
  induction h with
  | nil => rfl
  | @snoc l q _ _ _ _ _ hq _ _ ht ih =>
    rw [ht.tree_frame (hx q (by simp)) fun hcl => hc ⟨q, by simp, hcl⟩,
      ih (fun y hy => hx y (by simp [hy])) (mt Cleared.snoc hc)]

theorem Pass.kind (h : Pass S ex T U rm p t₀ m₀ l t m) (hc : ¬ Cleared S rm l x) {k : Kind}
    (hk : t₀.kind x = some k) (hdf : k = .dir ∨ k = .file) : t.kind x = some k := by
  induction h with
  | nil => exact hk
  | @snoc l q _ _ _ _ _ hq _ _ ht ih =>
    exact ht.kind (fun hcl => hc ⟨q, by simp, hcl⟩)
      (ih (mt Cleared.snoc hc)) hdf

theorem Pass.new (h : Pass S ex T U rm p t₀ m₀ l t m) (hx : t.Has x) : t₀.Has x ∨ ∃ q ∈ l, x <+: q := by
  induction h with
  | nil => exact .inl hx
  | @snoc l q _ _ _ _ _ hq _ _ ht ih =>
    rcases ht.new hx with hx | hx
    · rcases ih hx with h | ⟨y, hy, hxy⟩
      · exact .inl h
      · exact .inr ⟨y, by simp [hy], hxy⟩
    · exact .inr ⟨q, by simp, hx⟩

/-- The visit of `q` itself, seen from the start of the pass. -/
theorem Pass.done_snoc {q : Path} {t' : Tree} {m' : StateMap} (h : Pass S ex T U rm p t₀ m₀ l t m)
    (hq : Reach S ex p q) (hfresh : ∀ x ∈ l, ¬ q <+: x) (ht : Touch S T U rm q t m t' m') :
    Done S rm q t₀ m₀ t' m' := by
  have hql : q ∉ l := fun hmem => hfresh q hmem List.prefix_rfl
  have hnc : ¬ Cleared S rm l q := by
    rintro ⟨y, hy, hcl⟩
    exact hql (hq.clears_eq hcl ▸ hy)
  have hm : m.lookup q = m₀.lookup q := h.state_frame hql hnc
  have htree : t.get q = t₀.get q := h.tree_frame hfresh hnc
  unfold Done
  cases ht with
  | dirKnown hS hk => rw [hS]; exact ⟨hk, .inl (hm ▸ hk)⟩
  | dirMade hS h => rw [hS]; exact ⟨AList.lookup_insert _, .inr (h.isDir List.prefix_rfl)⟩
  | fileKnown hS hk => rw [hS]; exact ⟨hk, .known (hm ▸ hk) htree⟩
  | fileMatched hS hr =>
    rw [hS]
    exact ⟨AList.lookup_insert _, .matched (hr.congr htree.symm) htree⟩
  | fileCopied hS h hno =>
    rw [hS]
    refine ⟨AList.lookup_insert _, .copied ?_ ?_ fun hr => hno (hr.congr htree)⟩
    · exact Tree.get_file_iff_shape.2 (by rw [h.shape, if_pos rfl])
    · intro hd
      refine h.notDir ?_
      rw [Tree.isDir_iff] at hd ⊢
      rwa [htree]
  | specialKept hS hrm =>
    rw [hS]
    simp only [hrm, Bool.false_eq_true, if_false]
    exact ⟨htree, hm⟩
  | specialRemoved hS hrm h =>
    rw [hS]
    simp only [hrm, if_true]
    refine ⟨?_, ?_⟩
    · rw [← Tree.shape_eq_none, h.shape, if_pos List.prefix_rfl]
    · rw [lookup_prune hq.ne_root, if_pos List.prefix_rfl]

/-- A later visit leaves the outcome at `x` alone. -/
theorem Done.touch {q : Path} {t' : Tree} {m' : StateMap} (h : Done S rm x t₀ m₀ t m)
    (hq : Reach S ex p q) (hqx : ¬ q <+: x) (ht : Touch S T U rm q t m t' m') :
    Done S rm x t₀ m₀ t' m' := by
  have hne : x ≠ q := fun he => hqx (he ▸ List.prefix_rfl)
  have hnc : ¬ Clears S rm q x := fun hc => hqx hc.2.2
  have hm : m'.lookup x = m.lookup x := ht.state_frame hq.ne_root hne hnc
  -- a visited leaf is not above another visit
  have hleaf : ∀ k, S.kind x = some k → k ≠ .dir → t'.get x = t.get x := fun k hk hd =>
    ht.tree_frame (fun hxq => hne (hq.eq_of_leaf hk hd hxq)) hnc
  unfold Done at h ⊢
  cases hS : S.get x with
  | none => rw [hS] at h; exact h
  | some node =>
    rw [hS] at h
    have hkind : S.kind x = some node.kind := Tree.kind_of_get hS
    cases node with
    | dir a =>
      refine ⟨hm ▸ h.1, h.2.imp_right fun hd => ?_⟩
      rw [Tree.isDir_iff_shape, ht.shape_frame hne hnc hd.has, ← Tree.isDir_iff_shape]
      exact hd
    | file f =>
      have hg := hleaf _ hkind (by simp)
      refine ⟨hm ▸ h.1, ?_⟩
      cases h.2 with
      | known hm₀ ht₀ => exact .known hm₀ (hg.trans ht₀)
      | matched hr ht₀ => exact .matched hr (hg.trans ht₀)
      | copied ht₀ hd hno => exact .copied (hg.trans ht₀) hd hno
    | special a =>
      have hg := hleaf _ hkind (by simp)
      rw [hg, hm]
      exact h
    | symlink a => exact h

/-- **Every visited path is dealt with.** -/
theorem Pass.done (h : Pass S ex T U rm p t₀ m₀ l t m) (hx : x ∈ l) : Done S rm x t₀ m₀ t m := by
  induction h with
  | nil => cases hx
  | snoc hpass hq _ hfresh ht ih =>
    rcases List.mem_append.1 hx with hx | hx
    · exact (ih hx).touch hq (hfresh x hx) ht
    · rw [List.mem_singleton.1 hx]
      exact hpass.done_snoc hq hfresh ht

end Pass

end Dockerset.Netfin
