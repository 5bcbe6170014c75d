import Dockerset.Netfin.History

/-!
# Invariants of the destination and the state map

Whatever a call does to the destination tree and to the state map, it does by
visits and by sweeps; a call that fails may have added directories besides. A
property that these keep is kept by every call, and so along every history.
-/

namespace Dockerset.Netfin
open Go Os Logic

/-- A property that visits and sweeps keep. The visit of `q` in the source `S` may
ask `C S q` of the destination that it finds. -/
structure StepInv (T : Set Time) (C : Tree → Path → Tree → Prop) (J : Tree → StateMap → Prop) :
    Prop where
  touch : ∀ {S rm q t m t' m'}, Touch S T U rm q t m t' m' → q ≠ [] → C S q t → J t m → J t' m'
  swept : ∀ {A t t' m m'}, Swept T A t t' m m' → J t m → J t' m'

/-- A property that they keep under the umask `U`. -/
structure StepInvAt (U : Perm) (T : Set Time) (C : Tree → Path → Tree → Prop)
    (J : Tree → StateMap → Prop) : Prop where
  touch : ∀ {S rm q t m t' m'}, Touch S T U rm q t m t' m' → q ≠ [] → C S q t → J t m → J t' m'
  swept : ∀ {A t t' m m'}, Swept T A t t' m m' → J t m → J t' m'

theorem StepInv.under {T : Set Time} {C : Tree → Path → Tree → Prop} {J : Tree → StateMap → Prop}
    (h : StepInv T C J) {U : Perm} : StepInvAt U T C J := ⟨h.touch, h.swept⟩

/-- Every visit of a call finds what it may ask for: nothing touches a path before
its visit. -/
def Run.Meets (r : Run Trees) (C : Tree → Path → Tree → Prop) : Prop :=
  ∀ q t, q ≠ [] → t.get q = r.dst.get q → C r.src q t ∧ C r.walked q t

/-- Where nothing is asked. -/
abbrev Unasked : Tree → Path → Tree → Prop := fun _ _ _ => True

theorem Run.meets_unasked (r : Run Trees) : r.Meets Unasked := fun _ _ _ _ => ⟨trivial, trivial⟩

/-- The paths that a call comes by. -/
def Call.Visits (r : Run Trees) (q : Path) : Call → Prop
  | .reconcile => Reach r.walked r.syncer.excluder.excluded [] q
  | .rel s => Names s q ∧ Reach r.src r.syncer.excluder.excluded q q
  | .tree s => ∃ p, (Names s p ∨ RootAlias s ∧ p = []) ∧ Reach r.src r.syncer.excluder.excluded p q

/-- A walk that comes by anything at all is a walk of the source tree. -/
theorem Reach.walked_eq {r : Run Trees} {ex : Path → Bool} {q : Path} (h : Reach r.walked ex [] q) :
    r.walked = r.src := by
  cases hlink : r.world.disk.src.link with
  | none => exact Run.walked_eq_src hlink
  | some a =>
    rw [Run.walked, hlink] at h
    exact absurd h not_reach_link

theorem Call.Visits.ne_root {r : Run Trees} {q : Path} {c : Call} (h : c.Visits r q) : q ≠ [] := by
  cases c with
  | reconcile => exact Reach.ne_root h
  | rel s => exact h.2.ne_root
  | tree s =>
    obtain ⟨p, -, h⟩ := h
    exact h.ne_root

theorem Run.Meets.visits {r : Run Trees} {C : Tree → Path → Tree → Prop} (h : r.Meets C) {c : Call}
    (q : Path) (t : Tree) (hq : c.Visits r q) (ht : t.get q = r.dst.get q) : C r.src q t :=
  (h q t hq.ne_root ht).1

theorem Reach.self {S : Tree} {ex : Path → Bool} {p : Path} {n : Node} (hp : p ≠ []) (hex : ex p = false)
    (hn : S.get p = some n) (hk : n.kind ≠ .symlink) : Reach S ex p p where
  below := List.prefix_rfl
  ne_root := hp
  node := ⟨n, hn, hk⟩
  kept d hpd hdp := by
    rw [hdp.sublist.antisymm hpd.sublist]
    exact hex

namespace StepInvAt

variable {T : Set Time} {U : Perm} {C : Tree → Path → Tree → Prop} {J : Tree → StateMap → Prop} {S : Tree}
  {ex : Path → Bool} {rm : Bool} {p : Path} {t₀ t : Tree} {m₀ m : StateMap} {l : List Path}

theorem pass (h : StepInvAt U T C J) (hpass : Pass S ex T U rm p t₀ m₀ l t m)
    (hC : ∀ q t, Reach S ex p q → t.get q = t₀.get q → C S q t) (h₀ : J t₀ m₀) : J t m := by
  induction hpass with
  | nil => exact h₀
  | @snoc l q t t' m m' hpass hq _ hfresh ht ih =>
    have hnc : ¬ Cleared S rm l q := by
      rintro ⟨y, hy, hcl⟩
      exact hfresh y hy (hq.clears_eq hcl ▸ List.prefix_rfl)
    exact h.touch ht hq.ne_root (hC q t hq (hpass.tree_frame hfresh hnc)) ih

variable {r r' : Run Trees} {c : Call}

theorem relEnd (h : StepInvAt r.world.umask r.times C J) (hend : RelEnd p r r') (hp : p ≠ [])
    (hC : Reach r.src r.syncer.excluder.excluded p p → C r.src p r.dst) (h₀ : J r.dst r.state) :
    J r'.dst r'.state := by
  have touched : Touched false p r r' → Reach r.src r.syncer.excluder.excluded p p →
      J r'.dst r'.state := by
    rintro ⟨t, n, m, rfl, ht⟩ hreach
    exact h.touch ht hp (hC hreach) h₀
  unfold RelEnd at hend
  cases horder : orderFor r.src r.syncer.excluder.excluded p with
  | drop =>
    rw [horder] at hend
    rcases hend with ⟨-, rfl⟩ | ⟨-, t, n, m, rfl, hsw⟩
    · exact h₀
    · exact h.swept hsw h₀
  | fail e =>
    rw [horder] at hend
    exact hend.elim
  | dir info =>
    rw [horder] at hend
    obtain ⟨hex, a, ha, -⟩ := orderFor_dir horder
    exact touched hend (.self hp hex ha (by simp))
  | file info =>
    rw [horder] at hend
    obtain ⟨hex, f, hf, -⟩ := orderFor_file horder
    exact touched hend (.self hp hex hf (by simp))

theorem treePass (h : StepInvAt r.world.umask r.times C J) (hend : TreePass p r r')
    (hC : ∀ q t, Reach r.src r.syncer.excluder.excluded p q → t.get q = r.dst.get q → C r.src q t)
    (h₀ : J r.dst r.state) : J r'.dst r'.state := by
  obtain ⟨seen, t₁, m₁, t, n, m, hfull, hsw, rfl⟩ := hend
  exact h.swept hsw (h.pass hfull.1 hC h₀)

theorem treeEnd (h : StepInvAt r.world.umask r.times C J) (hend : TreeEnd p r r') (hp : p ≠ [])
    (hC : ∀ q t, Reach r.src r.syncer.excluder.excluded p q → t.get q = r.dst.get q → C r.src q t)
    (h₀ : J r.dst r.state) : J r'.dst r'.state := by
  unfold TreeEnd at hend
  split at hend
  · exact h.treePass hend hC h₀
  · exact h.relEnd hend hp (fun hp => hC p r.dst hp rfl) h₀

/-- **A call that returns nil.** -/
theorem callEnd (h : StepInvAt r.world.umask r.times C J) (hend : CallEnd r r' c)
    (hC : ∀ q t, c.Visits r q → t.get q = r.dst.get q → C r.src q t) (h₀ : J r.dst r.state) :
    J r'.dst r'.state := by
  cases c with
  | reconcile =>
    obtain ⟨seen, t₁, m₁, t, n, m, hfull, hsw, rfl⟩ := hend
    refine h.swept hsw (h.pass hfull.1 (fun q t hq ht => ?_) h₀)
    rw [hq.walked_eq]
    exact hC q t hq ht
  | rel s =>
    rcases hend with rfl | ⟨p, hp, hend⟩
    · exact h₀
    · exact h.relEnd hend hp.2.2 (fun hreach => hC p r.dst ⟨hp, hreach⟩ rfl) h₀
  | tree s =>
    rcases hend with rfl | ⟨p, hp, hend⟩ | ⟨hs, hend⟩
    · exact h₀
    · exact h.treeEnd hend hp.2.2 (fun q t hq => hC q t ⟨p, .inl hp, hq⟩) h₀
    · exact h.treePass hend (fun q t hq => hC q t ⟨[], .inr ⟨hs, rfl⟩, hq⟩) h₀

/-- **A call that fails**, if the property survives new directories. -/
theorem callStuck (h : StepInvAt r.world.umask r.times C J) (hgrown : ∀ {t t' m}, Grown t t' → J t m → J t' m)
    (hend : CallStuck r r' c) (hC : r.Meets C) (h₀ : J r.dst r.state) : J r'.dst r'.state := by
  have broken : ∀ {S rm p}, (∀ q t, q ≠ [] → t.get q = r.dst.get q → C S q t) →
      Broken S rm p r r' → J r'.dst r'.state := by
    rintro S rm p hS ⟨done, t, m, t', n, l, rfl, hpass, hg, -⟩
    exact hgrown hg (h.pass hpass (fun q t hq ht => hS q t hq.ne_root ht) h₀)
  have rel : RelStuck r r' → J r'.dst r'.state := by
    rintro ⟨t, n, hg, rfl⟩
    exact hgrown hg h₀
  cases c with
  | reconcile =>
    rcases hend with hend | ⟨seen, t₁, m₁, A, t, n, m, hfull, hsw, rfl, -⟩
    · exact broken (fun q t hq ht => (hC q t hq ht).2) hend
    · exact h.swept hsw (h.pass hfull.1 (fun q t hq ht => (hC q t hq.ne_root ht).2) h₀)
  | rel s => exact rel hend
  | tree s =>
    obtain ⟨p, hend | hend | ⟨seen, t₁, m₁, A, t, n, m, hfull, hsw, rfl⟩⟩ := hend
    · exact broken (fun q t hq ht => (hC q t hq ht).1) hend
    · exact rel hend
    · exact h.swept hsw (h.pass hfull.1 (fun q t hq ht => (hC q t hq.ne_root ht).1) h₀)

/-- **A call with any outcome**, of an idle syncer. -/
theorem after_call (h : StepInvAt r.world.umask r.times C J) (hgrown : ∀ {t t' m}, Grown t t' → J t m → J t' m)
    (hi : r.Idle) (hc : c.AvoidsRoot) (hC : r.Meets C) (h₀ : J r.dst r.state) :
    Follows r (after c.exec r) ∧ J (after c.exec r).dst (after c.exec r).state := by
  have hwp := wp_call hi hc
  unfold after
  cases hrun : c.exec.run r with
  | ok _ r' =>
    have hend := hwp.ok hrun
    exact ⟨hend.follows, h.callEnd hend hC.visits h₀⟩
  | error _ r' =>
    have hend := hwp.error hrun
    exact ⟨hend.follows, h.callStuck hgrown hend hC h₀⟩

end StepInvAt

theorem stepInv_root (T : Set Time) : StepInv T Unasked fun _ m => m.lookup [] = none where
  touch ht hq _ hm := ht.lookup_root hq hm
  swept hs hm := hs.lookup_none hm

theorem Swept.linkFree {T : Set Time} {A : Path → Prop} {t t' : Tree} {m m' : StateMap}
    (hs : Swept T A t t' m m') (h : t.LinkFree) : t'.LinkFree := by
  refine h.of_shape fun q => ?_
  by_cases hd : ∃ d, A d ∧ d <+: q
  · obtain ⟨d, hd, hdq⟩ := hd
    refine .inr ?_
    rw [Tree.kind_eq_shape, hs.gone d q hd hdq]
    simp
  · exact .inl (hs.keep q fun d hA hdq => hd ⟨d, hA, hdq⟩).1

theorem stepInv_linkFree (T : Set Time) : StepInv T Unasked fun t _ => t.LinkFree where
  touch ht hq _ h := by
    cases ht with
    | dirKnown | fileKnown | specialKept | fileMatched => exact h
    | dirMade _ hm => exact (MadeDirs.grown hm).linkFree h
    | fileCopied _ hc => exact hc.linkFree h
    | specialRemoved _ _ hp => exact (Swept.of_pruned (m := ∅) hq hp).linkFree h
  swept hs h := hs.linkFree h

theorem stepInv_stamped (T : Set Time) (t₀ : Tree) :
    StepInv T Unasked fun t _ => Tree.Stamped T t₀ t where
  touch ht _ _ h := h.trans ht.stamped
  swept hs h := h.trans hs.stamped

/-! ## Entries of the state map -/

/-- A statement about an entry that stays true while what the destination has at its
path keeps its shape. -/
def Steadfast (H : Tree → Path → PathState → Prop) : Prop :=
  ∀ t t' q st, (t.Has q → t'.shape q = t.shape q) → H t q st → H t' q st

/-- The root has no entry, and the destination vouches for every other entry. -/
structure Vouched (H : Tree → Path → PathState → Prop) (t : Tree) (m : StateMap) : Prop where
  root : m.lookup [] = none
  holds : ∀ q st, m.lookup q = some st → H t q st

section

variable {H : Tree → Path → PathState → Prop} {S : Tree} {T : Set Time} {U : Perm} {rm : Bool} {q : Path}
  {t t' : Tree} {m m' : StateMap} {A : Path → Prop}

/-- A new entry, while everything else that is there keeps its shape. -/
theorem Vouched.insert (h : Vouched H t m) (hH : Steadfast H) (hq : q ≠ []) {st : PathState}
    (hst : H t' q st) (hrest : ∀ x, x ≠ q → t.Has x → t'.shape x = t.shape x) :
    Vouched H t' (m.insert q st) where
  root := by rw [AList.lookup_insert_eq_ite, if_neg (Ne.symm hq), h.root]
  holds x st' hx := by
    rw [AList.lookup_insert_eq_ite] at hx
    split at hx
    · next he =>
      cases hx
      exact he ▸ hst
    · next he => exact hH t t' x st' (hrest x he) (h.holds x st' hx)

theorem Grown.vouched (hg : Grown t t') (hH : Steadfast H) (h : Vouched H t m) : Vouched H t' m where
  root := h.root
  holds x st hx := hH t t' x st (hg.keep x) (h.holds x st hx)

theorem Swept.vouched (hs : Swept T A t t' m m') (hH : Steadfast H) (h : Vouched H t m) :
    Vouched H t' m' where
  root := hs.lookup_none h.root
  holds x st hx := by
    refine hH t t' x st (fun hhas => (hs.keep x fun d hd hdx => ?_).1) (h.holds x st (hs.less x st hx))
    -- a doomed path above `x` would have taken the entry with it
    rw [hs.forgot d x hd hdx hhas] at hx
    cases hx

/-- **One visit**: the entry that it makes has to be vouched for. -/
theorem Touch.vouched (ht : Touch S T U rm q t m t' m') (hH : Steadfast H) (hq : q ≠ [])
    (h : Vouched H t m)
    (hdir : ∀ a, S.get q = some (.dir a) → Tree.MadeDirs T (a.perm &&& ~~~U) q t t' → H t' q (dirState a))
    (hmatched : ∀ f, S.get q = some (.file f) → Reports t q f.info → H t q (fileState f))
    (hcopied : ∀ f, S.get q = some (.file f) → t'.get q = some (.file f) → H t' q (fileState f)) :
    Vouched H t' m' := by
  cases ht with
  | dirKnown | fileKnown | specialKept => exact h
  | dirMade hS hm =>
    refine h.insert hH hq (hdir _ hS hm) fun x _ hx => ?_
    rw [hm.shape, if_neg fun hc => Tree.shape_ne_none.2 hx hc.2]
  | fileMatched hS hr => exact h.insert hH hq (hmatched _ hS hr) fun x _ _ => rfl
  | @fileCopied f _ hS hc =>
    have hg : t'.get q = some (.file f) := Tree.get_file_iff_shape.2 (by rw [hc.shape, if_pos rfl])
    refine h.insert hH hq (hcopied f hS hg) fun x hne hx => ?_
    rw [hc.shape, if_neg hne, if_neg fun h' => Tree.shape_ne_none.2 hx h'.2]
  | specialRemoved _ _ hp => exact (Swept.of_pruned hq hp).vouched hH h

end

end Dockerset.Netfin
