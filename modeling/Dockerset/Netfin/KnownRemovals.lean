import Dockerset.Netfin.MirrorWalk
import Dockerset.Netfin.History
import Dockerset.Netfin.Steps
import Dockerset.Os.Monitored

/-!
# What is known of a backup when it is removed

Outside a deep `Reconcile`, a backup is to be removed only if the state map has it or
something below it. `SyncRel` and a light `Reconcile` ask the state map first.
`SyncTree` asks it too, but not for the special files that its walk comes by.

The calls are run on a disk that stops them at a removal (`Monitored`): the state map
that they end with is then the one they had just before it.
-/

namespace Dockerset.Netfin
open Go Os Logic

/-- The state map has `p` or a path below it. -/
def Known (s : Syncer) (p : Path) : Prop := ∃ q, p <+: q ∧ s.state.lookup q ≠ none

/-- The run with a watch that lets `skip` removals through. -/
def Run.monitored {D : Type} (r : Run D) (skip : Nat) : Run (Monitored D) :=
  ⟨r.world.monitored skip, r.syncer, r.seen⟩

/-- Whichever of its removals `x` is stopped at, the path was known just before it. -/
def RemovesKnown {D α : Type} (x : SyncM (Monitored D) α) (r : Run D) : Prop :=
  ∀ skip p, (after x (r.monitored skip)).world.disk.hit = some p →
    Known (after x (r.monitored skip)).syncer p

section

variable {s : Syncer} {p q : Path}

theorem Known.remember (h : Known s q) (st : PathState) : Known (s.remember p st) q := by
  obtain ⟨x, hqx, hx⟩ := h
  refine ⟨x, hqx, ?_⟩
  unfold Syncer.remember
  split
  · exact hx
  · show (s.state.insert p st).lookup x ≠ none
    rw [AList.lookup_insert_eq_ite]
    split
    · simp
    · exact hx

instance (s : Syncer) (p : Path) : Decidable (Known s p) :=
  decidable_of_iff (∃ q ∈ s.state.keys, p <+: q) <| by
    simp only [Known, AList.mem_keys_iff_lookup, ← Option.ne_none_iff_exists', and_comm]

theorem known_of_hasStateTree (h : s.hasStateTree p = true) : Known s p := by
  obtain ⟨x, hx, hne⟩ := hasStateTree_iff.1 h
  refine ⟨x, ?_, hne⟩
  by_cases hp : p = []
  · exact hp ▸ List.nil_prefix
  · exact (inStateTree_iff hp).1 hx

/-- What is known without anything at or below `p` stays known when `p` is forgotten. -/
theorem Known.forgetTree (h : Known s q) (hp : p ≠ []) (hapart : ∀ x, q <+: x → ¬ p <+: x) :
    Known (s.forgetTree p) q := by
  obtain ⟨x, hqx, hx⟩ := h
  refine ⟨x, hqx, ?_⟩
  unfold Syncer.forgetTree
  split
  · exact hx
  · show (StateMap.prune s.state p).lookup x ≠ none
    rw [lookup_prune hp, if_neg (hapart x hqx)]
    exact hx

theorem excluder_remember (s : Syncer) (p : Path) (st : PathState) :
    (s.remember p st).excluder = s.excluder := by
  unfold Syncer.remember
  split <;> rfl

theorem excluder_forgetTree (s : Syncer) (p : Path) : (s.forgetTree p).excluder = s.excluder := by
  unfold Syncer.forgetTree
  split <;> rfl

end

/-! ## The watch around one removal -/

section Minding

variable {D α : Type}

/-- If the program has been stopped, then at a path that is known. `A` holds of the disk
and `B` of the syncer. -/
def Minding (A : D → Prop) (B : Syncer → Prop) (r : Run (Monitored D)) : Prop :=
  ∃ h, HeldWithBy (Unnoticed A) (StoppedAt A h) (fun s => (∀ p ∈ h, Known s p) ∧ B s) r

variable {A : D → Prop} {B B' : Syncer → Prop} {r : Run (Monitored D)} {p : Path}

theorem Minding.mono (h : Minding A B r) (hB : ∀ s, B s → B' s) : Minding A B' r := by
  obtain ⟨hit, hw, hknown, hs⟩ := h
  exact ⟨hit, hw, hknown, hB _ hs⟩

theorem Minding.syncer (h : Minding A B r) : B r.syncer := by
  obtain ⟨hit, -, -, hs⟩ := h
  exact hs

theorem Minding.start {r : Run D} (hA : Held A r.world)
    (hfault : ∀ ev ∈ r.world.plan, ev.fault ≠ some .ENOENT) (hB : B r.syncer) (skip : Nat) :
    Minding A B (r.monitored skip) := by
  refine ⟨none, heldBy_monitored hA hfault skip, fun p hp => ?_, hB⟩
  cases hp

theorem removesKnown_of_minding {x : SyncM (Monitored D) α} {r : Run D}
    (h : ∀ skip, Minding A B (after x (r.monitored skip))) : RemovesKnown x r := by
  intro skip p hp
  obtain ⟨hit, hw, hknown, -⟩ := h skip
  exact hknown p (hw.1.1.symm.trans hp)

theorem minding_liftSys {x : Sys (Monitored D) α}
    (h : ∀ hit, Preserves (HeldBy (Unnoticed A) (StoppedAt A hit)) x) :
    Preserves (Minding A B) (liftSys x : SyncM (Monitored D) α) :=
  preserves_exists fun hit => heldWith_liftSys (h hit)

theorem looks_minding : Looks (Minding (D := D) A B) where
  query f := minding_liftSys fun _ => held_query Unnoticed.keeps f
  poll := minding_liftSys fun _ => held_pollCtx Unnoticed.keeps
  seen _ _ hr := hr

/-- What a look returns is true of a disk with `A`. -/
theorem wp_minding_query {g : Monitored D → Except Errno α} (h : Minding A B r) :
    WP (liftSys (query g)) (fun a r' => Minding A B r' ∧ ∃ d, A d.disk ∧ g d = .ok a)
      (fun _ => Minding A B) r := by
  obtain ⟨hit, hw, hs⟩ := h
  rw [wp_liftSys_iff]
  refine (wp_query_held Unnoticed.keeps g hw).mono ?_ fun _ w' hw' => ⟨hit, hw', hs⟩
  rintro a w' ⟨hw', d, hd, hg⟩
  exact ⟨⟨hit, hw', hs⟩, d, hd.2, hg⟩

variable [Disk D] (hA : DstKeeps A)
include hA

theorem minding_mirrors (hB : ∀ s p st, B s → B (s.remember p st)) :
    Mirroring (fun _ => True) (Minding A B) := by
  have hkeeps : ∀ hit : Option Path, MirrorKeeps (fun _ => True) (StoppedAt A hit)
      fun s => (∀ p ∈ hit, Known s p) ∧ B s := by
    intro hit
    constructor
    · exact fun _ _ _ => trivial
    · exact fun _ _ _ _ _ => writesKeep_stoppedAt (hA.writes rfl)
    · exact fun s p st _ hs => ⟨fun q hq => (hs.1 q hq).remember st, hB s p st hs.2⟩
  have hmirrors := fun hit => (hkeeps hit).mirrors Unnoticed.keeps
  constructor
  · exact looks_minding
  · exact fun _ _ _ => trivial
  · exact fun p info hp => preserves_exists fun hit => (hmirrors hit).syncDir p info hp
  · exact fun p info hp => preserves_exists fun hit => (hmirrors hit).copyRel p info hp

omit hA in
/-- A program that has been stopped gets no further than the sync. -/
theorem wp_fsyncDir_stopped {l : Loc} {w : World (Monitored D)}
    (hw : HeldBy (Unnoticed A) (StoppedAt A (some p)) w) :
    WP (fsyncDir l) (fun _ _ => False) (fun _ => HeldBy (Unnoticed A) (StoppedAt A (some p))) w := by
  rw [fsyncDir, WP.bind_iff, wp_attempt_iff]
  refine (wp_openParent_stopped hw).mono (fun _ _ h => h.elim) ?_
  rintro e w' ⟨⟨n, rfl, hn⟩, hw'⟩
  cases n with
  | ENOENT => exact absurd rfl hn
  | _ => exact hw'

/-- **`RemovePath`**: it goes through, or it fails where the program has been stopped
before or is stopped now. -/
theorem wp_removePath_monitored {hit : Option Path} {w : World (Monitored D)}
    (hw : HeldBy (Unnoticed A) (StoppedAt A hit) w) :
    WP (removePath ⟨.dst, p⟩ false)
      (fun _ w' => HeldBy (Unnoticed A) (StoppedAt A none) w')
      (fun _ w' => HeldBy (Unnoticed A) (StoppedAt A hit) w' ∨
        HeldBy (Unnoticed A) (StoppedAt A none) w' ∨
        HeldBy (Unnoticed A) (StoppedAt A (some p)) w') w := by
  simp only [removePath, Bool.false_eq_true, if_false, WP.bind_iff]
  refine (wp_change_held Unnoticed.keeps
    (fun d d' now hd hx => monitored_removeAll (hA.removals rfl) hd hx) hw).mono ?_ fun _ _ h => .inl h
  rintro _ w₁ ⟨hd | hd, hplan⟩
  · exact (held_fsyncDir Unnoticed.keeps _ w₁ ⟨hd, hplan⟩).mono (fun _ _ h => h) fun _ _ h => .inr (.inl h)
  · exact (wp_fsyncDir_stopped ⟨hd, hplan⟩).mono (fun _ _ h => h.elim) fun _ _ h => .inr (.inr h)

/-- **The removal of a known path**, and the forgetting of it. -/
theorem wp_dropKnown (hr : Minding A B r) (hp : Known r.syncer p)
    (hB : B r.syncer → B' (r.syncer.forgetTree p)) :
    WP (do
      liftSys (removePath ⟨.dst, p⟩ (← getSyncer).dryRun)
      forgetStateTree p : SyncM (Monitored D) Unit) (fun _ => Minding A B') (fun _ => Minding A B) r := by
  obtain ⟨hit, hw, hknown, hs⟩ := hr
  simp only [getSyncer, WP.bind_iff, WP.get_iff, WP.pure_iff, wp_liftSys_iff]
  cases hdry : r.syncer.dryRun with
  | true =>
    -- nothing is removed and nothing is forgotten
    have hsame : r.syncer.forgetTree p = r.syncer := by rw [Syncer.forgetTree, if_pos hdry]
    refine ⟨hit, hw, ?_⟩
    show (∀ q ∈ hit, Known (r.syncer.forgetTree p) q) ∧ B' (r.syncer.forgetTree p)
    refine ⟨?_, hB hs⟩
    rw [hsame]
    exact hknown
  | false =>
    refine (wp_removePath_monitored hA hw).mono (fun _ w' hw' => ?_) fun _ w' hw' => ?_
    · refine ⟨none, hw', fun q hq => ?_, hB hs⟩
      cases hq
    · rcases hw' with hw' | hw' | hw'
      · exact ⟨hit, hw', hknown, hs⟩
      · refine ⟨none, hw', fun q hq => ?_, hs⟩
        cases hq
      · refine ⟨some p, hw', fun q hq => ?_, hs⟩
        cases hq
        exact hp

theorem minding_drops (hB : ∀ s p, B s → B (s.forgetTree p)) :
    Dropping (fun _ => True) (Minding A B) where
  known p _ := by
    refine preserves_getSyncer fun r hr => ?_
    cases hknown : r.syncer.hasStateTree p with
    | false => exact hr
    | true => exact wp_dropKnown hA hr (known_of_hasStateTree hknown) (hB _ p)
  deleted root seen rel _ := by
    refine preserves_ite (fun _ => preserves_pure _) fun _ => ?_
    refine preserves_ite (fun _ => preserves_pure _) fun _ => ?_
    intro r hr
    simp only [hasState, getSyncer, WP.bind_iff, WP.get_iff, WP.pure_iff]
    split
    · exact hr
    · next hknown =>
      rw [orFail_joinUnder, pure_bind]
      have hrel : Known r.syncer rel := ⟨rel, List.prefix_rfl, by simpa using hknown⟩
      exact wp_dropKnown hA hr hrel (hB _ rel)

end Minding

/-! ## The calls that ask first -/

section Asking

variable {D : Type} [Disk D] {A : D → Prop} {B : Syncer → Prop} {r : Run D}

theorem minding_syncRel (hA : DstKeeps A) (hremember : ∀ s p st, B s → B (s.remember p st))
    (hforget : ∀ s p, B s → B (s.forgetTree p)) (s : Str) :
    Preserves (Minding A B) (syncRel s : SyncM (Monitored D) Unit) :=
  (minding_mirrors hA hremember).syncRel (minding_drops hA hforget) fun _ => trivial

theorem minding_anything : DstKeeps fun _ : D => True :=
  ⟨fun _ _ _ => trivial, fun _ _ _ => trivial, fun _ _ _ => trivial, fun _ _ _ => trivial,
    fun _ _ _ => trivial, fun _ _ _ => trivial⟩

/-- **`SyncRel`** removes what is known only, on any disk, whatever the others do. -/
theorem removesKnown_syncRel (hfault : ∀ ev ∈ r.world.plan, ev.fault ≠ some .ENOENT) (s : Str) :
    RemovesKnown (syncRel s) r := by
  have hkeeps := minding_syncRel (D := D) (B := fun _ => True) minding_anything
    (fun _ _ _ _ => trivial) (fun _ _ _ => trivial) s
  refine removesKnown_of_minding fun skip => hkeeps.after ?_
  exact .start ⟨trivial, fun _ _ _ _ => trivial⟩ hfault trivial skip

/-- **A light `Reconcile`** removes what is known only. -/
theorem removesKnown_reconcile (hfault : ∀ ev ∈ r.world.plan, ev.fault ≠ some .ENOENT)
    (hlight : r.syncer.reconciled = true) : RemovesKnown reconcile r := by
  refine removesKnown_of_minding (A := fun _ => True) (B := fun _ => True) fun skip => ?_
  have hstart : Minding (fun _ => True) (fun _ => True) (r.monitored skip) :=
    .start ⟨trivial, fun _ _ _ _ => trivial⟩ hfault trivial skip
  have hmirrors := minding_mirrors (D := D) (B := fun _ => True) minding_anything fun _ _ _ _ => trivial
  have hdrops := minding_drops (D := D) (B := fun _ => True) minding_anything fun _ _ _ => trivial
  have hrec : (r.monitored skip).syncer.reconciled = true := hlight
  apply WP.after (P := Minding (fun _ => True) fun _ => True)
  simp only [reconcile, getSyncer, WP.bind_iff, WP.get_iff, WP.pure_iff, hrec, Bool.not_true,
    Bool.false_eq_true, if_false]
  refine (hmirrors.mirrorWalk (fun _ _ => preserves_pure _) trivial _ hstart).mono ?_ fun _ _ h => h
  intro seen r₁ h₁
  refine (hdrops.removeDeletedFromStateUnder trivial seen r₁ h₁).mono ?_ fun _ _ h => h
  intro _ r₂ h₂
  obtain ⟨hit, hw, hknown, -⟩ := h₂
  exact ⟨hit, hw, hknown, trivial⟩

end Asking

/-! ## `SyncTree` -/

section Tree

variable {S : Root} {ex : Excluder} {p q : Path} {Z : Set Path} {r : Run (Monitored Trees)}

/-- The walk from `p` comes by the special file `q`. -/
structure Special (S : Tree) (ex : Path → Bool) (p q : Path) : Prop where
  reach : Reach S ex p q
  kind : S.kind q = some .special

/-- The excluder is `ex`, and the special files in `Z` are known. -/
def SpecialsKnown (S : Root) (ex : Excluder) (p : Path) (Z : Set Path) (s : Syncer) : Prop :=
  s.excluder = ex ∧ ∀ q ∈ Z, Special S.tree ex.excluded p q → Known s q

/-- The same, of a run on a source that stays as it is. -/
abbrev SpecialsLeft (S : Root) (ex : Excluder) (p : Path) (Z : Set Path) : Run (Monitored Trees) → Prop :=
  Minding (fun d => d.src = S) (SpecialsKnown S ex p Z)

theorem SpecialsKnown.mono {Z' : Set Path} {s : Syncer} (hZ : Z' ⊆ Z) (h : SpecialsKnown S ex p Z s) :
    SpecialsKnown S ex p Z' s :=
  ⟨h.1, fun q hq => h.2 q (hZ hq)⟩

theorem SpecialsLeft.mono {Z' : Set Path} (hZ : Z' ⊆ Z) (h : SpecialsLeft S ex p Z r) :
    SpecialsLeft S ex p Z' r :=
  Minding.mono h fun _ hs => hs.mono hZ

theorem SpecialsLeft.none (h : SpecialsLeft S ex p Z r) : SpecialsLeft S ex p ∅ r :=
  h.mono (Set.empty_subset Z)

theorem SpecialsKnown.remember {s : Syncer} (h : SpecialsKnown S ex p Z s) (x : Path) (st : PathState) :
    SpecialsKnown S ex p Z (s.remember x st) :=
  ⟨(excluder_remember s x st).trans h.1, fun q hq hsp => (h.2 q hq hsp).remember st⟩

theorem Special.apart {T : Tree} {ex : Path → Bool} {q' x : Path} (h : Special T ex p q)
    (h' : T.kind q' = some .special) (hne : q ≠ q') (hq : q <+: x) : ¬ q' <+: x := by
  intro hq'
  rcases List.prefix_or_prefix_of_prefix hq hq' with hle | hle
  · exact hne (Tree.eq_of_leaf h.kind (by decide) (Tree.has_of_kind h') hle)
  · exact hne (Tree.eq_of_leaf h' (by decide) (Tree.has_of_kind h.kind) hle).symm

theorem SpecialsKnown.forgetTree {s : Syncer} (h : SpecialsKnown S ex p Z s) (hq : q ≠ [])
    (hk : S.tree.kind q = some .special) : SpecialsKnown S ex p (Z \ {q}) (s.forgetTree q) := by
  refine ⟨(excluder_forgetTree s q).trans h.1, fun y hy hsp => ?_⟩
  exact (h.2 y hy.1 hsp).forgetTree hq fun x hyx => hsp.apart hk hy.2 hyx

theorem dstKeeps_src (S : Root) : DstKeeps fun d : Trees => d.src = S := by
  have hroot : ∀ {d d' : Trees} {l : Loc} {f : Root → Except Errno Root}, l.side = .dst → d.src = S →
      d.onRoot l.side f = .ok d' → d'.src = S := by
    intro d d' l f hl hd h
    rw [hl, Trees.onRoot] at h
    cases hf : f d.dst with
    | error e =>
      rw [hf] at h
      cases h
    | ok x =>
      rw [hf] at h
      cases h
      exact hd
  exact ⟨hroot, hroot, hroot, hroot, hroot, hroot⟩

/-- What the walk from `p` has been told of an entry. -/
structure Entry (S : Tree) (ex : Path → Bool) (p q : Path) (k : Kind) : Prop where
  below : p <+: q
  kind : q ≠ [] → S.kind q = some k
  entered : ∀ d, p <+: d → d <+: q → d ≠ q → ex d = false

theorem Entry.special (h : Entry S.tree ex.excluded p q .special) (hq : q ≠ [])
    (hex : ex.excluded q = false) : Special S.tree ex.excluded p q := by
  have hk := h.kind hq
  obtain ⟨n, hn, hkind⟩ := Option.map_eq_some_iff.1 hk
  refine ⟨⟨h.below, hq, ⟨n, hn, by rw [hkind]; decide⟩, fun d hpd hdq => ?_⟩, hk⟩
  by_cases he : d = q
  · exact he ▸ hex
  · exact h.entered d hpd hdq he

/-- **A visit of `SyncTree`'s walk.** Only the special file itself may lose what is
known of it. -/
theorem wp_visit_monitored {k : Kind} (hV : Entry S.tree ex.excluded p q k) (hq : q ∈ Z)
    (hr : SpecialsLeft S ex p Z r) :
    WP (mirrorFn removeSpecial q (.ok k))
      (fun c r' => (c = .next → k = .dir → ex.excluded q = false) ∧ SpecialsLeft S ex p (Z \ {q}) r')
      (fun _ => SpecialsLeft S ex p ∅) r := by
  have hless : ∀ {r'}, SpecialsLeft S ex p Z r' → SpecialsLeft S ex p (Z \ {q}) r' := fun h =>
    h.mono Set.sdiff_subset
  have hmirrors := minding_mirrors (dstKeeps_src S) (B := SpecialsKnown S ex p Z)
    fun s x st hs => hs.remember x st
  simp only [mirrorFn, WP.bind_iff]
  refine (looks_minding.poll r hr).mono (fun _ r₁ h₁ => ?_) fun _ _ h => SpecialsLeft.none h
  by_cases hroot : q = []
  · rw [if_pos hroot]
    exact ⟨fun _ _ => hroot ▸ ex.excluded_root, hless h₁⟩
  have hexcluder : r₁.syncer.excluder = ex := h₁.syncer.1
  simp only [hroot, if_false, getSyncer, WP.bind_iff, WP.get_iff, WP.pure_iff, hexcluder]
  cases hex : ex.excluded q with
  | true =>
    simp only [if_true, WP.pure_iff]
    refine ⟨fun hc hk => ?_, hless h₁⟩
    rw [if_pos hk] at hc
    cases hc
  | false =>
    simp only [Bool.false_eq_true, if_false, WP.bind_iff]
    refine (wp_minding_query h₁).mono ?_ fun _ _ h => SpecialsLeft.none h
    rintro info r₂ ⟨h₂, d, hsrc, hstat⟩
    -- the listing and `Lstat` agree on the kind
    have hkind : info.kind = k := by
      have hlstat : S.lstat q = .ok info := by
        rw [← hsrc]
        exact hstat
      rw [Root.lstat_eq (.inl hroot)] at hlstat
      exact Option.some.inj ((Tree.kind_of_lstat hlstat).symm.trans (hV.kind hroot))
    subst hkind
    split
    · next hlink =>
      refine ⟨fun _ _ => trivial, hless h₂⟩
    · next hlink =>
      simp only [addSeen, WP.bind_iff, WP.modify_iff]
      have h₃ : SpecialsLeft S ex p Z { r₂ with seen := r₂.seen ++ [q] } := looks_minding.seen r₂ _ h₂
      split
      · rw [WP.bind_iff]
        exact (hmirrors.syncDir q info trivial _ h₃).mono (fun _ _ h => ⟨fun _ _ => trivial, hless h⟩)
          fun _ _ h => SpecialsLeft.none h
      · next hdir =>
        split
        · next hfile =>
          have hspecial : info.kind = .special := by
            cases hk : info.kind with
            | special => rfl
            | dir => exact absurd hk hdir
            | file => exact absurd hk hfile
            | symlink => exact absurd hk hlink
          rw [hspecial] at hV
          have hsp := hV.special hroot hex
          rw [WP.bind_iff, removeSpecial, orFail_joinUnder, pure_bind]
          refine (wp_dropKnown (dstKeeps_src S) h₃ (h₃.syncer.2 q hq hsp)
            fun hs => hs.forgetTree hroot hsp.kind).mono (fun _ _ h => ?_) fun _ _ h => SpecialsLeft.none h
          exact ⟨fun _ _ => trivial, h⟩
        · rw [WP.bind_iff]
          exact (hmirrors.copyRel q info trivial _ h₃).mono (fun _ _ h => ⟨fun _ _ => trivial, hless h⟩)
            fun _ _ h => SpecialsLeft.none h

theorem once_mirrorFn (S : Root) (ex : Excluder) (p : Path) :
    Once (mirrorFn removeSpecial) .src (SpecialsLeft S ex p) (Entry S.tree ex.excluded p)
      fun q => ex.excluded q = false where
  mono hZ h := h.mono hZ
  call q k Z r hV hq hr := wp_visit_monitored hV hq hr
  report q e Z r hr := hr.none
  list q Z r hV hW hr := by
    have hquery := wp_minding_query (g := fun d => Disk.readDir d ⟨.src, q⟩) hr
    rw [wp_liftSys_iff] at hquery ⊢
    rw [wp_attempt_iff]
    refine hquery.mono ?_ fun _ _ h => ⟨h, fun es he => by cases he⟩
    rintro es w' ⟨h, d, hsrc, hread⟩
    refine ⟨h, fun es' he => ?_⟩
    cases he
    have htree : S.tree.readDir q = .ok es := by
      rw [← hsrc]
      exact hread
    unfold Tree.readDir at htree
    split at htree
    · cases htree
      refine ⟨?_, fun e he => ?_⟩
      · rw [List.map_map]
        exact (List.map_id _).symm ▸ S.tree.names_nodup q
      · obtain ⟨x, hx, rfl⟩ := List.mem_map.1 he
        obtain ⟨n, hn⟩ := Tree.has_iff.1 (Tree.mem_names.1 hx)
        refine ⟨hV.below.trans (List.prefix_append q [x]), fun _ => ?_, fun d hpd hdx hne => ?_⟩
        · simp [Tree.kind, hn]
        · have hdq : d <+: q := (List.prefix_concat_iff.1 hdx).resolve_left hne
          by_cases he : d = q
          · exact he ▸ hW
          · exact hV.entered d hpd hdq he
    · cases htree
    · cases htree

theorem wp_mirrorWalk_monitored (hr : SpecialsLeft S ex p Set.univ r) :
    WP (mirrorWalk removeSpecial p) (fun _ => SpecialsLeft S ex p ∅) (fun _ => SpecialsLeft S ex p ∅) r := by
  simp only [mirrorWalk, WP.bind_iff, WP.modify_iff, WP.get_iff, WP.pure_iff]
  have hr₁ : SpecialsLeft S ex p Set.univ { r with seen := [] } := looks_minding.seen r [] hr
  apply (once_mirrorFn S ex p).walk
  have hquery := wp_minding_query (g := fun d => Disk.lstat d ⟨.src, p⟩) hr₁
  rw [wp_liftSys_iff] at hquery ⊢
  rw [wp_attempt_iff]
  refine hquery.mono ?_ fun _ _ h => ⟨h, fun i hi => by cases hi⟩
  rintro info w' ⟨h, d, hsrc, hstat⟩
  refine ⟨h, fun i hi => ?_⟩
  cases hi
  refine ⟨List.prefix_rfl, fun hp => ?_, fun d hpd hdp hne => ?_⟩
  · have hlstat : S.lstat p = .ok info := by
      rw [← hsrc]
      exact hstat
    rw [Root.lstat_eq (.inl hp)] at hlstat
    exact Tree.kind_of_lstat hlstat
  · exact absurd (hdp.sublist.antisymm hpd.sublist) hne

/-- **`SyncTree`** on a source that nobody changes meanwhile removes what is known only, if
the special files are known that its walk comes by. -/
theorem removesKnown_syncTree {r : Run Trees} {s : Str}
    (hfault : ∀ ev ∈ r.world.plan, ev.fault ≠ some .ENOENT)
    (hsource : ∀ ev ∈ r.world.plan, ∀ d, (ev.edit d).src = d.src)
    (hspecials : ∀ q, Special r.src r.syncer.excluder.excluded (clean s).comps q → Known r.syncer q) :
    RemovesKnown (syncTree s) r := by
  obtain ⟨S, hS⟩ : ∃ S, r.world.disk.src = S := ⟨_, rfl⟩
  obtain ⟨ex, hex⟩ : ∃ ex, r.syncer.excluder = ex := ⟨_, rfl⟩
  have hstart : ∀ skip, SpecialsLeft S ex (clean s).comps Set.univ (r.monitored skip) := by
    intro skip
    have hknown : SpecialsKnown S ex (clean s).comps Set.univ r.syncer := by
      subst hS hex
      exact ⟨rfl, fun q _ => hspecials q⟩
    exact Minding.start ⟨hS, fun ev hev d hd => (hsource ev hev d).trans hd⟩ hfault hknown skip
  have hmirrors := minding_mirrors (dstKeeps_src S) (B := SpecialsKnown S ex (clean s).comps ∅)
    fun s x st hs => hs.remember x st
  have hdrops : Dropping (fun _ => True) (SpecialsLeft S ex (clean s).comps ∅) := by
    refine minding_drops (dstKeeps_src S) fun s x hs => ⟨(excluder_forgetTree s x).trans hs.1, ?_⟩
    exact fun q hq => absurd hq (Set.notMem_empty q)
  refine removesKnown_of_minding (A := fun d => d.src = S)
    (B := SpecialsKnown S ex (clean s).comps ∅) fun skip => ?_
  apply WP.after (P := SpecialsLeft S ex (clean s).comps ∅)
  refine wp_event (P := SpecialsLeft S ex (clean s).comps Set.univ) looks_minding
    (fun _ h => SpecialsLeft.none h)
    (fun _ r₁ h₁ => hdrops.known _ trivial r₁ (SpecialsLeft.none h₁)) (fun hc info r₁ h₁ => ?_)
    (hstart skip)
  split
  · exact hmirrors.syncRel_clean hdrops (fun _ => trivial) r₁ (SpecialsLeft.none h₁)
  · rw [WP.bind_iff]
    refine (wp_mirrorWalk_monitored h₁).mono (fun seen r₂ h₂ => ?_) fun _ _ h => h
    exact hdrops.removeDeletedFromStateUnder trivial seen r₂ h₂

/-! ## The visit of a special file -/

theorem wp_removePath_stopped {D : Type} [Disk D] {w : World (Monitored D)} (hplan : w.plan = [])
    (hskip : w.disk.skip = 0) (hhit : w.disk.hit = none) :
    WP (removePath ⟨.dst, q⟩ false) (fun _ _ => False) (fun _ w' => w'.disk.hit = some q) w := by
  have hremove : Disk.removeAll w.disk ⟨.dst, q⟩ (w.clock w.tick) =
      .ok { w.disk with hit := some q } := by
    simp [Disk.removeAll, hskip, hhit]
  simp only [removePath, Bool.false_eq_true, if_false, WP.bind_iff]
  refine wp_syscall hplan rfl (fun d hd => ?_) fun e he => ?_
  · cases hremove.symm.trans hd
    refine (wp_fsyncDir_stopped (A := fun _ => True) (p := q) ⟨⟨rfl, trivial⟩, ?_⟩).mono
      (fun _ _ h => h) fun _ _ h => h.1.1
    show ∀ ev ∈ w.plan, _
    rw [hplan]
    exact fun ev hev => absurd hev List.not_mem_nil
  · cases hremove.symm.trans he

/-- **The visit of a special file** asks nothing: it removes what is known exactly if the
special file, or something below it, happens to be known. -/
theorem removesKnown_visit_iff {r : Run Trees} (hr : r.Quiet) (hq : q ≠ [])
    (hk : r.src.kind q = some .special) (hex : r.syncer.excluder.excluded q = false) :
    RemovesKnown (mirrorFn removeSpecial q (.ok .special)) r ↔ Known r.syncer q := by
  constructor
  · intro h
    have hstop : WP (mirrorFn removeSpecial q (.ok .special)) (fun _ _ => False)
        (fun _ r' => r'.world.disk.hit = some q ∧ r'.syncer = r.syncer) (r.monitored 0) := by
      have hplan : (r.monitored 0).world.plan = [] := by
        show r.world.plan.map Event.monitored = []
        rw [hr.plan]
        rfl
      obtain ⟨n, hn, hkind⟩ := Option.map_eq_some_iff.1 hk
      have hlstat : Disk.lstat (r.monitored 0).world.disk ⟨.src, q⟩ = .ok n.info := by
        show r.world.disk.src.lstat q = _
        rw [Root.lstat_eq (.inl hq)]
        exact Tree.lstat_of_get hn
      have hexcl : (r.monitored 0).syncer.excluder.excluded q = false := hex
      have hlive : (r.monitored 0).syncer.dryRun = false := hr.live
      have hinfo : n.info.kind = .special := hkind
      simp only [mirrorFn, WP.bind_iff, wp_liftSys_iff]
      refine WP.of_ok (pollCtx_run hplan) ?_
      simp only [hq, if_false, getSyncer, WP.bind_iff, WP.get_iff, WP.pure_iff]
      show WP (if (r.monitored 0).syncer.excluder.excluded q = true then _ else _) _ _ (r.monitored 0)
      rw [hexcl]
      simp only [Bool.false_eq_true, if_false, WP.bind_iff, wp_liftSys_iff]
      refine WP.of_ok (query_ok hplan hlstat) ?_
      simp only [hinfo, reduceCtorEq, if_false, ne_eq, not_false_eq_true, if_true, addSeen, removeSpecial,
        removeBackupPath, orFail_joinUnder, pure_bind, getSyncer, WP.bind_iff, WP.modify_iff, WP.get_iff,
        WP.pure_iff, wp_liftSys_iff]
      show WP (removePath ⟨.dst, q⟩ (r.monitored 0).syncer.dryRun) _ _ (r.monitored 0).world
      rw [hlive]
      exact (wp_removePath_stopped hplan rfl rfl).mono (fun _ _ h => h.elim) fun _ _ h => ⟨h, rfl⟩
    have hend := (hstop.mono (fun _ _ h => h.elim) fun _ _ h => h).after
    have hknown := h 0 q hend.1
    rw [hend.2] at hknown
    exact hknown
  · intro hknown
    have hstart : ∀ skip, SpecialsLeft r.world.disk.src r.syncer.excluder q {q} (r.monitored skip) := by
      intro skip
      have hspecials : SpecialsKnown r.world.disk.src r.syncer.excluder q {q} r.syncer := by
        refine ⟨rfl, fun y hy _ => ?_⟩
        rw [Set.mem_singleton_iff.1 hy]
        exact hknown
      have hnobody : ∀ ev, ev ∉ r.world.plan := by
        rw [hr.plan]
        exact fun _ => List.not_mem_nil
      have hheld : Held (fun d : Trees => d.src = r.world.disk.src) r.world :=
        ⟨rfl, fun ev hev => absurd hev (hnobody ev)⟩
      exact Minding.start hheld (fun ev hev => absurd hev (hnobody ev)) hspecials skip
    have hentry : Entry r.src r.syncer.excluder.excluded q q .special :=
      ⟨List.prefix_rfl, fun _ => hk, fun d hqd hdq hne => absurd (hdq.sublist.antisymm hqd.sublist) hne⟩
    have hend : ∀ skip, SpecialsLeft r.world.disk.src r.syncer.excluder q ∅
        (after (mirrorFn removeSpecial q (.ok .special)) (r.monitored skip)) := by
      intro skip
      apply WP.after (P := SpecialsLeft r.world.disk.src r.syncer.excluder q ∅)
      exact (wp_visit_monitored hentry (Set.mem_singleton q) (hstart skip)).mono
        (fun _ _ h => SpecialsLeft.none h.2)
        fun _ _ h => h
    exact removesKnown_of_minding hend

end Tree

/-- **Outside a deep `Reconcile`, only known backups are removed**, from any state and
whichever calls fail: always by `SyncRel` and by a light `Reconcile`, and by `SyncTree`
if the special files are known that its walk comes by. The visit of a special file
removes a known backup exactly if the special file is known. -/
theorem removals_known {r : Run Trees} (hfault : ∀ ev ∈ r.world.plan, ev.fault ≠ some .ENOENT) :
    (∀ s, RemovesKnown (syncRel s) r) ∧
    (r.syncer.reconciled = true → RemovesKnown reconcile r) ∧
    (∀ s, (∀ ev ∈ r.world.plan, ∀ d, (ev.edit d).src = d.src) →
      (s ≠ ['.'] →
        ∀ q, Special r.src r.syncer.excluder.excluded (clean s).comps q → Known r.syncer q) →
      RemovesKnown (syncTree s) r) ∧
    (r.Quiet → ∀ p q, Special r.src r.syncer.excluder.excluded p q →
      (RemovesKnown (mirrorFn removeSpecial q (.ok .special)) r ↔ Known r.syncer q)) := by
  refine ⟨removesKnown_syncRel hfault, removesKnown_reconcile hfault, fun s hsource hspecials => ?_,
    fun hr p q hsp => ?_⟩
  · by_cases hdot : s = ['.']
    · -- the call returns at once
      subst hdot
      intro skip q hhit
      cases hhit
    · exact removesKnown_syncTree hfault hsource (hspecials hdot)
  · exact removesKnown_visit_iff hr hsp.reach.ne_root hsp.kind
      (hsp.reach.kept q hsp.reach.below List.prefix_rfl)

/-- The directory `b` with the node `n` in it. -/
def holding (n : Node) : Tree :=
  .ofList [([], .dir ⟨0o755, 4096, 1⟩), ([nameB], .dir ⟨0o755, 4096, 1⟩), ([nameB, nameA], n)]

/-- A source with a pipe where the destination has a file. -/
def pipeWorld : World Trees :=
  .still (holding (.special ⟨0o644, 0, 8⟩)) (holding (.file ⟨0o644, 7, [1, 2]⟩)) fun n => 100 + n

/-- A file that was backed up has become a pipe: `SyncTree` removes a known backup. -/
theorem removals_known_pipe : ∃ r : Run Trees, RemovesKnown (syncTree ['b']) r ∧
    (after (syncTree ['b']) (r.monitored 0)).world.disk.hit = some [nameB, nameA] := by
  let backed : World Trees := .still (holding (.file ⟨0o644, 7, [1, 2]⟩)) .empty fun n => 100 + n
  let r := (after (syncTree ['b']) (freshRun backed [])).edit (holding (.special ⟨0o644, 0, 8⟩))
  have hplan : r.world.plan = [] := List.isEmpty_iff.1 (by decide +kernel)
  have hnobody : ∀ ev, ev ∉ r.world.plan := by
    rw [hplan]
    exact fun _ => List.not_mem_nil
  have hspecials : ∀ q n, r.src.get q = some n → n.kind = .special → Known r.syncer q := by
    decide +kernel
  refine ⟨r, ?_, by decide +kernel⟩
  refine (removals_known fun ev hev => absurd hev (hnobody ev)).2.2.1 ['b']
    (fun ev hev => absurd hev (hnobody ev)) fun _ q hsp => ?_
  obtain ⟨n, hn, hkind⟩ := Option.map_eq_some_iff.1 hsp.kind
  exact hspecials q n hn hkind

/-- A fresh syncer: `SyncTree` comes by the pipe and removes a file that it has never
heard of. -/
theorem unknown_backup_removed : ∃ r r' : Run Trees,
    r = freshRun pipeWorld [] ∧ (syncTree ['b']).run r = .ok () r' ∧
    r.dst.get [nameB, nameA] = some (.file ⟨0o644, 7, [1, 2]⟩) ∧ ¬ r'.dst.Has [nameB, nameA] ∧
    (after (syncTree ['b']) (r.monitored 0)).world.disk.hit = some [nameB, nameA] ∧
    ¬ Known (after (syncTree ['b']) (r.monitored 0)).syncer [nameB, nameA] := by
  have hrun := ok_of_returns (syncTree ['b']) (freshRun pipeWorld []) (by decide +kernel)
  refine ⟨_, _, rfl, hrun, ?_, ?_, ?_, ?_⟩
  · decide +kernel
  · decide +kernel
  · decide +kernel
  · decide +kernel

end Dockerset.Netfin
