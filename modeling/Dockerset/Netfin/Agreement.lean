import Dockerset.Netfin.DeepReconcile

/-!
# What the two paths exclude

`Reconcile` does not enter an excluded directory; `SyncRel` and `SyncTree` ask
about the path they are given and about nothing above it. A pattern that names a
directory without naming what is in it (`b`, and not `b/**`) keeps the walk out
of the directory and lets an event in.
-/

namespace Dockerset.Netfin
open Go Os Logic

/-- There is something new at `p` in the destination. -/
def Copies (p : Path) (r r' : Run Trees) : Prop := r'.dst.Has p ∧ r'.dst.get p ≠ r.dst.get p

/-- A call that was made for an event at `p`. -/
def EventCall (p : Path) (call : SyncM Trees Unit) : Prop :=
  ∃ s, Names s p ∧ (call = syncRel s ∨ call = syncTree s)

section

variable {r r' : Run Trees} {p : Path} {S : Tree} {ex : Path → Bool}

theorem not_copies_of_excluded (hr : r.Quiet) (hex : r.syncer.excluder.excluded p = true)
    {call : SyncM Trees Unit} (hcall : EventCall p call) : ¬ Copies p r (after call r) := by
  have hdrop : ∀ r', (Dropped p r r' ∨ r' = r) → ¬ Copies p r r' := by
    rintro r' ((⟨-, rfl⟩ | ⟨-, t, n, m, rfl, hsw⟩) | rfl) ⟨hhas, hne⟩
    · exact hne rfl
    · exact Tree.shape_ne_none.2 hhas (hsw.gone p p rfl List.prefix_rfl)
    · exact hne rfl
  obtain ⟨s, hs, hcall⟩ := hcall
  have horder : orderFor r.src r.syncer.excluder.excluded p = .drop := by rw [orderFor, if_pos hex]
  have hrun : call.run r = (removeKnownBackupPath p ⟨.dst, p⟩).run r := by
    rcases hcall with rfl | rfl
    · rw [syncRel_run hr hs, horder]
      rfl
    · rw [syncTree_run hr hs, horder]
      rfl
  apply hdrop
  have hwp := wp_drop hr hs.2.2
  unfold after
  rw [hrun]
  cases hres : (removeKnownBackupPath p ⟨.dst, p⟩).run r with
  | ok _ r' => exact .inl (hwp.ok hres)
  | error _ r' => exact .inr (hwp.error hres)

/-- The walk reaches a directory or file with nothing excluded at or above it. -/
theorem mirrored_of_kept (hp : p ≠ []) (hk : S.kind p = some .dir ∨ S.kind p = some .file)
    (hex : ex p = false) (habove : ∀ d, d <+: p → d ≠ p → ex d = false) : Mirrored S ex p := by
  have hnode : ∃ n, S.get p = some n ∧ n.kind ≠ .symlink := by
    rcases hk with hk | hk
    all_goals
      obtain ⟨n, hn, hkind⟩ := Option.map_eq_some_iff.1 hk
      exact ⟨n, hn, by rw [hkind]; decide⟩
  refine ⟨List.nil_prefix, hp, hnode, fun d _ hd => ?_⟩
  by_cases he : d = p
  · exact he ▸ hex
  · exact habove d hd he

/-- A source `S`, an empty directory as the destination, and a fresh syncer. -/
def emptyRun (S : Tree) (patterns : List Str) : Run Trees :=
  freshRun (.still S (.leaf (.dir ⟨0o755, 4096, 1⟩)) fun n => 100 + n) patterns

theorem emptyRun_quiet (S : Tree) (patterns : List Str) : (emptyRun S patterns).Quiet := ⟨rfl, rfl, rfl⟩

theorem emptyRun_dst_none {patterns : List Str} {q : Path} (hq : q ≠ []) :
    (emptyRun S patterns).dst.get q = none := by
  change (Tree.leaf _).get q = none
  rw [Tree.get_leaf, if_neg hq]

/-- With an empty destination there is room for everything, -/
theorem not_stuck_emptyRun {patterns : List Str} (hp : p ≠ []) :
    ¬ Stuck S false p (emptyRun S patterns).dst := by
  have root : ∀ {d : Path}, (emptyRun S patterns).dst.Has d → (emptyRun S patterns).dst.IsDir d := by
    intro d hd
    by_cases hroot : d = []
    · subst hroot
      exact Tree.isDir_iff.2 ⟨_, Tree.get_leaf _ _⟩
    · rw [Tree.has_iff, emptyRun_dst_none hroot] at hd
      obtain ⟨n, hn⟩ := hd
      cases hn
  intro hst
  cases hst with
  | dir _ _ hh hn => exact hn (root hh)
  | overDir _ hd =>
    obtain ⟨a, ha⟩ := Tree.isDir_iff.1 hd
    rw [emptyRun_dst_none hp] at ha
    cases ha
  | file _ _ hh hn => exact hn (root hh)
  | special _ hrm => cases hrm

/-- and a visit puts the path there. -/
theorem Touch.has_of_empty {T : Set Time} {U : Perm} {t t' : Tree} {m' : StateMap}
    (h : Touch S T U false p t ∅ t' m') (ht : t.get p = none)
    (hk : S.kind p = some .dir ∨ S.kind p = some .file) : t'.Has p := by
  cases h with
  | dirKnown _ hm => cases hm
  | dirMade _ hmade => exact (hmade.isDir List.prefix_rfl).has
  | fileKnown _ hm => cases hm
  | fileMatched _ hrep =>
    obtain ⟨n, hn, -⟩ := reports_iff.1 hrep
    rw [ht] at hn
    cases hn
  | fileCopied _ hcopied => exact Tree.has_iff_shape.2 (by rw [hcopied.shape, if_pos rfl]; rfl)
  | specialKept hS =>
    rw [Tree.kind_of_get hS] at hk
    simp at hk
  | specialRemoved _ hrm => cases hrm

/-- `SyncRel` copies a directory or file into an empty destination if the path
itself is not excluded. -/
theorem syncRel_emptyRun_copies {patterns : List Str} (hp : p ≠ [])
    (hk : S.kind p = some .dir ∨ S.kind p = some .file)
    (hex : (newExcluder patterns).excluded p = false) :
    Copies p (emptyRun S patterns) (after (syncRel p.str) (emptyRun S patterns)) := by
  have hq := emptyRun_quiet S patterns
  have hs : Names p.str p := names_str hp
  have htouch : WP (syncRel p.str) (fun _ => Touched false p (emptyRun S patterns))
      (fun _ => GotStuck false p (emptyRun S patterns)) (emptyRun S patterns) := by
    apply (WP.congr (syncRel_run hq hs)).2
    have hget : (emptyRun S patterns).src.get p = S.get p := rfl
    have hexr : (emptyRun S patterns).syncer.excluder.excluded p = false := hex
    rcases hk with hk | hk
    · obtain ⟨a, ha⟩ := Tree.isDir_iff.1 hk
      simp only [orderFor, hexr, Bool.false_eq_true, if_false, hget, ha, obey]
      exact wp_touch_dir hq ha
    · obtain ⟨n, hn, hkind⟩ := Option.map_eq_some_iff.1 hk
      obtain ⟨g, rfl⟩ := Node.kind_eq_file.1 hkind
      simp only [orderFor, hexr, Bool.false_eq_true, if_false, hget, hn, obey]
      exact wp_touch_file hq hp hn
  obtain ⟨u, r', hr', t, n, m, rfl, ht⟩ :=
    (htouch.mono (fun _ _ h => h) fun _ _ h => not_stuck_emptyRun hp h.1).returns
  rw [after_of_ok hr']
  have hhas : t.Has p := ht.has_of_empty (emptyRun_dst_none hp) hk
  refine ⟨hhas, ?_⟩
  rw [emptyRun_dst_none hp]
  exact Option.isSome_iff_ne_none.1 hhas

/-- **Where the event path and the walk agree.** A directory or file of the source
is copied by an event only if the walk reaches it, exactly if it is excluded
itself or nothing above it is. -/
theorem events_agree_iff (patterns : List Str) (S : Tree) (p : Path) (hp : p ≠ [])
    (hk : S.kind p = some .dir ∨ S.kind p = some .file) :
    (∀ r call, r.Quiet → r.src = S → r.syncer.excluder = newExcluder patterns → EventCall p call →
      Copies p r (after call r) → Mirrored S (newExcluder patterns).excluded p) ↔
    ((newExcluder patterns).excluded p = true ∨
      ∀ d, d <+: p → d ≠ p → (newExcluder patterns).excluded d = false) := by
  constructor
  · intro hagree
    cases hex : (newExcluder patterns).excluded p with
    | true => exact Or.inl rfl
    | false =>
      have hs : Names p.str p := names_str hp
      have hm := hagree (emptyRun S patterns) (syncRel p.str) (emptyRun_quiet S patterns) rfl rfl
        ⟨p.str, hs, Or.inl rfl⟩ (syncRel_emptyRun_copies hp hk hex)
      exact Or.inr fun d hd _ => hm.kept d List.nil_prefix hd
  · rintro hcond r call hr rfl hexcl hcall hcopies
    rw [← hexcl] at hcond ⊢
    cases hex : r.syncer.excluder.excluded p with
    | true => exact absurd hcopies (not_copies_of_excluded hr hex hcall)
    | false =>
      rw [hex] at hcond
      exact mirrored_of_kept hp hk hex (hcond.resolve_left (by decide))

/-- A directory `b` with a file `a` in it. -/
def sharedTree : Tree :=
  .ofList [([], .dir ⟨0o755, 4096, 1⟩), ([nameB], .dir ⟨0o755, 4096, 1⟩),
    ([nameB, nameA], .file ⟨0o644, 7, [1, 2]⟩)]

/-- The pattern `b/**` covers what is in the directory as well. -/
theorem events_agree_below :
    (newExcluder ["b/**".toList]).excluded [nameB, nameA] = true ∧
    ∀ r call, r.Quiet → r.src = sharedTree → r.syncer.excluder = newExcluder ["b/**".toList] →
      EventCall [nameB, nameA] call → Copies [nameB, nameA] r (after call r) →
      Mirrored sharedTree (newExcluder ["b/**".toList]).excluded [nameB, nameA] := by
  have hex : (newExcluder ["b/**".toList]).excluded [nameB, nameA] = true := by decide +kernel
  exact ⟨hex, (events_agree_iff _ _ _ (by decide) (by decide +kernel)).2 (Or.inl hex)⟩

/-- The pattern `b` keeps the walk out of the directory, and an event for `b/a`
copies the file. -/
theorem events_disagree :
    ¬ ∀ r call, r.Quiet → r.src = sharedTree → r.syncer.excluder = newExcluder [['b']] →
      EventCall [nameB, nameA] call → Copies [nameB, nameA] r (after call r) →
      Mirrored sharedTree (newExcluder [['b']]).excluded [nameB, nameA] := by
  intro hagree
  have hs : Names (Path.str [nameB, nameA]) [nameB, nameA] := ⟨by decide, clean_path _, by decide⟩
  have hcopies : Copies [nameB, nameA] (emptyRun sharedTree [['b']])
      (after (syncRel (Path.str [nameB, nameA])) (emptyRun sharedTree [['b']])) :=
    syncRel_emptyRun_copies (by decide) (by decide +kernel) (by decide +kernel)
  have hm := hagree (emptyRun sharedTree [['b']]) _ (emptyRun_quiet _ _) rfl rfl
    ⟨_, hs, Or.inl rfl⟩ hcopies
  revert hm
  decide +kernel

end

end Dockerset.Netfin
