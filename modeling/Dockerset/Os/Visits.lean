import Dockerset.Os.Quiet

/-!
# The order of a walk over a tree that stays as it is

When the callback of a walk leaves the walked tree alone, and which directories
it enters depends on their paths only, the walk is a loop over a list that the
tree determines: `visits`. The list is in preorder, and it contains exactly the
paths that can be reached through entered directories, or else the report of a
directory that lies too deep to be listed.
-/

namespace Dockerset.Os
open Go Logic

/-- The visit of `p`, followed by `below` if it is a directory that is entered. -/
def visitNode (S : Tree) (enter : Path → Bool) (p : Path) (below : List (Path × Except Err Kind)) :
    List (Path × Except Err Kind) :=
  let k := (S.kind p).getD .special
  (p, .ok k) :: if k = .dir ∧ enter p = true then below else []

/-- The calls a walk from `p` makes to its callback, with `fuel` levels to go. -/
def visits (S : Tree) (enter : Path → Bool) : Nat → Path → List (Path × Except Err Kind)
  | 0, p => visitNode S enter p [(p, .error (.errno .ENAMETOOLONG))]
  | fuel + 1, p => visitNode S enter p ((S.names p).flatMap fun x => visits S enter fuel (p ++ [x]))

section Membership

variable {S : Tree} {enter : Path → Bool}

theorem visitNode_eq {p : Path} {k : Kind} (hk : S.kind p = some k)
    (below : List (Path × Except Err Kind)) :
    visitNode S enter p below = (p, .ok k) :: if k = .dir ∧ enter p = true then below else [] := by
  rw [visitNode, hk]
  rfl

theorem mem_visitNode {p : Path} (hp : S.Has p) {below : List (Path × Except Err Kind)}
    {v : Path × Except Err Kind} : v ∈ visitNode S enter p below ↔
      (∃ k, S.kind p = some k ∧ v = (p, .ok k)) ∨ S.IsDir p ∧ enter p = true ∧ v ∈ below := by
  obtain ⟨k, hk⟩ := Tree.exists_kind hp
  rw [visitNode_eq hk, List.mem_cons, Tree.IsDir, hk]
  split
  · next h => simp [h]
  · next h => simp [← and_assoc, h]

theorem prefix_of_ne {p d q : Path} {x : Name} (hq : p ++ [x] <+: q) (hpd : p <+: d) (hdq : d <+: q)
    (hne : d ≠ p) : p ++ [x] <+: d := by
  rcases List.prefix_or_prefix_of_prefix hq hdq with h | h
  · exact h
  · rcases List.prefix_concat_iff.1 h with rfl | h'
    · exact List.prefix_rfl
    · exact absurd (prefix_antisymm h' hpd) hne

/-- Every visit is at or below the start, and reports an entry of the tree or a
directory at the depth limit. -/
theorem of_mem_visits (fuel : Nat) : ∀ p : Path, S.Has p → ∀ v ∈ visits S enter fuel p,
    p <+: v.1 ∧ (∀ d, p <+: d → d <+: v.1 → d ≠ v.1 → enter d = true) ∧
    ((∃ k, v.2 = .ok k ∧ S.kind v.1 = some k) ∨
      (v.2 = .error (.errno .ENAMETOOLONG) ∧ S.IsDir v.1 ∧ v.1.length = p.length + fuel)) := by
  have hstart : ∀ p d : Path, p <+: d → d <+: p → d ≠ p → enter d = true := fun p d h h' hne =>
    absurd (prefix_antisymm h' h) hne
  induction fuel with
  | zero =>
    intro p hp v hv
    rcases (mem_visitNode hp).1 hv with ⟨k, hk, rfl⟩ | ⟨hd, -, hv⟩
    · exact ⟨List.prefix_rfl, hstart p, .inl ⟨k, rfl, hk⟩⟩
    · obtain rfl := List.mem_singleton.1 hv
      exact ⟨List.prefix_rfl, hstart p, .inr ⟨rfl, hd, rfl⟩⟩
  | succ fuel ih =>
    intro p hp v hv
    rcases (mem_visitNode hp).1 hv with ⟨k, hk, rfl⟩ | ⟨-, henter, hv⟩
    · exact ⟨List.prefix_rfl, hstart p, .inl ⟨k, rfl, hk⟩⟩
    · obtain ⟨x, hx, hvx⟩ := List.mem_flatMap.1 hv
      obtain ⟨hpre, hent, hend⟩ := ih (p ++ [x]) (Tree.mem_names.1 hx) v hvx
      refine ⟨(List.prefix_append _ _).trans hpre, fun d h h' hne => ?_, ?_⟩
      · by_cases hdp : d = p
        · exact hdp ▸ henter
        · exact hent d (prefix_of_ne hpre h h' hdp) h' hne
      · rcases hend with h | ⟨h, hd', hl⟩
        · exact .inl h
        · refine .inr ⟨h, hd', ?_⟩
          rw [hl, List.length_append, List.length_singleton]
          omega

theorem start_mem_visits (fuel : Nat) {p : Path} (hp : S.Has p) :
    ∃ k, (p, .ok k) ∈ visits S enter fuel p := by
  obtain ⟨k, hk⟩ := Tree.exists_kind hp
  refine ⟨k, ?_⟩
  cases fuel with
  | zero => exact (mem_visitNode hp).2 (.inl ⟨k, hk, rfl⟩)
  | succ fuel => exact (mem_visitNode hp).2 (.inl ⟨k, hk, rfl⟩)

/-- Unless a directory lies too deep, every path that can be reached through
entered directories is visited. -/
theorem mem_visits (fuel : Nat) : ∀ p q : Path, p <+: q → S.Has q →
    (∀ d, p <+: d → d <+: q → d ≠ q → enter d = true) →
    (∀ v ∈ visits S enter fuel p, ∀ e, v.2 ≠ .error e) →
    ∃ k, (q, .ok k) ∈ visits S enter fuel p := by
  induction fuel with
  | zero =>
    intro p q hpq hq hent hok
    have hp := Tree.has_of_isPrefix hq hpq
    by_cases he : p = q
    · exact he ▸ start_mem_visits 0 hp
    · -- a directory above `q` would have been reported
      have hd := Tree.isDir_of_above hq hpq he
      have hmem : (p, .error (.errno .ENAMETOOLONG)) ∈ visits S enter 0 p := (mem_visitNode hp).2
        (.inr ⟨hd, hent p List.prefix_rfl hpq he, List.mem_singleton_self _⟩)
      exact absurd rfl (hok _ hmem _)
  | succ fuel ih =>
    intro p q hpq hq hent hok
    have hp := Tree.has_of_isPrefix hq hpq
    by_cases he : p = q
    · exact he ▸ start_mem_visits (fuel + 1) hp
    · have hd := Tree.isDir_of_above hq hpq he
      have henter := hent p List.prefix_rfl hpq he
      obtain ⟨r, rfl⟩ := hpq
      obtain ⟨x, xs, rfl⟩ := List.exists_cons_of_ne_nil (l := r) (by rintro rfl; simp at he)
      have hx : p ++ [x] <+: p ++ x :: xs := ⟨xs, by simp⟩
      have hmem : x ∈ S.names p := Tree.mem_names.2 (Tree.has_of_isPrefix hq hx)
      have hbelow : ∀ v ∈ visits S enter fuel (p ++ [x]), v ∈ visits S enter (fuel + 1) p :=
        fun v hv => (mem_visitNode hp).2 (.inr ⟨hd, henter, List.mem_flatMap.2 ⟨x, hmem, hv⟩⟩)
      obtain ⟨k', hk'⟩ := ih (p ++ [x]) _ hx hq
        (fun d h h' hne => hent d ((List.prefix_append _ _).trans h) h' hne)
        (fun v hv e => hok v (hbelow v hv) e)
      exact ⟨k', hbelow _ hk'⟩

variable (enter) in
/-- What lies on the way to a visit is visited too. -/
theorem mem_visits_above (fuel : Nat) : ∀ p : Path, S.Has p → ∀ v ∈ visits S enter fuel p,
    ∀ d, p <+: d → d <+: v.1 → ∃ k, (d, .ok k) ∈ visits S enter fuel p := by
  induction fuel with
  | zero =>
    intro p hp v hv d hpd hdv
    have hvp : v.1 = p := by
      rcases (mem_visitNode hp).1 hv with ⟨k, -, rfl⟩ | ⟨-, -, hv⟩
      · rfl
      · rw [List.mem_singleton.1 hv]
    rw [prefix_antisymm (hvp ▸ hdv) hpd]
    exact start_mem_visits 0 hp
  | succ fuel ih =>
    intro p hp v hv d hpd hdv
    by_cases hdp : d = p
    · rw [hdp]
      exact start_mem_visits (fuel + 1) hp
    · rcases (mem_visitNode hp).1 hv with ⟨k, -, rfl⟩ | ⟨hd, henter, hv⟩
      · exact absurd (prefix_antisymm hdv hpd) hdp
      · obtain ⟨x, hx, hvx⟩ := List.mem_flatMap.1 hv
        have hhas := Tree.mem_names.1 hx
        have hpre := (of_mem_visits fuel _ hhas v hvx).1
        obtain ⟨k', hk'⟩ := ih _ hhas v hvx d (prefix_of_ne hpre hpd hdv hdp) hdv
        exact ⟨k', (mem_visitNode hp).2 (.inr ⟨hd, henter, List.mem_flatMap.2 ⟨x, hx, hk'⟩⟩)⟩

variable (enter) in
theorem visits_pairwise (fuel : Nat) : ∀ p : Path, S.Has p →
    (visits S enter fuel p).Pairwise fun a b => b.1 <+: a.1 → ∃ e, b.2 = .error e := by
  induction fuel with
  | zero =>
    intro p hp
    obtain ⟨k, hk⟩ := Tree.exists_kind hp
    rw [visits, visitNode_eq hk]
    split <;> simp
  | succ fuel ih =>
    intro p hp
    obtain ⟨k, hk⟩ := Tree.exists_kind hp
    rw [visits, visitNode_eq hk]
    split
    · rw [List.pairwise_cons]
      constructor
      · intro v hv hvp
        obtain ⟨x, hx, hvx⟩ := List.mem_flatMap.1 hv
        have hpre := (of_mem_visits fuel _ (Tree.mem_names.1 hx) v hvx).1
        exact absurd (hpre.trans hvp) fun h => by
          have hl := h.length_le
          simp only [List.length_append, List.length_singleton] at hl
          omega
      · rw [List.pairwise_flatMap]
        refine ⟨fun x hx => ih _ (Tree.mem_names.1 hx), ?_⟩
        refine (S.names_nodup p).imp_of_mem ?_
        intro x y hx hy hne a ha b hb hba
        have ha' := (of_mem_visits fuel _ (Tree.mem_names.1 hx) a ha).1
        have hb' := (of_mem_visits fuel _ (Tree.mem_names.1 hy) b hb).1
        have heq : p ++ [x] = p ++ [y] := by
          rcases List.prefix_or_prefix_of_prefix ha' (hb'.trans hba) with h | h
          · exact h.eq_of_length (by simp)
          · exact (h.eq_of_length (by simp)).symm
        exact absurd (by simpa using heq) hne
    · simp

variable {fuel : Nat} {p q : Path} {k : Kind} {done rest : List (Path × Except Err Kind)}

theorem above_of_visit (hp : S.Has p) (hl : visits S enter fuel p = done ++ (q, .ok k) :: rest)
    {d : Path} (hpd : p <+: d) (hdq : d <+: q) (hne : d ≠ q) : ∃ k', (d, .ok k') ∈ done := by
  have hpw := visits_pairwise enter fuel p hp
  obtain ⟨k', hk'⟩ := mem_visits_above enter fuel p hp (q, .ok k) (by rw [hl]; simp) d hpd hdq
  rw [hl] at hpw hk'
  refine ⟨k', ?_⟩
  rcases List.mem_append.1 hk' with h | h
  · exact h
  · rcases List.mem_cons.1 h with h | h
    · exact absurd (congrArg Prod.fst h) hne
    · obtain ⟨e, he⟩ := (List.pairwise_cons.1 (List.pairwise_append.1 hpw).2.1).1 _ h hdq
      cases he

theorem fresh_of_visit (hp : S.Has p) (hl : visits S enter fuel p = done ++ (q, .ok k) :: rest)
    {v : Path × Except Err Kind} (hv : v ∈ done) : ¬ q <+: v.1 := by
  have hpw := visits_pairwise enter fuel p hp
  rw [hl] at hpw
  intro hqv
  obtain ⟨e, he⟩ := (List.pairwise_append.1 hpw).2.2 v hv (q, .ok k) (by simp) hqv
  cases he

theorem next_visit (hp : S.Has p) {entry : Except Err Kind}
    (hl : visits S enter fuel p = done ++ (q, entry) :: rest) :
    (∃ k, entry = .ok k ∧ S.kind q = some k) ∨
      (entry = .error (.errno .ENAMETOOLONG) ∧ S.IsDir q ∧ q.length = p.length + fuel) := by
  have hv : (q, entry) ∈ visits S enter fuel p := by
    rw [hl]
    simp
  exact (of_mem_visits fuel p hp _ hv).2.2

end Membership

section Run

variable {D σ : Type} [Disk D] [HasWorld D σ] {fn : WalkFn σ} {side : Side} {S : Tree}
  {enter : Path → Bool} {R : σ → Prop}

/-- The callback keeps `R`, and `R` determines what the walk meets. -/
structure Steady (fn : WalkFn σ) (side : Side) (S : Tree) (enter : Path → Bool) (R : σ → Prop) :
    Prop where
  list : ∀ s p, R s → S.IsDir p → (liftSys (attempt (readDir ⟨side, p⟩)) : EStateM Err σ _).run s =
    .ok (.ok ((S.names p).map fun x => (x, (S.kind (p ++ [x])).getD .special))) s
  call : ∀ s p k, R s → S.kind p = some k → WP (fn p (.ok k))
    (fun c s' => R s' ∧ c = if k = .dir ∧ enter p = false then .skipDir else .next) (fun _ _ => True) s
  report : ∀ s p e, ∃ e' s', (fn p (.error e)).run s = .error e' s'

/-- The callback on each visit in turn. -/
def visitAll (fn : WalkFn σ) (l : List (Path × Except Err Kind)) : EStateM Err σ Unit :=
  forM l fun v => do
    let _ ← fn v.1 v.2
    pure ()

theorem visitAll_cons (v : Path × Except Err Kind) (l : List (Path × Except Err Kind)) :
    visitAll fn (v :: l) = (fn v.1 v.2 >>= fun _ => visitAll fn l) := by
  simp [visitAll, List.forM_cons]

theorem visitAll_append (l l' : List (Path × Except Err Kind)) :
    visitAll fn (l ++ l') = (visitAll fn l >>= fun _ => visitAll fn l') := by
  simp [visitAll, List.forM_append]

theorem Steady.visitAll (h : Steady fn side S enter R) (fuel : Nat) {p : Path} (hp : S.Has p) {s : σ}
    (hs : R s) : WP (visitAll fn (visits S enter fuel p)) (fun _ => R) (fun _ _ => True) s := by
  refine WP.forM (fun _ => R) hs fun done v rest t hl ht => ?_
  have hv : v ∈ visits S enter fuel p := by rw [hl]; simp
  simp only [WP.bind_iff, WP.pure_iff]
  rcases (of_mem_visits fuel p hp v hv).2.2 with ⟨k, hk, hkind⟩ | ⟨he, -⟩
  · rw [hk]
    exact (h.call t v.1 k ht hkind).mono (fun _ _ hc => hc.1) fun _ _ h => h
  · rw [he]
    obtain ⟨e', s', hr⟩ := h.report t v.1 (.errno .ENAMETOOLONG)
    exact .of_error hr trivial

/-- Visits that all return have reported no error. -/
theorem Steady.no_report (h : Steady fn side S enter R) {l : List (Path × Except Err Kind)} :
    ∀ {s s' : σ}, (Os.visitAll fn l).run s = .ok () s' → ∀ v ∈ l, ∀ e, v.2 ≠ .error e := by
  induction l with
  | nil => exact fun _ v hv => absurd hv List.not_mem_nil
  | cons v l ih =>
    intro s s' hrun
    rw [visitAll_cons, EStateM.run_bind] at hrun
    cases hv : (fn v.1 v.2).run s with
    | error e t =>
      rw [hv] at hrun
      cases hrun
    | ok c t =>
      rw [hv] at hrun
      intro x hx e he
      rcases List.mem_cons.1 hx with rfl | hx
      · obtain ⟨e', t', hr⟩ := h.report s x.1 e
        rw [he, hr] at hv
        cases hv
      · exact ih hrun x hx e he

theorem Steady.walkEntries (h : Steady fn side S enter R) (fuel : Nat) {p : Path}
    (child : Name × Kind → EStateM Err σ Ctl)
    (hchild : ∀ x s, R s → S.Has (p ++ [x]) →
      (child (x, (S.kind (p ++ [x])).getD .special)).run s =
        (Os.visitAll fn (visits S enter fuel (p ++ [x])) >>= fun _ => pure .next).run s)
    (xs : List Name) : ∀ s, R s → (∀ x ∈ xs, S.Has (p ++ [x])) →
      (Os.walkEntries child (xs.map fun x => (x, (S.kind (p ++ [x])).getD .special))).run s =
        (Os.visitAll fn (xs.flatMap fun x => visits S enter fuel (p ++ [x]))).run s := by
  induction xs with
  | nil => exact fun _ _ _ => rfl
  | cons x xs ih =>
    intro s hs hx
    have hx0 := hx x List.mem_cons_self
    rw [List.map_cons, Os.walkEntries, List.flatMap_cons, visitAll_append, EStateM.run_bind,
      hchild x s hs hx0, EStateM.run_bind, EStateM.run_bind]
    have hvis := h.visitAll fuel hx0 hs
    cases hr : (Os.visitAll fn (visits S enter fuel (p ++ [x]))).run s with
    | ok u s' => exact ih s' (hvis.ok hr) fun y hy => hx y (List.mem_cons_of_mem _ hy)
    | error e s' => rfl

/-- One node of the walk, given the visits below it. -/
theorem Steady.walkNode (h : Steady fn side S enter R) {p : Path} {k : Kind} {s : σ} (hs : R s)
    (hk : S.kind p = some k) {list : EStateM Err σ (Except Err (List (Name × Kind)))}
    {child : Name × Kind → EStateM Err σ Ctl} {below : List (Path × Except Err Kind)}
    (hbelow : k = .dir → ∀ s', R s' → (list >>= walkListed fn p child).run s' =
      (Os.visitAll fn below >>= fun _ => pure .next).run s') :
    (Os.walkNode fn p k list child).run s =
      (Os.visitAll fn (visitNode S enter p below) >>= fun _ => pure .next).run s := by
  rw [visitNode_eq hk, visitAll_cons, bind_assoc, Os.walkNode, EStateM.run_bind, EStateM.run_bind]
  have hcall := h.call s p k hs hk
  cases hr : (fn p (.ok k)).run s with
  | error e s' => rfl
  | ok c s' =>
    obtain ⟨hR, hc⟩ := hcall.ok hr
    by_cases hd : k = .dir
    · cases he : enter p with
      | true =>
        rw [if_neg (by simp [he])] at hc
        subst hc
        simpa [hd] using hbelow hd s' hR
      | false =>
        rw [if_pos ⟨hd, he⟩] at hc
        subst hc
        simp [hd, Os.visitAll]
    · rw [if_neg (by simp [hd])] at hc
      subst hc
      simp [hd, Os.visitAll]

/-- **The walk is its list of visits.** -/
theorem Steady.walkDir (h : Steady fn side S enter R) (fuel : Nat) : ∀ (p : Path) (k : Kind) (s : σ),
    R s → S.kind p = some k →
    (Os.walkDir fn side fuel p k).run s =
      (Os.visitAll fn (visits S enter fuel p) >>= fun _ => pure .next).run s := by
  induction fuel with
  | zero =>
    intro p k s hs hk
    rw [Os.walkDir, visits]
    refine h.walkNode hs hk fun _ s' _ => ?_
    simp [Os.visitAll, walkListed]
  | succ fuel ih =>
    intro p k s hs hk
    rw [Os.walkDir, visits]
    refine h.walkNode hs hk fun hd s' hs' => ?_
    have hdir : S.IsDir p := by rw [Tree.IsDir, hk, hd]
    rw [EStateM.run_bind, h.list s' p hs' hdir]
    have hloop := h.walkEntries fuel (fun e => Os.walkDir fn side fuel (p ++ [e.1]) e.2)
      (p := p) (fun x t ht hx => by
        obtain ⟨k', hk'⟩ := Tree.exists_kind hx
        rw [hk']
        exact ih _ _ t ht hk') (S.names p) s' hs' fun x hx => Tree.mem_names.1 hx
    change (walkListed _ _ _ (.ok _)).run s' = _
    rw [walkListed, EStateM.run_bind, hloop, EStateM.run_bind]

/-- A walk whose root is what the tree says. -/
theorem Steady.wp_walk (h : Steady fn side S enter R) {p : Path} {info : Info} {s : σ} (hs : R s)
    (hk : S.kind p = some info.kind)
    (hroot : (liftSys (attempt (lstat ⟨side, p⟩)) : EStateM Err σ _).run s = .ok (.ok info) s)
    {Q : Unit → σ → Prop} {E : Err → σ → Prop} :
    WP (walk fn ⟨side, p⟩) Q E s ↔
      WP (Os.visitAll fn (visits S enter (HasWorld.world s).pathMax p)) Q E s := by
  rw [wp_walk_ok hroot, WP.congr (h.walkDir _ p info.kind s hs hk), WP.bind_iff]
  rfl

end Run

end Dockerset.Os
