import Dockerset.Os.Quiet

/-!
# Programs among other processes

Rules for programs in a world that is not quiet. What a program knows of the
world between two of its calls has to survive the others' turns (`Survives`); a
call then acts on some world in which it still holds. The loop of a copy takes
one turn per read (`wp_ioCopy`), and a walk takes turns between the listing of a
directory and the visits of its entries: what a listing has said about an entry
is all that its visit can build on (`Guided`). A walk comes by no path twice, so
that a visit may use up what is known of the path it visits (`Once`).
-/

namespace Dockerset.Os
open Go Logic

/-- `I` survives the others' turns, and they make no call fail. -/
def Survives {D : Type} (I : World D → Prop) : Prop := ∀ w, I w → w.turn.1 = none ∧ I w.turn.2

section Calls

variable {D α : Type} {I : World D → Prop} {w : World D} {Q : α → World D → Prop}
  {E : Err → World D → Prop}

/-- A call whose outcome is read off a pure result `x`. -/
theorem Survives.wp_syscall (hI : Survives I) (h : I w) {β : Type}
    {f : World D → Except Errno (α × World D)} {x : World D → Except Errno β}
    {g : World D → β → α × World D} (hf : ∀ w₁, f w₁ = (x w₁).map (g w₁))
    (hok : ∀ w₁ b, I w₁ → x w₁ = .ok b → Q (g w₁ b).1 (g w₁ b).2)
    (herr : ∀ w₁ e, I w₁ → x w₁ = .error e → E (.errno e) w₁) : WP (syscall f) Q E w := by
  obtain ⟨hnone, hturn⟩ := hI w h
  have hsplit : w.turn = (none, w.turn.2) := Prod.ext hnone rfl
  unfold WP
  simp only [syscall, EStateM.run]
  rw [hsplit]
  dsimp only
  rw [hf]
  cases hx : x w.turn.2 with
  | ok b => exact hok _ b hturn hx
  | error e => exact herr _ e hturn hx

theorem Survives.wp_query (hI : Survives I) (h : I w) {f : D → Except Errno α}
    (hok : ∀ w₁ a, I w₁ → f w₁.disk = .ok a → Q a w₁)
    (herr : ∀ w₁ e, I w₁ → f w₁.disk = .error e → E (.errno e) w₁) : WP (query f) Q E w :=
  hI.wp_syscall h (x := fun w₁ => f w₁.disk) (g := fun w₁ a => (a, w₁)) (fun _ => rfl) hok herr

theorem Survives.wp_pollCtx {Q : Unit → World D → Prop} (hI : Survives I) (h : I w)
    (hok : ∀ w₁, I w₁ → Q () w₁) : WP pollCtx Q E w := by
  obtain ⟨hnone, hturn⟩ := hI w h
  have hsplit : w.turn = (none, w.turn.2) := Prod.ext hnone rfl
  have hrun : (pollCtx : Sys D Unit).run w = .ok () w.turn.2 := by
    simp only [pollCtx, EStateM.run]
    rw [hsplit]
  exact .of_ok hrun (hok _ hturn)

variable [Disk D]

/-- What is read at once when nothing interferes any more. -/
def Handle.rest (h : Handle) (d : D) (off : Nat) : List UInt8 :=
  match Disk.openFile d h.loc with
  | .ok (some g) => g.content.drop off
  | _ => []

/-- What the read of a turn does to `J`, which holds of what has been read so far. -/
def Reading (h : Handle) (J B : List UInt8 → World D → Prop) (buf : List UInt8) (w : World D)
    (ev : Event D) (plan : List (Event D)) : Prop :=
  (h.readAt (ev.edit w.disk) buf.length ev = [] →
    B buf { w with disk := ev.edit w.disk, plan := plan }) ∧
  (h.readAt (ev.edit w.disk) buf.length ev ≠ [] →
    J (buf ++ h.readAt (ev.edit w.disk) buf.length ev)
      { w with disk := ev.edit w.disk, plan := plan })

/-- **`io.Copy`**: `J` holds of what has been read so far and the world; a turn
that makes the read fail ends with `F`, and any other extends `J` or, when nothing
is read, ends with `B`. -/
theorem wp_ioCopy_faults {h : Handle} {J B : List UInt8 → World D → Prop} {F : World D → Prop}
    (h0 : J [] w)
    (fault : ∀ buf w₁ ev plan, w₁.plan = ev :: plan → J buf w₁ → ev.fault ≠ none →
      F { w₁ with disk := ev.edit w₁.disk, plan := plan })
    (step : ∀ buf w₁ ev plan, w₁.plan = ev :: plan → J buf w₁ → ev.fault = none →
      Reading h J B buf w₁ ev plan)
    (last : ∀ buf w₁, w₁.plan = [] → J buf w₁ → B (buf ++ h.rest w₁.disk buf.length) w₁) :
    WP (ioCopy h)
      (fun _ w' => ∃ bytes w₁, B bytes w₁ ∧
        w' = { w₁ with tmp := w₁.tmp.map fun f => { f with content := bytes } })
      (fun _ w' => h.file = none ∧ w' = w ∨ F w') w := by
  have go : ∀ plan buf w₁, w₁.plan = plan → J buf w₁ →
      (∃ bytes w₂, copyChunks h w₁ buf plan = .ok bytes w₂ ∧ B bytes w₂) ∨
      ∃ e w₂, copyChunks h w₁ buf plan = .error e w₂ ∧ F w₂ := by
    intro plan
    induction plan with
    | nil =>
      intro buf w₁ hp hJ
      refine .inl ⟨_, _, rfl, ?_⟩
      have hw : { w₁ with plan := [] } = w₁ := by rw [← hp]
      rw [hw]
      exact last buf w₁ hp hJ
    | cons ev plan ih =>
      intro buf w₁ hp hJ
      cases hfault : ev.fault with
      | some e =>
        refine .inr ⟨.errno e, _, by simp only [copyChunks, hfault]; rfl, ?_⟩
        exact fault buf w₁ ev plan hp hJ (by simp [hfault])
      | none =>
        obtain ⟨hend, hmore⟩ := step buf w₁ ev plan hp hJ hfault
        simp only [copyChunks, hfault]
        split
        · next hgot => exact .inl ⟨_, _, rfl, hend hgot⟩
        · next hgot => exact ih _ _ rfl (hmore hgot)
  unfold WP
  cases hf : h.file with
  | none => simp [ioCopy, EStateM.run, hf]
  | some f =>
    rcases go w.plan [] w rfl h0 with ⟨bytes, w₂, hrun, hB⟩ | ⟨e, w₂, hrun, hF⟩
    · simp only [ioCopy, EStateM.run, hf, hrun]
      exact ⟨bytes, w₂, hB, rfl⟩
    · simp only [ioCopy, EStateM.run, hf, hrun]
      exact .inr hF

/-- **`io.Copy`** where no read fails. -/
theorem wp_ioCopy {h : Handle} {J B : List UInt8 → World D → Prop} (h0 : J [] w)
    (step : ∀ buf w₁ ev plan, w₁.plan = ev :: plan → J buf w₁ → ev.fault = none ∧
      Reading h J B buf w₁ ev plan)
    (last : ∀ buf w₁, w₁.plan = [] → J buf w₁ → B (buf ++ h.rest w₁.disk buf.length) w₁) :
    WP (ioCopy h)
      (fun _ w' => ∃ bytes w₁, B bytes w₁ ∧
        w' = { w₁ with tmp := w₁.tmp.map fun f => { f with content := bytes } })
      (fun _ w' => h.file = none ∧ w' = w) w := by
  have hwp := wp_ioCopy_faults (F := fun _ => False) h0
    (fun buf w₁ ev plan hp hJ hfault => hfault (step buf w₁ ev plan hp hJ).1)
    (fun buf w₁ ev plan hp hJ _ => (step buf w₁ ev plan hp hJ).2) last
  exact hwp.mono (fun _ _ hB => hB) fun _ _ he => he.resolve_right id

end Calls

section Walk

variable {D σ : Type} [Disk D] [HasWorld D σ] {fn : WalkFn σ} {side : Side} {I : σ → Prop}
  {child : Name × Kind → EStateM Err σ Ctl} {p : Path}
  {V : Path → Kind → Prop}

/-- The callback keeps `I` for the entries in `V`, and every entry a listing shows
is in `V`. -/
structure Guided (fn : WalkFn σ) (side : Side) (I : σ → Prop) (V : Path → Kind → Prop) : Prop where
  call : ∀ p k, V p k → Preserves I (fn p (.ok k))
  report : ∀ p e, Preserves I (fn p (.error e))
  list : ∀ p s, V p .dir → I s → WP (liftSys (attempt (readDir ⟨side, p⟩)))
    (fun l s' => I s' ∧ ∀ es, l = .ok es → ∀ e ∈ es, V (p ++ [e.1]) e.2) (fun _ => I) s

theorem preserves_walkEntries {es : List (Name × Kind)}
    (h : ∀ e ∈ es, Preserves I (child e)) : Preserves I (walkEntries child es) := by
  induction es with
  | nil => exact preserves_pure ()
  | cons e es ih =>
    refine preserves_bind (h e (by simp)) fun c => ?_
    cases c with
    | skipDir => exact preserves_pure ()
    | next => exact ih fun e' he' => h e' (by simp [he'])

theorem Guided.walkNode (h : Guided fn side I V) {k : Kind}
    {list : EStateM Err σ (Except Err (List (Name × Kind)))}
    (hV : V p k)
    (hlist : k = .dir → ∀ s, I s → WP list
      (fun l s' => I s' ∧ ∀ es, l = .ok es → ∀ e ∈ es, Preserves I (child e)) (fun _ => I) s) :
    Preserves I (walkNode fn p k list child) := by
  refine preserves_bind (h.call p k hV) fun c => ?_
  cases c with
  | skipDir => exact preserves_pure _
  | next =>
    refine preserves_ite (fun _ => preserves_pure _) fun hk => ?_
    intro s hs
    rw [WP.bind_iff]
    refine (hlist (not_not.1 hk) s hs).mono ?_ fun _ _ h => h
    rintro l s' ⟨hs', hchild⟩
    cases l with
    | ok es =>
      exact preserves_bind (preserves_walkEntries (hchild es rfl)) (fun _ => preserves_pure _) s' hs'
    | error e => exact preserves_bind (h.report p e) (fun _ => preserves_pure _) s' hs'

theorem Guided.walkDir (h : Guided fn side I V) (fuel : Nat) :
    ∀ p k, V p k → Preserves I (walkDir fn side fuel p k) := by
  induction fuel with
  | zero =>
    intro p k hV
    refine h.walkNode hV fun _ s hs => ⟨hs, fun es he => ?_⟩
    cases he
  | succ fuel ih =>
    intro p k hV
    refine h.walkNode hV fun hk s hs => (h.list p s (hk ▸ hV) hs).mono ?_ fun _ _ h => h
    rintro l s' ⟨hs', hall⟩
    exact ⟨hs', fun es he e hmem => ih _ _ (hall es he e hmem)⟩

/-- **A walk** keeps what its callback keeps. -/
theorem Guided.walk (h : Guided fn side I V)
    (hlook : ∀ s, I s → WP (liftSys (attempt (lstat ⟨side, p⟩)))
      (fun l s' => I s' ∧ ∀ i, l = .ok i → V p i.kind) (fun _ => I) s) :
    Preserves I (walk fn ⟨side, p⟩) := by
  intro s hs
  rw [Os.walk, WP.bind_iff, WP.get_iff, WP.bind_iff]
  refine (hlook s hs).mono ?_ fun _ _ h => h
  rintro l s' ⟨hs', hV⟩
  cases l with
  | error e =>
    dsimp only
    rw [discard_eq_bind]
    exact preserves_bind (h.report p e) (fun _ => preserves_pure _) s' hs'
  | ok i =>
    dsimp only
    rw [discard_eq_bind]
    exact preserves_bind (h.walkDir _ p i.kind (hV i rfl)) (fun _ => preserves_pure _) s' hs'

end Walk

section Once

variable {D σ : Type} [Disk D] [HasWorld D σ] {fn : WalkFn σ} {side : Side}
  {I : Set Path → σ → Prop} {child : Name × Kind → EStateM Err σ Ctl} {p : Path}
  {V : Path → Kind → Prop} {W : Path → Prop}

/-- `I Z` says that the paths in `Z` are in order. The callback needs that of the path
it is called for only, and takes it from no other path. The entries of a listing have
different names and are in `V` when the callback has let the walk enter the directory
(`W`). -/
structure Once (fn : WalkFn σ) (side : Side) (I : Set Path → σ → Prop) (V : Path → Kind → Prop)
    (W : Path → Prop) : Prop where
  mono : ∀ {Z Z' s}, Z' ⊆ Z → I Z s → I Z' s
  call : ∀ p k Z s, V p k → p ∈ Z → I Z s → WP (fn p (.ok k))
    (fun c s' => (c = .next → k = .dir → W p) ∧ I (Z \ {p}) s') (fun _ => I ∅) s
  report : ∀ p e Z s, I Z s → WP (fn p (.error e)) (fun _ => I Z) (fun _ => I ∅) s
  list : ∀ p Z s, V p .dir → W p → I Z s → WP (liftSys (attempt (readDir ⟨side, p⟩)))
    (fun l s' => I Z s' ∧ ∀ es, l = .ok es →
      (es.map Prod.fst).Nodup ∧ ∀ e ∈ es, V (p ++ [e.1]) e.2) (fun _ => I ∅) s

/-- What lies at or below a path. -/
def atOrBelow (p : Path) : Set Path := {q | p <+: q}

theorem atOrBelow_child (p : Path) (x : Name) : atOrBelow (p ++ [x]) ⊆ atOrBelow p \ {p} := by
  intro q hq
  refine ⟨(List.prefix_append p [x]).trans hq, fun he => ?_⟩
  have hlen := List.IsPrefix.length_le hq
  rw [he, List.length_append, List.length_singleton] at hlen
  omega

theorem atOrBelow_disjoint {x y : Name} (hne : x ≠ y) {q : Path}
    (hx : q ∈ atOrBelow (p ++ [x])) : q ∉ atOrBelow (p ++ [y]) := by
  intro hy
  have hlen : (p ++ [x]).length = (p ++ [y]).length := by simp
  have heq := (List.prefix_of_prefix_length_le hx hy hlen.le).eq_of_length hlen
  exact hne (List.singleton_inj.1 (List.append_cancel_left heq))

theorem Once.walkEntries (h : Once fn side I V W)
    {es : List (Name × Kind)} (hnodup : (es.map Prod.fst).Nodup)
    (hchild : ∀ e ∈ es, ∀ Z s, atOrBelow (p ++ [e.1]) ⊆ Z → I Z s →
      WP (child e) (fun _ => I (Z \ atOrBelow (p ++ [e.1]))) (fun _ => I ∅) s) :
    ∀ Z s, (∀ e ∈ es, atOrBelow (p ++ [e.1]) ⊆ Z) → I Z s →
      WP (walkEntries child es) (fun _ => I (Z \ atOrBelow p)) (fun _ => I ∅) s := by
  induction es with
  | nil => exact fun Z s _ hs => h.mono Set.sdiff_subset hs
  | cons e es ih =>
    intro Z s hZ hs
    rw [List.map_cons, List.nodup_cons] at hnodup
    have hin : atOrBelow (p ++ [e.1]) ⊆ atOrBelow p := (atOrBelow_child p e.1).trans Set.sdiff_subset
    have hshrink : Z \ atOrBelow p ⊆ Z \ atOrBelow (p ++ [e.1]) := Set.sdiff_subset_sdiff_right hin
    rw [Os.walkEntries, WP.bind_iff]
    refine (hchild e (by simp) Z s (hZ e (by simp)) hs).mono (fun c s' hs' => ?_) fun _ _ hs' => hs'
    cases c with
    | skipDir => exact h.mono hshrink hs'
    | next =>
      have hrest : ∀ e' ∈ es, atOrBelow (p ++ [e'.1]) ⊆ Z \ atOrBelow (p ++ [e.1]) := by
        intro e' he' q hq
        refine ⟨hZ e' (by simp [he']) hq, atOrBelow_disjoint (fun heq => ?_) hq⟩
        exact hnodup.1 (heq ▸ List.mem_map_of_mem he')
      have hgo := ih hnodup.2 (fun e' he' => hchild e' (by simp [he'])) _ s' hrest hs'
      refine hgo.mono (fun _ _ hend => h.mono ?_ hend) fun _ _ hend => hend
      rw [Set.sdiff_sdiff, Set.union_eq_self_of_subset_left hin]

theorem Once.walkNode (h : Once fn side I V W) {k : Kind}
    {list : EStateM Err σ (Except Err (List (Name × Kind)))}
    (hV : V p k)
    (hlist : k = .dir → W p → ∀ Z s, I Z s → WP list
      (fun l s' => I Z s' ∧ ∀ es, l = .ok es → (es.map Prod.fst).Nodup ∧
        ∀ e ∈ es, ∀ Z s, atOrBelow (p ++ [e.1]) ⊆ Z → I Z s →
          WP (child e) (fun _ => I (Z \ atOrBelow (p ++ [e.1]))) (fun _ => I ∅) s) (fun _ => I ∅) s)
    {Z : Set Path} {s : σ} (hZ : atOrBelow p ⊆ Z) (hs : I Z s) :
    WP (walkNode fn p k list child) (fun _ => I (Z \ atOrBelow p)) (fun _ => I ∅) s := by
  have hp : {p} ⊆ atOrBelow p := Set.singleton_subset_iff.2 List.prefix_rfl
  have hself : Z \ atOrBelow p ⊆ Z \ {p} := Set.sdiff_subset_sdiff_right hp
  rw [Os.walkNode, WP.bind_iff]
  refine (h.call p k Z s hV (hZ List.prefix_rfl) hs).mono ?_ fun _ _ hs' => hs'
  rintro c s₁ ⟨henter, h₁⟩
  cases c with
  | skipDir => exact h.mono hself h₁
  | next =>
    by_cases hk : k = .dir
    · subst hk
      simp only [ne_eq, not_true_eq_false, if_false, WP.bind_iff]
      refine (hlist rfl (henter rfl rfl) _ s₁ h₁).mono ?_ fun _ _ hs' => hs'
      rintro l s₂ ⟨h₂, hes⟩
      cases l with
      | error e =>
        rw [walkListed, WP.bind_iff]
        exact (h.report p e _ s₂ h₂).mono (fun _ _ h₃ => h.mono hself h₃) fun _ _ h₃ => h₃
      | ok es =>
        obtain ⟨hnodup, hchild⟩ := hes es rfl
        rw [walkListed, WP.bind_iff]
        refine (h.walkEntries hnodup hchild _ s₂ (fun e _ => ?_) h₂).mono (fun _ _ h₃ => ?_) fun _ _ h₃ => h₃
        · exact (atOrBelow_child p e.1).trans (Set.sdiff_subset_sdiff_left hZ)
        · refine h.mono ?_ h₃
          rw [Set.sdiff_sdiff, Set.union_eq_self_of_subset_left hp]
    · simp only [ne_eq, hk, not_false_eq_true, if_true]
      exact h.mono hself h₁

theorem Once.walkDir (h : Once fn side I V W) (fuel : Nat) : ∀ p k Z s, V p k → atOrBelow p ⊆ Z →
    I Z s → WP (walkDir fn side fuel p k) (fun _ => I (Z \ atOrBelow p)) (fun _ => I ∅) s := by
  induction fuel with
  | zero =>
    intro p k Z s hV hZ hs
    refine h.walkNode hV (fun _ _ Z' s' hs' => ?_) hZ hs
    refine ⟨hs', fun es he => ?_⟩
    cases he
  | succ fuel ih =>
    intro p k Z s hV hZ hs
    refine h.walkNode hV (fun hk hW Z' s' hs' => ?_) hZ hs
    refine (h.list p Z' s' (hk ▸ hV) hW hs').mono ?_ fun _ _ hs'' => hs''
    rintro l s'' ⟨h₂, hes⟩
    refine ⟨h₂, fun es he => ⟨(hes es he).1, fun e hmem Z₁ s₁ hZ₁ h₁ => ?_⟩⟩
    exact ih _ _ Z₁ s₁ ((hes es he).2 e hmem) hZ₁ h₁

/-- **A walk** that uses up what is known of the paths it comes by. -/
theorem Once.walk (h : Once fn side I V W) {s : σ} (hlook : WP (liftSys (attempt (lstat ⟨side, p⟩)))
      (fun l s' => I Set.univ s' ∧ ∀ i, l = .ok i → V p i.kind) (fun _ => I ∅) s) :
    WP (walk fn ⟨side, p⟩) (fun _ => I ∅) (fun _ => I ∅) s := by
  rw [Os.walk, WP.bind_iff, WP.get_iff, WP.bind_iff]
  refine hlook.mono ?_ fun _ _ h => h
  rintro l s' ⟨hs', hV⟩
  cases l with
  | error e =>
    dsimp only
    rw [discard_eq_bind, WP.bind_iff]
    exact (h.report p e _ s' hs').mono (fun _ _ h₁ => h.mono (Set.empty_subset _) h₁) fun _ _ h₁ => h₁
  | ok i =>
    dsimp only
    rw [discard_eq_bind, WP.bind_iff]
    refine (h.walkDir _ p i.kind _ s' (hV i rfl) (Set.subset_univ _) hs').mono ?_ fun _ _ h₁ => h₁
    exact fun _ _ h₁ => h.mono (Set.empty_subset _) h₁

end Once

end Dockerset.Os
