import Dockerset.GeoSni.Resolver

/-!
# Runs that stop on the way

`EnsureHostsAndResolv` writes `/etc/hosts` before `/etc/resolv.conf` and takes its
own line there for the sign that all is done. A run that stops between the two
leaves a sign without the work. `ready_iff` says from which files a run that
returns has put the local server in charge, and `history_in_charge` carries this
over every sequence of runs.
-/

namespace Dockerset.GeoSni.Resolver
open Go Logic

/-! ## The servers in charge -/

/-- A line that names a server to the resolver. Comments begin otherwise. -/
def Active (l : Bytes) : Prop := (fields l).head? = some (ascii "nameserver")

instance (l : Bytes) : Decidable (Active l) := inferInstanceAs (Decidable (_ = _))

/-- There is a server, and the local one is the only one. -/
def InCharge (resolv : Bytes) : Prop :=
  (∃ l ∈ linesOf resolv, Active l) ∧
  ∀ l ∈ linesOf resolv, Active l → (fields l)[1]? = some (ascii "127.0.0.1")

instance (resolv : Bytes) : Decidable (InCharge resolv) := inferInstanceAs (Decidable (_ ∧ _))

/-- There is a line that the code takes for one with a server. -/
def HasNameserver (resolv : Bytes) : Prop :=
  ∃ l ∈ linesOf resolv, isNameserver (trimSpaceBytes l) = true

/-- Where the name is found, the local server is in charge already. Where it is not,
there is a line to put it into, or the text of such a line is nowhere to be found. -/
def Ready (f : Files) : Prop :=
  f.Marked ∧ InCharge f.resolv ∨
  ¬ f.Marked ∧ (HasNameserver f.resolv ∨ containsBytes f.resolv localLine = false)

theorem isNameserver_iff {l : Bytes} : isNameserver (trimSpaceBytes l) = true ↔
    ∃ a, (fields l).head? = some a ∧ ascii "nameserver" <+: a :=
  isPrefixOf_trimSpaceBytes (by decide) (by decide)

theorem Active.isNameserver {l : Bytes} (h : Active l) : isNameserver (trimSpaceBytes l) = true :=
  isNameserver_iff.2 ⟨_, h, List.prefix_rfl⟩

theorem InCharge.hasNameserver {r : Bytes} (h : InCharge r) : HasNameserver r := by
  obtain ⟨⟨l, hl, hactive⟩, -⟩ := h
  exact ⟨l, hl, hactive.isNameserver⟩

theorem fields_localLine : fields localLine = [ascii "nameserver", ascii "127.0.0.1"] := by
  decide +kernel

/-! ## The new file -/

theorem linesOf_cons (x : UInt8) (s : Bytes) : ∃ l ls, linesOf s = l :: ls ∧
    linesOf (x :: s) = if x = lf then [] :: l :: ls else (x :: l) :: ls := by
  obtain ⟨l, ls, hlines⟩ := List.exists_cons_of_ne_nil (List.splitOn_ne_nil lf s)
  refine ⟨l, ls, hlines, ?_⟩
  unfold linesOf
  rw [List.splitOn_cons_eq_if_modifyHead, hlines]
  by_cases hx : x = lf <;> simp [hx]

theorem lf_not_mem_line (s : Bytes) : ∀ l ∈ linesOf s, lf ∉ l := by
  induction s with
  | nil =>
    intro l hl
    rw [List.mem_singleton.1 hl]
    simp
  | cons x s ih =>
    obtain ⟨l₀, ls, hlines, hcons⟩ := linesOf_cons x s
    rw [hlines] at ih
    rw [hcons]
    intro l hl
    split at hl
    · rcases List.mem_cons.1 hl with rfl | hl
      · simp
      · exact ih l hl
    · next hx =>
      rcases List.mem_cons.1 hl with rfl | hl
      · rw [List.mem_cons, not_or]
        exact ⟨fun h => hx h.symm, ih l₀ List.mem_cons_self⟩
      · exact ih l (List.mem_cons_of_mem _ hl)

theorem linesOf_rewritten (r : Bytes) : ∃ content,
    content = [lf].intercalate ((linesOf r).map rewriteLine) ∧
    linesOf (rewritten r) =
      if containsBytes content localLine then (linesOf r).map rewriteLine
      else localLine :: (linesOf r).map rewriteLine := by
  have hne : (linesOf r).map rewriteLine ≠ [] := by
    rw [ne_eq, List.map_eq_nil_iff]
    exact List.splitOn_ne_nil lf r
  have hlocal : lf ∉ localLine := by decide +kernel
  have hno : ∀ l ∈ (linesOf r).map rewriteLine, lf ∉ l := by
    intro l hl
    obtain ⟨l₀, hl₀, rfl⟩ := List.mem_map.1 hl
    unfold rewriteLine
    split
    · exact hlocal
    · exact lf_not_mem_line r l₀ hl₀
  refine ⟨_, rfl, ?_⟩
  unfold rewritten
  dsimp only
  rw [if_neg hne]
  generalize hcontent : [lf].intercalate ((linesOf r).map rewriteLine) = content
  have hlines : linesOf content = (linesOf r).map rewriteLine := by
    rw [← hcontent]
    exact List.splitOn_intercalate lf hno hne
  split
  · exact hlines
  · have hend : localLine ++ ascii "\n" ++ content = localLine ++ lf :: content := by
      simp [show ascii "\n" = [lf] by decide]
    rw [hend, ← hlines]
    unfold linesOf
    rw [List.splitOn_append_cons_self, List.splitOn_eq_singleton hlocal]
    rfl

theorem active_rewriteLine {l : Bytes} (h : Active (rewriteLine l)) :
    rewriteLine l = localLine := by
  unfold rewriteLine at h ⊢
  split
  · rfl
  · next hno =>
    rw [if_neg hno] at h
    exact absurd h.isNameserver hno

theorem active_localLine : Active localLine := by
  rw [Active, fields_localLine]
  rfl

theorem inCharge_of_mem {r r' : Bytes} (hmem : localLine ∈ linesOf r')
    (hall : ∀ l ∈ linesOf r', l = localLine ∨ l ∈ (linesOf r).map rewriteLine) : InCharge r' := by
  refine ⟨⟨localLine, hmem, active_localLine⟩, ?_⟩
  intro l hl hactive
  have hlocal : l = localLine := by
    rcases hall l hl with heq | hmap
    · exact heq
    · obtain ⟨l₀, -, rfl⟩ := List.mem_map.1 hmap
      exact active_rewriteLine hactive
  rw [hlocal, fields_localLine]
  rfl

theorem inCharge_rewritten (r : Bytes) :
    InCharge (rewritten r) ↔ HasNameserver r ∨ containsBytes r localLine = false := by
  obtain ⟨content, hcontent, hlines⟩ := linesOf_rewritten r
  have hall : ∀ l ∈ linesOf (rewritten r), l = localLine ∨ l ∈ (linesOf r).map rewriteLine := by
    intro l hl
    rw [hlines] at hl
    split at hl
    · exact .inr hl
    · exact List.mem_cons.1 hl
  by_cases hns : HasNameserver r
  · apply iff_of_true _ (.inl hns)
    refine inCharge_of_mem ?_ hall
    obtain ⟨l, hl, hline⟩ := hns
    have hmem : localLine ∈ (linesOf r).map rewriteLine :=
      List.mem_map.2 ⟨l, hl, by rw [rewriteLine, if_pos hline]⟩
    rw [hlines]
    split
    · exact hmem
    · exact List.mem_cons_of_mem _ hmem
  · -- no line is replaced
    have hkeep : (linesOf r).map rewriteLine = linesOf r := by
      conv_rhs => rw [← List.map_id (linesOf r)]
      apply List.map_congr_left
      intro l hl
      rw [rewriteLine, if_neg (fun hline => hns ⟨l, hl, hline⟩)]
      rfl
    have hsame : content = r := by
      rw [hcontent, hkeep]
      exact List.intercalate_splitOn lf
    rw [hsame, hkeep] at hlines
    by_cases hcon : containsBytes r localLine = true
    · rw [if_pos hcon] at hlines
      apply iff_of_false
      · intro hcharge
        obtain ⟨⟨l, hl, hactive⟩, -⟩ := hcharge
        rw [hlines] at hl
        exact hns ⟨l, hl, hactive.isNameserver⟩
      · rintro (hns' | hno)
        · exact hns hns'
        · rw [hcon] at hno
          cases hno
    · apply iff_of_true _ (.inr (Bool.not_eq_true _ ▸ hcon))
      refine inCharge_of_mem ?_ hall
      rw [hlines, if_neg hcon]
      exact List.mem_cons_self

/-! ## Histories -/

/-- The files after runs with these faults. -/
def filesAfter (f : Files) (os : List Faults) : Files :=
  os.foldl (fun f o => after (ensureHostsAndResolv o) f) f

/-- One of the runs returned, from `g` and leaving `g'`. -/
def Returned (f : Files) (os : List Faults) (g g' : Files) : Prop :=
  ∃ pre o u, pre ++ [o] <+: os ∧ filesAfter f pre = g ∧ (ensureHostsAndResolv o).run g = .ok u g'

section

variable {f f' : Files} {o : Faults}

/-- A run that returns has put the local server in charge exactly if the files were
ready. -/
theorem ready_iff {u : Bytes} (h : (ensureHostsAndResolv o).run f = .ok u f') :
    InCharge f'.resolv ↔ Ready f := by
  unfold Ready Files.Marked
  rcases (wp_ensure o f).ok h with ⟨hfind, rfl⟩ | ⟨hfind, -, rfl⟩
  · rw [hfind]
    simp
  · rw [hfind]
    simpa [Files.configured] using inCharge_rewritten f.resolv

theorem ready_after (hf : Ready f) (ho : o.Whole) : Ready (after (ensureHostsAndResolv o) f) := by
  cases hrun : (ensureHostsAndResolv o).run f with
  | error e f' =>
    rw [after_of_error hrun, (wp_ensure o f).error hrun ho]
    exact hf
  | ok u f' =>
    have hcharge := (ready_iff hrun).2 hf
    rw [after_of_ok hrun]
    by_cases hmarked : f'.Marked
    · exact .inl ⟨hmarked, hcharge⟩
    · exact .inr ⟨hmarked, .inl hcharge.hasNameserver⟩

theorem ready_filesAfter {os : List Faults} (hf : Ready f) (hos : ∀ o ∈ os, o.Whole) :
    Ready (filesAfter f os) := by
  induction os generalizing f with
  | nil => exact hf
  | cons o os ih =>
    obtain ⟨ho, hos⟩ := List.forall_mem_cons.1 hos
    exact ih (ready_after hf ho) hos

end

/-- **When the local server is in charge after every run that returns**: exactly if
every such run starts from files that are ready; and they are, if the first run
does and no run stops between its two files. -/
theorem history_in_charge (f : Files) (os : List Faults) :
    ((∀ g g', Returned f os g g' → InCharge g'.resolv) ↔ ∀ g g', Returned f os g g' → Ready g) ∧
    (Ready f → (∀ o ∈ os, o.Whole) → ∀ g g', Returned f os g g' → InCharge g'.resolv) := by
  refine ⟨⟨?_, ?_⟩, ?_⟩
  · intro h g g' hreturned
    obtain ⟨pre, o, u, -, -, hrun⟩ := id hreturned
    exact (ready_iff hrun).1 (h g g' hreturned)
  · intro h g g' hreturned
    obtain ⟨pre, o, u, -, -, hrun⟩ := id hreturned
    exact (ready_iff hrun).2 (h g g' hreturned)
  · intro hf hos g g' hreturned
    obtain ⟨pre, o, u, hpre, rfl, hrun⟩ := hreturned
    apply (ready_iff hrun).2
    apply ready_filesAfter hf
    intro o' ho'
    exact hos o' (hpre.subset (List.mem_append_left _ ho'))

/-- The process is killed when it is about to write `/etc/resolv.conf`. -/
def cutOff : Faults := ⟨.done, .done, .done, .stops .killed none⟩

/-- The second run finds the name and returns; the only comment in the other file
looks like a server to the code. -/
theorem history_not_in_charge :
    ¬ (∀ g g', Returned ⟨[], ascii "nameserver 1.1.1.1\n"⟩ [cutOff, noFaults] g g' →
      InCharge g'.resolv) ∧
    ¬ (∀ g g', Returned ⟨[], ascii "# nameserver 127.0.0.1\n"⟩ [noFaults] g g' →
      InCharge g'.resolv) := by
  have last : ∀ (f : Files) pre, returns (ensureHostsAndResolv noFaults) (filesAfter f pre) = true →
      ¬ InCharge (filesAfter f (pre ++ [noFaults])).resolv →
      ¬ ∀ g g', Returned f (pre ++ [noFaults]) g g' → InCharge g'.resolv := by
    intro f pre hreturns hnot hall
    obtain ⟨u, hrun⟩ := run_of_returns hreturns
    apply hnot
    have hafter : filesAfter f (pre ++ [noFaults]) =
        after (ensureHostsAndResolv noFaults) (filesAfter f pre) := by
      simp [filesAfter]
    rw [hafter]
    exact hall _ _ ⟨pre, noFaults, u, List.prefix_rfl, rfl, hrun⟩
  constructor
  · exact last _ [cutOff] (by decide +kernel) (by decide +kernel)
  · exact last _ [] (by decide +kernel) (by decide +kernel)

end Dockerset.GeoSni.Resolver
