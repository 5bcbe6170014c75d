import Dockerset.Go.AbsPath
import Dockerset.Netfin.Safeio

/-!
# Paths below a root (`internal/safeio/path.go`)

`CleanRoot`, `SafeRel` and `JoinUnder` on the strings they get. Of an absolute
path its components are left (`absStr`): `JoinUnder` appends components to those
of the root, `SafeRel` takes those of the root off again, and both fail where
`..` would lead out of it. `Netfin.joinUnder` is the same on locations.
-/

namespace Dockerset.Netfin.SafePath
open Go

/-- `s == ".." || strings.HasPrefix(s, "../") || filepath.IsAbs(s)`. -/
def escapes (s : Str) : Bool := s == "..".toList || "../".toList.isPrefixOf s || isAbs s

section

variable (getwd : Getwd)

/-- `CleanRoot(root)`. -/
def cleanRoot (root : Str) : Except Str Str :=
  if root = [] then .error "root path required" else filepathAbs getwd root

/-- `SafeRel(root, path)`. -/
def safeRel (root path : Str) : Except Str Str := do
  let root ← cleanRoot getwd root
  let abs ← filepathAbs getwd path
  let rel ← filepathRelFrom root abs
  if rel = ['.'] ∨ rel = [] then return ['.']
  else if escapes rel then .error (("path escapes root: " : Str) ++ path)
  else return (clean rel).str

/-- `JoinUnder(root, rel)`. -/
def joinUnder (root rel : Str) : Except Str Str := do
  let root ← cleanRoot getwd root
  if rel = ['.'] ∨ rel = [] then return root
  else
    let cleaned := (clean rel).str
    if escapes cleaned then .error (("relative path escapes root: " : Str) ++ rel)
    else return filepathJoin [root, cleaned]

end

/-- The path `s` lies strictly below `root`, component by component. -/
def Below (root s : Str) : Prop := ∃ p q, root = absStr p ∧ s = absStr (p ++ q) ∧ q ≠ []

/-! ## What escapes -/

theorem ups_le_foldl_push (ws : List Str) (c : Cleaned) :
    c.ups ≤ (ws.foldl Cleaned.push c).ups := by
  induction ws generalizing c with
  | nil => exact Nat.le_refl _
  | cons w ws ih =>
    have hstep : c.ups ≤ (c.push w).ups := by
      unfold Cleaned.push
      split_ifs
      all_goals simp
    exact Nat.le_trans hstep (ih _)

theorem ups_pos_of_dots {s : Str} (h : s = "..".toList ∨ "../".toList <+: s) : 0 < (clean s).ups := by
  rcases h with rfl | ⟨t, rfl⟩
  · decide
  · have hno : '/' ∉ "..".toList := by decide
    have hsplit : ("../".toList ++ t).splitOn '/' = "..".toList :: t.splitOn '/' :=
      List.splitOn_append_cons_self_of_not_mem hno t
    have hfirst : Cleaned.push ⟨false, 0, []⟩ "..".toList = ⟨false, 1, []⟩ := by decide
    have hle := ups_le_foldl_push (t.splitOn '/') ⟨false, 1, []⟩
    rw [clean, hsplit, List.foldl_cons]
    change 0 < (List.foldl Cleaned.push (Cleaned.push ⟨false, 0, []⟩ "..".toList) _).ups
    rw [hfirst]
    exact hle

theorem clean_rooted (s : Str) : (clean s).rooted = isAbs s := by
  rw [clean, Cleaned.foldl_rooted]
  rfl

theorem escapes_iff {s : Str} :
    escapes s = true ↔ s = "..".toList ∨ "../".toList <+: s ∨ isAbs s = true := by
  rw [escapes, Bool.or_eq_true, Bool.or_eq_true, beq_iff_eq, List.isPrefixOf_iff_prefix, or_assoc]

theorem dots_intercalate (ws : List Str) :
    ['/'].intercalate ("..".toList :: ws) = "..".toList ∨
      "../".toList <+: ['/'].intercalate ("..".toList :: ws) := by
  cases ws with
  | nil => exact .inl rfl
  | cons w ws =>
    right
    rw [List.intercalate_cons_cons]
    exact ⟨['/'].intercalate (w :: ws), by simp⟩

/-- A cleaned path escapes exactly when it is not confined. -/
theorem escapes_clean (s : Str) : escapes (clean s).str = !(clean s).confined := by
  by_cases hconf : (clean s).confined = true
  · rw [hconf, Bool.not_true, Bool.eq_false_iff]
    intro hesc
    have hc : (clean s).rooted = false ∧ (clean s).ups = 0 := by
      simpa [Cleaned.confined] using hconf
    rcases escapes_iff.1 hesc with h | h | h
    · have hpos := ups_pos_of_dots (.inl h)
      rw [clean_str] at hpos
      omega
    · have hpos := ups_pos_of_dots (.inr h)
      rw [clean_str] at hpos
      omega
    · rw [← clean_rooted, clean_str, hc.1] at h
      cases h
  · rw [Bool.not_eq_true] at hconf
    rw [hconf, Bool.not_false, escapes_iff]
    by_cases hroot : (clean s).rooted = true
    · right
      right
      rw [← clean_rooted, clean_str, hroot]
    · have hups : (clean s).ups ≠ 0 := by
        intro h0
        simp [Cleaned.confined, hroot, h0] at hconf
      obtain ⟨n, hn⟩ := Nat.exists_eq_succ_of_ne_zero hups
      have hwords : (clean s).words = "..".toList :: (List.replicate n ['.', '.'] ++
          (clean s).comps.map Subtype.val) := by
        rw [Cleaned.words, hn, List.replicate_succ, List.cons_append]
        rfl
      have hstr : (clean s).str = ['/'].intercalate (clean s).words := by
        rw [Cleaned.str, if_neg hroot, if_neg (by rw [hwords]; exact List.cons_ne_nil _ _)]
      rw [hstr, hwords]
      rcases dots_intercalate (List.replicate n ['.', '.'] ++ (clean s).comps.map Subtype.val) with h | h
      · exact .inl h
      · exact .inr (.inl h)

theorem escapes_path (q : Path) : escapes q.str = false := by
  have h := escapes_clean q.str
  rw [clean_path] at h
  have hstr : Cleaned.str ⟨false, 0, q⟩ = q.str := Cleaned.str_of_confined rfl
  rw [hstr] at h
  exact h

/-! ## The functions on components -/

section

variable {getwd : Getwd} {root : Str} {p : Path}

theorem filepathAbs_absStr (p : Path) : filepathAbs getwd (absStr p) = .ok (absStr p) := by
  have habs : isAbs (absStr p) = true := by
    rw [← clean_rooted, clean_absStr]
  rw [filepathAbs, if_pos habs, clean_absStr]
  rfl

theorem cleanRoot_eq (hroot : root ≠ []) (hp : filepathAbs getwd root = .ok (absStr p)) :
    cleanRoot getwd root = .ok (absStr p) := by
  rw [cleanRoot, if_neg hroot, hp]

theorem clean_of_dot {rel : Str} (h : rel = ['.'] ∨ rel = []) : clean rel = ⟨false, 0, []⟩ := by
  rcases h with rfl | rfl
  · decide
  · decide

theorem filepathRelFrom_absStr (p t : Path) :
    filepathRelFrom (absStr p) (absStr t) = .ok (filepathRel p t) := by
  have habs : isAbs (absStr t) = true := by
    rw [← clean_rooted, clean_absStr]
  rw [filepathRelFrom, if_pos habs, clean_absStr, clean_absStr]

/-- `JoinUnder` appends to the root what stays below it. -/
theorem joinUnder_eq (hroot : root ≠ []) (hp : filepathAbs getwd root = .ok (absStr p)) (rel : Str) :
    joinUnder getwd root rel =
      if (clean rel).confined then .ok (absStr (p ++ (clean rel).comps))
      else .error (("relative path escapes root: " : Str) ++ rel) := by
  unfold joinUnder
  simp only [cleanRoot_eq hroot hp, bind, Except.bind]
  by_cases hdot : rel = ['.'] ∨ rel = []
  · rw [if_pos hdot, clean_of_dot hdot, List.append_nil]
    rfl
  · rw [if_neg hdot, escapes_clean]
    by_cases hconf : (clean rel).confined = true
    · rw [if_neg (by simp [hconf]), if_pos hconf, Cleaned.str_of_confined hconf, filepathJoin_str]
      rfl
    · rw [if_pos (by simpa using hconf), if_neg hconf]

theorem joinUnder_error_iff (hroot : root ≠ []) (hp : filepathAbs getwd root = .ok (absStr p))
    {rel : Str} :
    (∃ e, joinUnder getwd root rel = .error e) ↔ escapes (clean rel).str = true := by
  rw [joinUnder_eq hroot hp, escapes_clean, Bool.not_eq_true']
  cases hconf : (clean rel).confined with
  | true => simp
  | false => simp

/-- The way to a path that is not below starts with `..`. -/
theorem relWords_of_not_below {p t : Path} (h : ¬ p <+: t) : ∃ ws, relWords p t = "..".toList :: ws := by
  induction p generalizing t with
  | nil => exact absurd List.nil_prefix h
  | cons x p ih =>
    cases t with
    | nil => exact ⟨_, List.replicate_succ⟩
    | cons y t =>
      rw [relWords]
      split
      · next hxy =>
        apply ih
        intro hpre
        exact h (List.cons_prefix_cons.2 ⟨hxy, hpre⟩)
      · exact ⟨_, by rw [List.replicate_succ, List.cons_append]; rfl⟩

theorem escapes_filepathRel {p t : Path} (h : ¬ p <+: t) : escapes (filepathRel p t) = true := by
  obtain ⟨ws, hws⟩ := relWords_of_not_below h
  have hne : p ≠ t := by
    intro heq
    exact h (heq ▸ List.prefix_refl p)
  rw [filepathRel, if_neg hne, hws, escapes_iff]
  rcases dots_intercalate ws with h | h
  · exact .inl h
  · exact .inr (.inl h)

theorem safeRel_below (hroot : root ≠ []) (hp : filepathAbs getwd root = .ok (absStr p)) {path : Str}
    {q : Path} (hpath : filepathAbs getwd path = .ok (absStr (p ++ q))) :
    safeRel getwd root path = .ok q.str := by
  unfold safeRel
  simp only [cleanRoot_eq hroot hp, hpath, filepathRelFrom_absStr, filepathRel_append, bind,
    Except.bind]
  by_cases hdot : q.str = ['.'] ∨ q.str = []
  · rw [if_pos hdot, hdot.resolve_right (Path.str_ne_nil q)]
    rfl
  · rw [if_neg hdot, escapes_path, if_neg Bool.false_ne_true, clean_path]
    exact congrArg Except.ok (Cleaned.str_of_confined rfl)

theorem safeRel_outside (hroot : root ≠ []) (hp : filepathAbs getwd root = .ok (absStr p)) {path : Str}
    {t : Path} (hpath : filepathAbs getwd path = .ok (absStr t)) (hout : ¬ p <+: t) :
    safeRel getwd root path = .error (("path escapes root: " : Str) ++ path) := by
  have hesc := escapes_filepathRel hout
  have hdot : ¬ (filepathRel p t = ['.'] ∨ filepathRel p t = []) := by
    intro hdot
    rcases hdot with h | h
    · rw [h] at hesc
      revert hesc
      decide
    · rw [h] at hesc
      revert hesc
      decide
  unfold safeRel
  simp only [cleanRoot_eq hroot hp, hpath, filepathRelFrom_absStr, bind, Except.bind]
  rw [if_neg hdot, if_pos hesc]

theorem safeRel_error_iff (hroot : root ≠ []) (hp : filepathAbs getwd root = .ok (absStr p))
    {path : Str} {t : Path} (hpath : filepathAbs getwd path = .ok (absStr t)) :
    (∃ e, safeRel getwd root path = .error e) ↔ ¬ p <+: t := by
  by_cases hpre : p <+: t
  · obtain ⟨q, rfl⟩ := hpre
    rw [safeRel_below hroot hp hpath]
    simp
  · rw [safeRel_outside hroot hp hpath hpre]
    simp [hpre]

/-- A path that lies in the root: it is the root or below it. -/
theorem below_iff {t : Path} : absStr t = absStr p ∨ Below (absStr p) (absStr t) ↔ p <+: t := by
  constructor
  · intro h
    rcases h with h | ⟨p', q, hp', ht, -⟩
    · rw [absStr_inj h]
    · rw [absStr_inj hp', absStr_inj ht]
      exact List.prefix_append _ _
  · intro h
    obtain ⟨q, rfl⟩ := h
    by_cases hq : q = []
    · left
      rw [hq, List.append_nil]
    · exact .inr ⟨p, q, rfl, rfl, hq⟩

end

/-- On locations, `Netfin.joinUnder` is `JoinUnder` for the root of that side. -/
theorem joinUnder_location {getwd : Getwd} {root : Str} {p : Path} (hroot : root ≠ [])
    (hp : filepathAbs getwd root = .ok (absStr p)) (side : Os.Side) (rel : Str) :
    joinUnder getwd root rel =
      match Netfin.joinUnder side rel with
      | .ok l => .ok (absStr (p ++ l.path))
      | .error _ => .error (("relative path escapes root: " : Str) ++ rel) := by
  rw [joinUnder_eq hroot hp]
  unfold Netfin.joinUnder
  by_cases hdot : rel = ['.'] ∨ rel = []
  · rw [if_pos hdot, clean_of_dot hdot]
    rfl
  · rw [if_neg hdot]
    dsimp only
    split <;> rfl

/-- **`JoinUnder` and `SafeRel` stay below the root and undo each other.** -/
theorem joinUnder_safeRel (getwd : Getwd) (root rel path r a : Str) (hroot : root ≠ [])
    (hr : filepathAbs getwd root = .ok r) (ha : filepathAbs getwd path = .ok a) :
    (∀ s, joinUnder getwd root rel = .ok s →
      (s = r ∨ Below r s) ∧ safeRel getwd root s = .ok (clean rel).str) ∧
    ((∃ e, joinUnder getwd root rel = .error e) ↔
      isAbs (clean rel).str = true ∨ (clean rel).str = "..".toList ∨
        "../".toList <+: (clean rel).str) ∧
    (∀ q, safeRel getwd root path = .ok q → joinUnder getwd root q = .ok a) ∧
    ((∃ e, safeRel getwd root path = .error e) ↔ ¬ (a = r ∨ Below r a)) := by
  obtain ⟨p, rfl⟩ := filepathAbs_eq hr
  obtain ⟨t, rfl⟩ := filepathAbs_eq ha
  rw [below_iff]
  refine ⟨?_, ?_, ?_, ?_⟩
  · intro s hs
    rw [joinUnder_eq hroot hr] at hs
    split at hs
    · next hconf =>
      cases hs
      rw [below_iff, Cleaned.str_of_confined hconf]
      exact ⟨List.prefix_append _ _, safeRel_below hroot hr (filepathAbs_absStr _)⟩
    · cases hs
  · rw [joinUnder_error_iff hroot hr, escapes_iff, ← or_assoc, or_comm]
  · intro q hq
    by_cases hpre : p <+: t
    · obtain ⟨below, rfl⟩ := hpre
      rw [safeRel_below hroot hr ha] at hq
      cases hq
      rw [joinUnder_eq hroot hr, clean_path]
      rfl
    · rw [safeRel_outside hroot hr ha hpre] at hq
      cases hq
  · exact safeRel_error_iff hroot hr ha

/-- A process in `/srv`. -/
def inSrv : Getwd where
  result := .ok "/srv".toList
  rooted wd h := by
    cases h
    decide

theorem joinUnder_safeRel_data :
    joinUnder inSrv "data".toList "x/..//..y".toList = .ok "/srv/data/..y".toList ∧
    safeRel inSrv "data".toList "/srv/data/..y".toList = .ok "..y".toList := by
  have hjoin : joinUnder inSrv "data".toList "x/..//..y".toList = .ok "/srv/data/..y".toList := by
    decide +kernel
  obtain ⟨hunder, -⟩ := joinUnder_safeRel inSrv "data".toList "x/..//..y".toList []
    "/srv/data".toList "/srv".toList (by decide) (by decide +kernel) (by decide +kernel)
  have hclean : (clean "x/..//..y".toList).str = "..y".toList := by decide +kernel
  have hrel := (hunder _ hjoin).2
  rw [hclean] at hrel
  exact ⟨hjoin, hrel⟩

end Dockerset.Netfin.SafePath
