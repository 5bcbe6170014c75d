import Dockerset.Go.FilePath
import Mathlib.Data.List.DropRight

/-!
# Absolute paths

`filepath.Abs`, `Join`, `Base` and `Rel`. A cleaned absolute path is the string
of its components (`absStr`), so that questions about such strings are questions
about lists of names: joining is appending, and a path is relative to one above
it by the rest of its components.
-/

namespace Dockerset.Go

/-- The absolute path with the components `p`. -/
def absStr (p : Path) : Str := Cleaned.str ⟨true, 0, p⟩

/-- `filepath.IsAbs`. -/
def isAbs (s : Str) : Bool := s.head? == some '/'

/-- `filepath.Join(elem...)`. -/
def filepathJoin (elems : List Str) : Str :=
  match elems.dropWhile (· == []) with
  | [] => []
  | es => (clean (['/'].intercalate es)).str

/-- What `os.Getwd` returns: an absolute path, or an error's text. -/
structure Getwd where
  result : Except Str Str
  rooted : ∀ wd, result = .ok wd → isAbs wd = true

/-- `filepath.Abs(path)`. -/
def filepathAbs (getwd : Getwd) (path : Str) : Except Str Str :=
  if isAbs path then .ok (clean path).str else getwd.result.map fun wd => filepathJoin [wd, path]

/-- `filepath.Base(path)`. -/
def filepathBase (path : Str) : Str :=
  if path = [] then ['.']
  else
    let last := (path.rdropWhile (· == '/')).rtakeWhile (· != '/')
    if last = [] then ['/'] else last

/-- The way from one directory to another, up and then down. -/
def relWords : Path → Path → List Str
  | [], t => t.map Subtype.val
  | b, [] => List.replicate b.length ['.', '.']
  | x :: b, y :: t =>
    if x = y then relWords b t
    else List.replicate (b.length + 1) ['.', '.'] ++ (y :: t).map Subtype.val

/-- `filepath.Rel` of two absolute paths. -/
def filepathRel (basepath targpath : Path) : Str :=
  if basepath = targpath then ['.'] else ['/'].intercalate (relWords basepath targpath)

/-- `filepath.Rel(basepath, targpath)` where `basepath` is absolute: `targpath` has to
be so too. -/
def filepathRelFrom (basepath targpath : Str) : Except Str Str :=
  if isAbs targpath then .ok (filepathRel (clean basepath).comps (clean targpath).comps)
  else .error (("Rel: can't make " : Str) ++ targpath ++ (" relative to " : Str) ++ basepath)

/-! ## The string of an absolute path -/

theorem clean_absStr (p : Path) : clean (absStr p) = ⟨true, 0, p⟩ := Cleaned.clean_str fun _ => rfl

theorem absStr_inj {p q : Path} (h : absStr p = absStr q) : p = q := by
  have hc : clean (absStr p) = clean (absStr q) := by rw [h]
  rw [clean_absStr, clean_absStr] at hc
  exact congrArg Cleaned.comps hc

theorem absStr_ne_nil (p : Path) : absStr p ≠ [] := by simp [absStr, Cleaned.str]

theorem absStr_of_ne_nil {p : Path} (hp : p ≠ []) : absStr p = slashed p := by
  obtain ⟨x, p, rfl⟩ := List.exists_cons_of_ne_nil hp
  simp only [absStr, Cleaned.str, Cleaned.words, if_true, List.replicate_zero, List.nil_append,
    intercalate_names, slashed]

theorem Cleaned.foldl_rooted (ws : List Str) (c : Cleaned) :
    (ws.foldl Cleaned.push c).rooted = c.rooted := by
  induction ws generalizing c with
  | nil => rfl
  | cons w ws ih =>
    rw [List.foldl_cons, ih]
    unfold Cleaned.push
    split_ifs <;> rfl

theorem clean_of_isAbs {s : Str} (h : isAbs s = true) : (clean s).str = absStr (clean s).comps := by
  have hr : (clean s).rooted = true := by
    unfold clean
    rw [Cleaned.foldl_rooted]
    exact h
  have hc : clean s = ⟨true, 0, (clean s).comps⟩ :=
    Cleaned.ext hr (clean_ups_of_rooted hr) rfl
  exact congrArg Cleaned.str hc

theorem filepathAbs_eq {getwd : Getwd} {s t : Str} (h : filepathAbs getwd s = .ok t) :
    ∃ p, t = absStr p := by
  unfold filepathAbs at h
  split at h
  · next hs =>
    cases h
    exact ⟨_, clean_of_isAbs hs⟩
  · cases hw : getwd.result with
    | error e => simp [hw, Except.map] at h
    | ok wd =>
      have hroot := getwd.rooted wd hw
      simp only [hw, Except.map, Except.ok.injEq] at h
      cases wd with
      | nil => cases hroot
      | cons c wd =>
        have hj : filepathJoin [c :: wd, s] = (clean (c :: wd ++ '/' :: s)).str := by
          simp [filepathJoin]
        rw [hj, clean_of_isAbs (by simpa [isAbs] using hroot)] at h
        exact ⟨_, h.symm⟩

/-! ## Going down from an absolute path -/

theorem clean_append (p : Path) (s : Str) :
    clean (absStr p ++ '/' :: s) = (s.splitOn '/').foldl Cleaned.push ⟨true, 0, p⟩ := by
  have h := clean_absStr p
  unfold clean at h ⊢
  rw [List.splitOn_append_cons_self, List.foldl_append,
    List.head?_append_of_ne_nil _ (absStr_ne_nil p), h]

theorem splitOn_str (q : Path) : q.str.splitOn '/' = if q = [] then [['.']] else q.map Subtype.val := by
  cases q with
  | nil => rfl
  | cons x q =>
    have hno : ∀ w ∈ (x :: q).map Subtype.val, '/' ∉ w := by
      intro w hw
      obtain ⟨y, -, rfl⟩ := List.mem_map.1 hw
      exact y.property.2.1
    rw [Path.str, ← intercalate_names, List.splitOn_intercalate '/' hno (by simp), if_neg (by simp)]

theorem clean_append_str (p q : Path) : clean (absStr p ++ '/' :: q.str) = ⟨true, 0, p ++ q⟩ := by
  rw [clean_append, splitOn_str]
  split
  · next h =>
    subst h
    simp [Cleaned.push]
  · rw [Cleaned.foldl_names]

theorem clean_append_name (p : Path) (x : Name) (s : Str) :
    clean (absStr p ++ '/' :: (x.val ++ '/' :: s)) = clean (absStr (p ++ [x]) ++ '/' :: s) := by
  rw [clean_append, clean_append, List.splitOn_append_cons_self_of_not_mem x.property.2.1,
    List.foldl_cons, Cleaned.push_name]

theorem clean_append_slash (p q : Path) :
    clean (absStr p ++ '/' :: '/' :: q.str) = ⟨true, 0, p ++ q⟩ := by
  have h := clean_append_str p q
  rw [clean_append] at h ⊢
  rw [List.splitOn_cons_eq_if_modifyHead, if_pos (by simp), List.foldl_cons]
  have hpush : Cleaned.push ⟨true, 0, p⟩ [] = ⟨true, 0, p⟩ := by simp [Cleaned.push]
  rw [hpush, h]

theorem filepathJoin_absStr (p : Path) (s : Str) :
    filepathJoin [absStr p, s] = (clean (absStr p ++ '/' :: s)).str := by
  simp [filepathJoin, absStr_ne_nil]

theorem filepathJoin_str (p q : Path) : filepathJoin [absStr p, q.str] = absStr (p ++ q) := by
  rw [filepathJoin_absStr, clean_append_str]
  rfl

theorem filepathRel_append (p q : Path) : filepathRel p (p ++ q) = q.str := by
  have hw : relWords p (p ++ q) = q.map Subtype.val := by
    induction p with
    | nil =>
      rw [List.nil_append, relWords]
    | cons x p ih =>
      rw [List.cons_append, relWords, if_pos rfl, ih]
  unfold filepathRel
  cases q with
  | nil => simp [Path.str]
  | cons y q => rw [if_neg (by simp), hw, intercalate_names, Path.str]

/-! ## The last component -/

theorem slashed_concat (p : Path) (x : Name) : slashed (p ++ [x]) = slashed p ++ '/' :: x.val := by
  simp [slashed_append, slashed]

theorem Path.str_concat {q : Path} (hq : q ≠ []) (x : Name) :
    Path.str (q ++ [x]) = q.str ++ '/' :: x.val := by
  obtain ⟨y, q, rfl⟩ := List.exists_cons_of_ne_nil hq
  simp [Path.str, slashed, slashed_append]

theorem Path.str_singleton (x : Name) : Path.str [x] = x.val := by simp [Path.str, slashed]

theorem Path.str_ne_nil (p : Path) : p.str ≠ [] := by
  cases p with
  | nil => exact List.cons_ne_nil _ _
  | cons x p => exact fun h => x.property.1 (List.append_eq_nil_iff.1 h).1

theorem validName_append (x : Name) {s : Str} (hs : '/' ∉ s) : ValidName (x.val ++ s) := by
  obtain ⟨hne, hslash, hdot, hdots⟩ := x.property
  refine ⟨by simp [hne], ?_, fun h => ?_, fun h => ?_⟩
  · rw [List.mem_append]
    exact not_or.2 ⟨hslash, hs⟩
  · rcases List.append_eq_singleton_iff.1 h with ⟨h, -⟩ | ⟨h, -⟩
    exacts [hne h, hdot h]
  · have hpre : x.val <+: ['.', '.'] := ⟨s, h⟩
    rcases List.prefix_cons_iff.1 hpre with h | ⟨t, ht, htpre⟩
    · exact hne h
    · rcases List.prefix_cons_iff.1 htpre with rfl | ⟨u, rfl, hu⟩
      · exact hdot ht
      · rw [List.prefix_nil.1 hu] at ht
        exact hdots ht

/-- Text without a separator that is added to a path goes to its last name. -/
theorem str_concat_append {q : Path} {x : Name} {s : Str} (hs : '/' ∉ s) :
    Path.str (q ++ [x]) ++ s = Path.str (q ++ [⟨x.val ++ s, validName_append x hs⟩]) := by
  by_cases hq : q = []
  · subst hq
    rw [List.nil_append, List.nil_append, Path.str_singleton, Path.str_singleton]
  · rw [Path.str_concat hq, Path.str_concat hq]
    simp

theorem clean_str_append {r : Path} (hr : r ≠ []) {s : Str} (hs : '/' ∉ s) :
    (clean (r.str ++ s)).comps.str = r.str ++ s := by
  obtain ⟨q, x, rfl⟩ := (List.eq_nil_or_concat' r).resolve_left hr
  rw [str_concat_append hs, clean_path]

theorem rtakeWhile_name (s : Str) (x : Name) :
    (s ++ '/' :: x.val).rtakeWhile (· != '/') = x.val := by
  have hx : ∀ c ∈ x.val.reverse, (c != '/') = true := by
    intro c hc
    have hne : c ≠ '/' := by
      rintro rfl
      exact x.property.2.1 (List.mem_reverse.1 hc)
    simpa using hne
  rw [List.rtakeWhile, List.reverse_append, List.reverse_cons, List.append_assoc,
    List.takeWhile_append_of_pos hx]
  simp

theorem suffix_str_concat {ext : Str} (hext : '/' ∉ ext) (q : Path) (x : Name) :
    ext <:+ Path.str (q ++ [x]) ↔ ext <:+ x.val := by
  by_cases hq : q = []
  · subst hq
    rw [List.nil_append, Path.str_singleton]
  · rw [Path.str_concat hq]
    have hx : '/' :: x.val <:+ q.str ++ '/' :: x.val := List.suffix_append _ _
    constructor
    · intro h
      rcases List.suffix_or_suffix_of_suffix hx h with h' | h'
      · exact absurd (h'.subset List.mem_cons_self) hext
      · rcases List.suffix_cons_iff.1 h' with rfl | h'
        · exact absurd List.mem_cons_self hext
        · exact h'
    · intro h
      exact h.trans ((List.suffix_cons _ _).trans hx)

theorem filepathBase_absStr_nil : filepathBase (absStr []) = ['/'] := by decide

theorem filepathBase_absStr (p : Path) (x : Name) : filepathBase (absStr (p ++ [x])) = x.val := by
  have hstr : absStr (p ++ [x]) = slashed p ++ '/' :: x.val := by
    rw [absStr_of_ne_nil (by simp), slashed_concat]
  -- the path does not end in a separator, so there is nothing to strip
  have hstrip : (slashed p ++ '/' :: x.val).rdropWhile (· == '/') = slashed p ++ '/' :: x.val := by
    rw [List.rdropWhile_eq_self_iff]
    intro hne hlast
    rw [List.getLast_append_of_ne_nil _ (by simp), List.getLast_cons x.property.1] at hlast
    have hslash := beq_iff_eq.1 hlast
    exact x.property.2.1 (hslash ▸ List.getLast_mem x.property.1)
  unfold filepathBase
  rw [hstr, if_neg (by simp), hstrip, rtakeWhile_name]
  exact if_neg x.property.1

end Dockerset.Go
