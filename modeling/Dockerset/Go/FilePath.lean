import Mathlib.Data.List.Sort
import Mathlib.Data.List.Infix
import Mathlib.Data.List.Lex
import Mathlib.Data.Char

/-!
# Slash-separated paths

The part of Go's `path/filepath` (Unix) that the programs use. A Go string is a
list of characters here. A `Name` is one path component, so that a `Path`, a
list of names, is a cleaned relative path by construction; `Path.str` is the
string Go holds for it (`"."` for the empty path). `clean` is `filepath.Clean`:
it reads any string into its cleaned form.

The programs compare paths as strings (`strings.HasPrefix(p, root + "/")`).
`hasPathPrefix_str` says that on cleaned paths this is the component-wise
order, with the one exception of the empty path, whose string is `"."`.
-/

namespace Dockerset.Go

/-- A Go string. -/
abbrev Str := List Char

instance : Coe String Str := ⟨String.toList⟩

/-- A path component: nonempty, without separator, neither `.` nor `..`. -/
def ValidName (s : Str) : Prop :=
  s ≠ [] ∧ '/' ∉ s ∧ s ≠ ['.'] ∧ s ≠ ['.', '.']

instance (s : Str) : Decidable (ValidName s) :=
  inferInstanceAs (Decidable (s ≠ [] ∧ '/' ∉ s ∧ s ≠ ['.'] ∧ s ≠ ['.', '.']))

abbrev Name := { s : Str // ValidName s }

/-- A cleaned relative path, as its components. -/
abbrev Path := List Name

/-- `/a/b/c`, and nothing for the empty path. -/
def slashed : Path → Str
  | [] => []
  | x :: xs => '/' :: (x.val ++ slashed xs)

/-- The string of a cleaned relative path. -/
def Path.str : Path → Str
  | [] => ['.']
  | x :: xs => x.val ++ slashed xs

theorem slashed_append (p q : Path) : slashed (p ++ q) = slashed p ++ slashed q := by
  induction p with
  | nil => rfl
  | cons x p ih => simp [slashed, ih]

theorem slashed_eq_nil {p : Path} : slashed p = [] ↔ p = [] := by
  cases p <;> simp [slashed]

/-- What follows a name in a rendered path is a separator or nothing, so equal
renderings have equal first names. -/
theorem name_append_inj {x y : Name} {a b : Str} (ha : a = [] ∨ ∃ a', a = '/' :: a')
    (hb : b = [] ∨ ∃ b', b = '/' :: b') (h : x.val ++ a = y.val ++ b) : x = y ∧ a = b := by
  have hx := x.property.2.1
  have hy := y.property.2.1
  rcases List.append_eq_append_iff.1 h with ⟨c, hc, hd⟩ | ⟨c, hc, hd⟩
  · cases c with
    | nil => exact ⟨Subtype.ext (by simpa using hc.symm), by simpa using hd⟩
    | cons d c =>
      rcases ha with rfl | ⟨a', rfl⟩
      · simp at hd
      · rw [List.cons_append, List.cons.injEq] at hd
        exact absurd (by rw [hc, ← hd.1]; simp) hy
  · cases c with
    | nil => exact ⟨Subtype.ext (by simpa using hc), by simpa using hd.symm⟩
    | cons d c =>
      rcases hb with rfl | ⟨b', rfl⟩
      · simp at hd
      · rw [List.cons_append, List.cons.injEq] at hd
        exact absurd (by rw [hc, ← hd.1]; simp) hx

theorem slashed_shape (p : Path) : slashed p = [] ∨ ∃ a, slashed p = '/' :: a := by
  cases p with
  | nil => exact .inl rfl
  | cons x p => exact .inr ⟨_, rfl⟩

/-- `q/` is a string prefix of `p` exactly when `q` is a proper ancestor. -/
theorem slashed_prefix_iff {q p : Path} :
    slashed q ++ ['/'] <+: slashed p ↔ q <+: p ∧ q ≠ p := by
  induction q generalizing p with
  | nil => cases p <;> simp [slashed, List.cons_prefix_cons]
  | cons x q ih =>
    cases p with
    | nil => simp [slashed]
    | cons y p =>
      simp only [slashed, List.cons_append, List.append_assoc, List.cons_prefix_cons, true_and,
        ne_eq, List.cons.injEq, not_and]
      constructor
      · rintro ⟨t, ht⟩
        have hq : slashed q ++ ['/'] ++ t = [] ∨ ∃ a, slashed q ++ ['/'] ++ t = '/' :: a := by
          cases q <;> simp [slashed]
        obtain ⟨rfl, he⟩ := name_append_inj hq (slashed_shape p) (by simpa using ht)
        have := ih.1 ⟨t, he⟩
        exact ⟨⟨rfl, this.1⟩, fun _ => this.2⟩
      · rintro ⟨⟨rfl, hp⟩, hne⟩
        have := ih.2 ⟨hp, hne rfl⟩
        rwa [List.prefix_append_right_inj]

theorem slashed_inj {p q : Path} (h : slashed p = slashed q) : p = q := by
  induction p generalizing q with
  | nil => exact (slashed_eq_nil.1 h.symm).symm
  | cons x p ih =>
    cases q with
    | nil => simp [slashed] at h
    | cons y q =>
      simp only [slashed, List.cons.injEq, true_and] at h
      obtain ⟨rfl, hpq⟩ := name_append_inj (slashed_shape p) (slashed_shape q) h
      rw [ih hpq]

theorem Path.str_eq_dot {p : Path} : p.str = ['.'] ↔ p = [] := by
  cases p with
  | nil => simp [Path.str]
  | cons x p =>
    have hx := x.property
    simp only [Path.str, reduceCtorEq, iff_false]
    intro h
    rcases List.append_eq_singleton_iff.1 h with ⟨h1, -⟩ | ⟨h1, -⟩
    · exact hx.1 h1
    · exact hx.2.2.1 h1

theorem Path.slashed_eq_cons_str {p : Path} (hp : p ≠ []) : slashed p = '/' :: p.str := by
  cases p with
  | nil => exact absurd rfl hp
  | cons x p => rfl

/-- Distinct cleaned paths are distinct map keys. -/
theorem Path.str_inj {p q : Path} (h : p.str = q.str) : p = q := by
  by_cases hp : p = []
  · subst hp
    exact (Path.str_eq_dot.1 h.symm).symm
  · by_cases hq : q = []
    · subst hq
      exact absurd (Path.str_eq_dot.1 h) hp
    · apply slashed_inj
      rw [Path.slashed_eq_cons_str hp, Path.slashed_eq_cons_str hq, h]

/-- `len(path) >= len(prefix) && path[:len(prefix)] == prefix`. -/
def hasPathPrefix (path pre : Str) : Bool := pre.isPrefixOf path

/-- The string test `hasPathPrefix(p, q + "/")` is "`q` is a proper ancestor of
`p`" for every `q` but the root. -/
theorem hasPathPrefix_str {p q : Path} (hq : q ≠ []) :
    hasPathPrefix p.str (q.str ++ ['/']) = true ↔ q <+: p ∧ q ≠ p := by
  rw [hasPathPrefix, List.isPrefixOf_iff_prefix]
  by_cases hp : p = []
  · subst hp
    constructor
    · intro h
      have hl := h.length_le
      rw [List.length_append] at hl
      change q.str.length + 1 ≤ 1 at hl
      have hq' : q.str ≠ [] := by
        cases q with
        | nil => exact absurd rfl hq
        | cons x q => exact fun h0 => x.property.1 (List.append_eq_nil_iff.1 h0).1
      have hpos : 0 < q.str.length := List.length_pos_iff.2 hq'
      omega
    · rintro ⟨h, -⟩
      exact absurd (List.prefix_nil.1 h) hq
  · rw [← slashed_prefix_iff, Path.slashed_eq_cons_str hp, Path.slashed_eq_cons_str hq,
      List.cons_append, List.cons_prefix_cons]
    simp

/-- No path lies below `"./"`: at the root the string test selects nothing. -/
theorem hasPathPrefix_root (p : Path) : hasPathPrefix p.str (Path.str [] ++ ['/']) = false := by
  rw [Bool.eq_false_iff, ne_eq, hasPathPrefix, List.isPrefixOf_iff_prefix]
  rintro ⟨t, ht⟩
  cases p with
  | nil => simp [Path.str] at ht
  | cons x p =>
    have hdot : x.val ≠ ['.'] := x.property.2.2.1
    obtain ⟨c, cs, hx⟩ := List.exists_cons_of_ne_nil x.property.1
    simp only [Path.str, hx, List.cons_append, List.cons.injEq, List.nil_append] at ht
    obtain ⟨rfl, ht⟩ := ht
    cases cs with
    | nil => exact hdot hx
    | cons d cs =>
      simp only [List.cons_append, List.cons.injEq] at ht
      exact x.property.2.1 (by rw [hx, ← ht.1]; simp)

/-- `filepath.Clean` of a string: rooted or not, the leading `..` that could
not be resolved (none when rooted), and the remaining components. -/
@[ext]
structure Cleaned where
  rooted : Bool
  ups : Nat
  comps : Path
deriving DecidableEq

/-- One component of `filepath.Clean`'s scan. -/
def Cleaned.push (c : Cleaned) (w : Str) : Cleaned :=
  if w = [] ∨ w = ['.'] then c
  else if w = ['.', '.'] then
    if c.comps ≠ [] then { c with comps := c.comps.dropLast }
    else if c.rooted then c
    else { c with ups := c.ups + 1 }
  else if h : ValidName w then { c with comps := c.comps ++ [⟨w, h⟩] }
  else c

def clean (s : Str) : Cleaned :=
  (s.splitOn '/').foldl Cleaned.push ⟨s.head? == some '/', 0, []⟩

/-- The components as strings, unresolved `..` first. -/
def Cleaned.words (c : Cleaned) : List Str :=
  List.replicate c.ups ['.', '.'] ++ c.comps.map Subtype.val

/-- The string `filepath.Clean` returns. -/
def Cleaned.str (c : Cleaned) : Str :=
  if c.rooted then '/' :: ['/'].intercalate c.words
  else if c.words = [] then ['.']
  else ['/'].intercalate c.words

/-- The cleaned path stays below the directory it is relative to: it is not
absolute and does not start with `..`. -/
def Cleaned.confined (c : Cleaned) : Bool := !c.rooted && c.ups == 0

theorem intercalate_names (x : Name) (xs : Path) :
    ['/'].intercalate ((x :: xs).map Subtype.val) = x.val ++ slashed xs := by
  induction xs generalizing x with
  | nil => simp [slashed]
  | cons y xs ih =>
    have h := ih y
    simp only [List.map_cons] at h ⊢
    rw [List.intercalate_cons_cons, h]
    simp [slashed]

theorem Cleaned.str_of_confined {c : Cleaned} (h : c.confined = true) : c.str = c.comps.str := by
  obtain ⟨r, u, p⟩ := c
  simp only [confined, Bool.and_eq_true, Bool.not_eq_true', beq_iff_eq] at h
  obtain ⟨rfl, rfl⟩ := h
  cases p with
  | nil => rfl
  | cons x xs =>
    have := intercalate_names x xs
    simpa [Cleaned.str, Cleaned.words, Path.str] using this

theorem Cleaned.push_name (c : Cleaned) (x : Name) :
    c.push x.val = { c with comps := c.comps ++ [x] } := by
  have hx := x.property
  unfold push
  rw [if_neg (by rintro (h | h); exacts [hx.1 h, hx.2.2.1 h]), if_neg hx.2.2.2, dif_pos hx]

theorem Cleaned.foldl_names (p : Path) (c : Cleaned) :
    (p.map Subtype.val).foldl Cleaned.push c = { c with comps := c.comps ++ p } := by
  induction p generalizing c with
  | nil => simp
  | cons x p ih =>
    rw [List.map_cons, List.foldl_cons, push_name, ih]
    simp

theorem Cleaned.foldl_ups (n : Nat) (k : Nat) :
    (List.replicate n ['.', '.']).foldl Cleaned.push ⟨false, k, []⟩ = ⟨false, k + n, []⟩ := by
  induction n generalizing k with
  | zero => rfl
  | succ n ih =>
    rw [List.replicate_succ, List.foldl_cons]
    have : Cleaned.push ⟨false, k, []⟩ ['.', '.'] = ⟨false, k + 1, []⟩ := by simp [push]
    rw [this, ih]
    congr 1
    omega

theorem Cleaned.slash_notMem_words (c : Cleaned) : ∀ w ∈ c.words, '/' ∉ w := by
  intro w hw
  rcases List.mem_append.1 hw with h | h
  · rw [(List.mem_replicate.1 h).2]
    decide
  · obtain ⟨x, -, rfl⟩ := List.mem_map.1 h
    exact x.property.2.1

theorem clean_ups_of_rooted {s : Str} (h : (clean s).rooted = true) : (clean s).ups = 0 := by
  have go : ∀ (ws : List Str) (c : Cleaned), (c.rooted = true → c.ups = 0) →
      (ws.foldl Cleaned.push c).rooted = true → (ws.foldl Cleaned.push c).ups = 0 := by
    intro ws
    induction ws with
    | nil => intro c hc; exact hc
    | cons w ws ih =>
      intro c hc
      refine ih _ ?_
      unfold Cleaned.push
      split_ifs with h1 h2 h3 h4 h5
      · exact hc
      · exact hc
      · exact hc
      · intro hr
        exact absurd hr (by simpa using h4)
      · exact hc
      · exact hc
  exact go _ _ (fun _ => rfl) h

theorem Cleaned.clean_str {c : Cleaned} (hroot : c.rooted = true → c.ups = 0) : clean c.str = c := by
  have hno := c.slash_notMem_words
  obtain ⟨r, u, p⟩ := c
  cases r with
  | true =>
    have hu : u = 0 := hroot rfl
    subst hu
    have hw : Cleaned.words ⟨true, 0, p⟩ = p.map Subtype.val := by simp [Cleaned.words]
    simp only [Cleaned.str, if_true, hw, clean, List.head?_cons] at hno ⊢
    rw [List.splitOn_cons_eq_if_modifyHead, if_pos (by simp), List.foldl_cons]
    have hpush : Cleaned.push ⟨some '/' == some '/', 0, []⟩ [] = ⟨true, 0, []⟩ := by
      simp [Cleaned.push]
    rw [hpush]
    cases p with
    | nil => simp [Cleaned.push]
    | cons x xs =>
      rw [List.splitOn_intercalate '/' hno (by simp), Cleaned.foldl_names]
      simp
  | false =>
    by_cases hw : Cleaned.words ⟨false, u, p⟩ = []
    · have hp : p = [] ∧ u = 0 := by
        simp only [Cleaned.words, List.append_eq_nil_iff, List.replicate_eq_nil_iff,
          List.map_eq_nil_iff] at hw
        exact ⟨hw.2, hw.1⟩
      obtain ⟨rfl, rfl⟩ := hp
      decide
    · have hstr : Cleaned.str ⟨false, u, p⟩ = ['/'].intercalate (Cleaned.words ⟨false, u, p⟩) := by
        simp [Cleaned.str, hw]
      obtain ⟨w, ws, hws⟩ := List.exists_cons_of_ne_nil hw
      have hw0 : w ≠ [] := by
        intro h0
        have hm : ([] : Str) ∈ Cleaned.words ⟨false, u, p⟩ := by rw [hws, h0]; simp
        rcases List.mem_append.1 hm with h | h
        · simp at h
        · obtain ⟨x, -, hx⟩ := List.mem_map.1 h
          exact x.property.1 hx
      have hhead : ((['/'].intercalate (Cleaned.words ⟨false, u, p⟩)).head? == some '/') = false := by
        obtain ⟨c, cs, rfl⟩ := List.exists_cons_of_ne_nil hw0
        have hc : c ≠ '/' := by
          rintro rfl
          exact hno ('/' :: cs) (by rw [hws]; simp) (by simp)
        rw [hws]
        cases ws with
        | nil => simp [hc]
        | cons v vs => simp [List.intercalate_cons_cons, hc]
      rw [hstr, clean, hhead, List.splitOn_intercalate '/' hno hw, Cleaned.words, List.foldl_append]
      rw [Cleaned.foldl_ups, Cleaned.foldl_names]
      simp

theorem clean_str (s : Str) : clean (clean s).str = clean s :=
  Cleaned.clean_str clean_ups_of_rooted

theorem clean_path (p : Path) : clean p.str = ⟨false, 0, p⟩ := by
  have hc : (Cleaned.mk false 0 p).confined = true := rfl
  have h := Cleaned.str_of_confined hc
  rw [← h]
  exact Cleaned.clean_str fun hr => absurd hr Bool.false_ne_true

end Dockerset.Go
