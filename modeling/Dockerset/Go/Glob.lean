import Dockerset.Go.FilePath

/-!
# `filepath.Match`

The documented glob semantics: a pattern is a sequence of terms (`*`, `?`, a
character class, a character), each matching as it says, and the whole name has
to be matched. `*` and `?` do not match a separator. A pattern that does not
parse matches nothing (`path.ErrBadPattern`).
-/

namespace Dockerset.Go

/-- One term of a pattern. -/
inductive Tok where
  | star
  | any
  | lit (c : Char)
  | cls (negated : Bool) (ranges : List (Char × Char))
deriving DecidableEq

/-- A character of a class, possibly escaped; something has to follow it. -/
def getEsc : Str → Option (Char × Str)
  | [] => none
  | c :: cs =>
    if c = '-' ∨ c = ']' then none
    else if c = '\\' then
      match cs with
      | d :: d' :: ds => some (d, d' :: ds)
      | _ => none
    else if cs = [] then none else some (c, cs)

/-- The ranges of a class up to its `]`; the fuel is the length of the text. -/
def classRanges : Nat → List (Char × Char) → Str → Option (List (Char × Char) × Str)
  | 0, _, _ => none
  | fuel + 1, acc, s =>
    match s, acc with
    | ']' :: rest, _ :: _ => some (acc, rest)
    | s, acc =>
      match getEsc s with
      | none => none
      | some (lo, '-' :: rest) =>
        match getEsc rest with
        | none => none
        | some (hi, rest) => classRanges fuel (acc ++ [(lo, hi)]) rest
      | some (lo, rest) => classRanges fuel (acc ++ [(lo, lo)]) rest

/-- The terms of a pattern, `none` when it is malformed. -/
def parseToks : Nat → Str → Option (List Tok)
  | _, [] => some []
  | 0, _ :: _ => none
  | fuel + 1, c :: cs =>
    if c = '*' then (parseToks fuel cs).map (.star :: ·)
    else if c = '?' then (parseToks fuel cs).map (.any :: ·)
    else if c = '\\' then
      match cs with
      | [] => none
      | d :: ds => (parseToks fuel ds).map (.lit d :: ·)
    else if c = '[' then
      let (negated, body) := match cs with
        | '^' :: rest => (true, rest)
        | _ => (false, cs)
      match classRanges body.length [] body with
      | none => none
      | some (ranges, rest) => (parseToks fuel rest).map (.cls negated ranges :: ·)
    else (parseToks fuel cs).map (.lit c :: ·)

/-- A term other than `*` matches one character. -/
def Tok.accepts (c : Char) : Tok → Bool
  | .star => false
  | .any => c != '/'
  | .lit d => c == d
  | .cls negated ranges => (ranges.any fun r => decide (r.1 ≤ c) && decide (c ≤ r.2)) != negated

/-- What is left of a name after `*` has matched some of it. -/
def skips : Str → List Str
  | [] => [[]]
  | c :: cs => (c :: cs) :: if c = '/' then [] else skips cs

def matchToks : List Tok → Str → Bool
  | [], s => s.isEmpty
  | .star :: ts, s => (skips s).any (matchToks ts)
  | _ :: _, [] => false
  | t :: ts, c :: cs => t.accepts c && matchToks ts cs

/-- `filepath.Match(pattern, name)`; `none` is `ErrBadPattern`. -/
def globMatch (pattern name : Str) : Option Bool :=
  (parseToks pattern.length pattern).map fun ts => matchToks ts name

/-- `ok, _ := filepath.Match(pattern, name)`. -/
def globMatches (pattern name : Str) : Bool := (globMatch pattern name).getD false

example : globMatches "*.db" "a.db" = true ∧ globMatches "*.db" "d/a.db" = false ∧
    globMatches "[a-c^]?" "^x" = true ∧ globMatch "[" "[" = none := by decide

/-! ## Patterns of the form `*text` -/

/-- A character that stands for itself. -/
def isLiteral (c : Char) : Bool := c ∉ ['*', '?', '\\', '[']

theorem parseToks_literal {s : Str} (hs : s.all isLiteral = true) {fuel : Nat}
    (hf : s.length ≤ fuel) : parseToks fuel s = some (s.map .lit) := by
  induction s generalizing fuel with
  | nil => cases fuel <;> rfl
  | cons c s ih =>
    cases fuel with
    | zero => simp at hf
    | succ fuel =>
      rw [List.all_cons, Bool.and_eq_true] at hs
      have hc : c ≠ '*' ∧ c ≠ '?' ∧ c ≠ '\\' ∧ c ≠ '[' := by
        simpa [isLiteral] using hs.1
      unfold parseToks
      rw [if_neg hc.1, if_neg hc.2.1, if_neg hc.2.2.1, if_neg hc.2.2.2,
        ih hs.2 (by simpa using hf)]
      rfl

theorem matchToks_literal (s t : Str) : matchToks (s.map .lit) t = true ↔ t = s := by
  induction s generalizing t with
  | nil => simp [matchToks]
  | cons c s ih =>
    cases t with
    | nil => simp [matchToks]
    | cons d t => simp [matchToks, Tok.accepts, ih]

theorem globMatches_literal {s t : Str} (hs : s.all isLiteral = true) :
    globMatches s t = true ↔ t = s := by
  rw [globMatches, globMatch, parseToks_literal hs le_rfl, Option.map_some, Option.getD_some,
    matchToks_literal]

theorem mem_skips {s t : Str} : t ∈ skips s ↔ ∃ u, s = u ++ t ∧ '/' ∉ u := by
  induction s with
  | nil =>
    constructor
    · intro h
      exact ⟨[], by simpa [skips, eq_comm] using h, List.not_mem_nil⟩
    · rintro ⟨u, hu, -⟩
      simp [skips, (List.append_eq_nil_iff.1 hu.symm).2]
  | cons c s ih =>
    rw [skips, List.mem_cons]
    constructor
    · rintro (rfl | h)
      · exact ⟨[], rfl, List.not_mem_nil⟩
      · split_ifs at h with hc
        · cases h
        · obtain ⟨u, rfl, hu⟩ := ih.1 h
          exact ⟨c :: u, rfl, by simp [hu, eq_comm, hc]⟩
    · rintro ⟨u, hu, hno⟩
      cases u with
      | nil => exact .inl hu.symm
      | cons d u =>
        obtain ⟨rfl, rfl⟩ := List.cons.inj hu
        rw [List.mem_cons, not_or] at hno
        rw [if_neg (Ne.symm hno.1)]
        exact .inr (ih.2 ⟨u, rfl, hno.2⟩)

theorem globMatches_star {s t : Str} (hs : s.all isLiteral = true) :
    globMatches ('*' :: s) t = true ↔ ∃ u, t = u ++ s ∧ '/' ∉ u := by
  have hparse : parseToks ('*' :: s).length ('*' :: s) = some (.star :: s.map .lit) := by
    rw [List.length_cons]
    unfold parseToks
    rw [if_pos rfl, parseToks_literal hs le_rfl]
    rfl
  rw [globMatches, globMatch, hparse]
  simp only [Option.map_some, Option.getD_some, matchToks, List.any_eq_true, mem_skips,
    matchToks_literal]
  constructor
  · rintro ⟨_, hu, rfl⟩
    exact hu
  · intro hu
    exact ⟨s, hu, rfl⟩

end Dockerset.Go
