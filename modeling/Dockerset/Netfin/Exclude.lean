import Dockerset.Go.Glob
import Mathlib.Data.List.DropRight

/-!
# Exclude patterns (`internal/filesync/exclude.go`)
-/

namespace Dockerset.Netfin
open Go

/-- `unicode.IsSpace`. -/
def isSpace (c : Char) : Bool :=
  [0x09, 0x0a, 0x0b, 0x0c, 0x0d, 0x20, 0x85, 0xa0, 0x1680, 0x2028, 0x2029, 0x202f, 0x205f,
    0x3000].contains c.toNat || (decide (0x2000 ≤ c.toNat) && decide (c.toNat ≤ 0x200a))

/-- `strings.TrimSpace`. -/
def trimSpace (s : Str) : Str := (s.dropWhile isSpace).rdropWhile isSpace

/-- `pathBase`: what follows the last separator. -/
def pathBase (s : Str) : Str := s.rtakeWhile (· != '/')

structure Excluder where
  patterns : List Str
deriving DecidableEq

/-- `filepath.ToSlash` is the identity on Unix. -/
def newExcluder (patterns : List Str) : Excluder := ⟨patterns.map trimSpace⟩

/-- One pattern of the loop in `Excluded`, on a cleaned path that is not the
root. -/
def patternExcludes (pattern rel : Str) : Bool :=
  if pattern = [] then false
  else if ['/', '*', '*'].isSuffixOf pattern then
    let pre := pattern.take (pattern.length - 3)
    rel == pre || (pre ++ ['/']).isPrefixOf rel
  else (!pattern.contains '/' && globMatches pattern (pathBase rel)) || globMatches pattern rel

/-- `Excluder.Excluded(rel)`. -/
def Excluder.excluded (e : Excluder) (p : Path) : Bool :=
  if p = [] then false else e.patterns.any fun pattern => patternExcludes pattern p.str

@[simp] theorem Excluder.excluded_root (e : Excluder) : e.excluded [] = false := rfl

@[simp] theorem excluded_newExcluder_nil (p : Path) : (newExcluder []).excluded p = false := by
  simp [newExcluder, Excluder.excluded]

end Dockerset.Netfin
