import Dockerset.Os.Frame
import Dockerset.Os.Mount

/-!
# Work below one directory of a file system

A program that works on `B` and the paths below it, under a destination root,
changes the file system at the places these paths lead to: those along `B` to
places in `A`, those below it to places in `C`. What such changes do is the
relation `R`; here it is carried from single changes to the calls on the disk.
-/

namespace Dockerset.Os
open Go Logic

/-- Seen from `fs₀`, the file system has changed as `R` says. -/
structure Confined (root : Path) (R : Fs → Fs → Prop) (fs₀ : Fs) (m : Mount) : Prop where
  dst : m.dst = root
  rel : R fs₀ m.fs

section

variable {root B p : Path} {A C : Path → Prop} {R : Fs → Fs → Prop} {fs₀ : Fs} {m m' : Mount}
  {fs : Except Errno Fs}

theorem Confined.path (h : Confined root R fs₀ m) (p : Path) : m.path ⟨.dst, p⟩ = root ++ p := by
  unfold Mount.path
  rw [h.dst]

theorem Confined.onFs (htrans : ∀ {a b c}, R a b → R b c → R a c) (h : Confined root R fs₀ m)
    (hm : m.onFs fs = .ok m') (hfs : ∀ fs', fs = .ok fs' → R m.fs fs') : Confined root R fs₀ m' := by
  cases fs with
  | error e => cases hm
  | ok fs' =>
    cases hm
    exact ⟨h.dst, htrans h.rel (hfs fs' rfl)⟩

variable (hbelow : ∀ {fs q r}, R fs₀ fs → B <+: r → fs.find false r = .ok q → C q)
include hbelow

theorem writesKeep_confined (hR : Changes A C R)
    (halong : ∀ {fs follow q r}, R fs₀ fs → Along B r → fs.find follow r = .ok q → A q)
    (hp : B <+: root ++ p) : WritesKeep (Confined root R fs₀) ⟨.dst, p⟩ := by
  have hon : Along B (root ++ p) := .inl hp
  constructor
  · intro m m' perm now h hm
    refine h.onFs hR.trans hm fun fs' hfs => ?_
    rw [h.path] at hfs
    exact hR.mkdirAll (fun fs₁ r q h₁ hr => halong (hR.trans h.rel h₁) (hon.of_prefix hr)) hfs
  · intro m m' perm now h hm
    refine h.onFs hR.trans hm fun fs' hfs => ?_
    rw [h.path] at hfs
    exact hR.mkdirAll (fun fs₁ r q h₁ hr =>
      halong (hR.trans h.rel h₁) (hon.dropLast.of_prefix hr)) hfs
  · intro m m' now h hm
    refine h.onFs hR.trans hm fun fs' hfs => ?_
    rw [h.path] at hfs
    exact hR.touch (fun q => halong h.rel hon.dropLast) hfs
  · intro m m' f now h hm
    refine h.onFs hR.trans hm fun fs' hfs => ?_
    rw [h.path] at hfs
    exact hR.installFs (fun q => hbelow h.rel hp) hfs

theorem removalsKeep_confined (htrans : ∀ {a b c}, R a b → R b c → R a c) (hR : Removals C R)
    (hp : B <+: root ++ p) : RemovalsKeep (Confined root R fs₀) ⟨.dst, p⟩ := by
  constructor
  · intro m m' now h hm
    refine h.onFs htrans hm fun fs' hfs => ?_
    rw [h.path] at hfs
    exact hR.remove (fun q => hbelow h.rel hp) hfs
  · intro m m' now h hm
    refine h.onFs htrans hm fun fs' hfs => ?_
    rw [h.path] at hfs
    exact hR.removeAll (fun q => hbelow h.rel hp) hfs

end

end Dockerset.Os
