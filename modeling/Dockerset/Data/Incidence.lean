import Mathlib.Combinatorics.SimpleGraph.Acyclic

/-!
# Links and the stations on them

Stations are joined by links, and a link by stations. What travels from link to link
by way of stations walks in the graph of both. Where that graph has no cycle, a walk
that never turns back is a path: it comes to no link and to no station twice.
-/

namespace Dockerset.Data

variable {L R : Type}

/-- A station is joined to the links it is on. -/
def incidence (on : R → L → Prop) : SimpleGraph (L ⊕ R) where
  Adj x y := (∃ l r, x = .inl l ∧ y = .inr r ∧ on r l) ∨ ∃ l r, x = .inr r ∧ y = .inl l ∧ on r l
  symm := ⟨fun x y => by
    rintro (⟨l, r, rfl, rfl, h⟩ | ⟨l, r, rfl, rfl, h⟩)
    · exact .inr ⟨l, r, rfl, rfl, h⟩
    · exact .inl ⟨l, r, rfl, rfl, h⟩⟩
  loopless := ⟨fun x => by
    rintro (⟨l, r, rfl, h, -⟩ | ⟨l, r, rfl, h, -⟩)
    · cases h
    · cases h⟩

section Incidence

variable {on : R → L → Prop} {l l' : L} {r r' : R}

theorem incidence_enter (h : on r l) : (incidence on).Adj (.inl l) (.inr r) :=
  .inl ⟨l, r, rfl, rfl, h⟩

theorem incidence_leave (h : on r l) : (incidence on).Adj (.inr r) (.inl l) :=
  .inr ⟨l, r, rfl, rfl, h⟩

theorem not_adj_link : ¬ (incidence on).Adj (.inl l) (.inl l') := by
  rintro (⟨_, _, -, h, -⟩ | ⟨_, _, h, -⟩)
  · cases h
  · cases h

theorem not_adj_station : ¬ (incidence on).Adj (.inr r) (.inr r') := by
  rintro (⟨_, _, h, -⟩ | ⟨_, _, -, h, -⟩)
  · cases h
  · cases h

/-- A single station makes no cycle: the second time a walk comes to a station, it has
come back. -/
theorem incidence_isAcyclic [Subsingleton R] : (incidence on).IsAcyclic := by
  intro v c hc
  have hlen := hc.three_le_length
  have hinj := hc.getVert_injOn
  have hadj : ∀ i < c.length, (incidence on).Adj (c.getVert i) (c.getVert (i + 1)) := fun i hi =>
    c.adj_getVert_succ hi
  have hends : c.getVert c.length = c.getVert 0 := by
    rw [SimpleGraph.Walk.getVert_length, SimpleGraph.Walk.getVert_zero]
  -- stations at two different places of the cycle
  have hstation : ∀ i j, 1 ≤ i → i < j → j ≤ c.length → ∀ r r', c.getVert i = .inr r →
      c.getVert j = .inr r' → False := by
    intro i j hi hij hj r r' h h'
    have he : c.getVert i = c.getVert j := by rw [h, h', Subsingleton.elim r r']
    have := hinj (show 1 ≤ i ∧ i ≤ c.length by omega) (show 1 ≤ j ∧ j ≤ c.length by omega) he
    omega
  cases h1 : c.getVert 1 with
  | inr r =>
    cases h2 : c.getVert 2 with
    | inr r' => exact hstation 1 2 (by omega) (by omega) (by omega) r r' h1 h2
    | inl l =>
      cases h3 : c.getVert 3 with
      | inr r' => exact hstation 1 3 (by omega) (by omega) (by omega) r r' h1 h3
      | inl l' =>
        have h23 := hadj 2 (by omega)
        rw [h2, h3] at h23
        exact not_adj_link h23
  | inl l =>
    cases h2 : c.getVert 2 with
    | inl l' =>
      have h12 := hadj 1 (by omega)
      rw [h1, h2] at h12
      exact not_adj_link h12
    | inr r =>
      by_cases h4 : 4 ≤ c.length
      · cases h3 : c.getVert 3 with
        | inr r' => exact hstation 2 3 (by omega) (by omega) (by omega) r r' h2 h3
        | inl l' =>
          cases h4' : c.getVert 4 with
          | inr r' => exact hstation 2 4 (by omega) (by omega) (by omega) r r' h2 h4'
          | inl l'' =>
            have h34 := hadj 3 (by omega)
            rw [h3, h4'] at h34
            exact not_adj_link h34
      · -- a cycle of three has the links 1 and 0, or the stations 2 and 3
        have h3 : c.length = 3 := by omega
        have h01 := hadj 0 (by omega)
        have h23 := hadj 2 (by omega)
        rw [h3] at hends
        rw [Nat.zero_add, h1, ← hends] at h01
        rw [h2] at h23
        cases h : c.getVert 3 with
        | inl l' =>
          rw [h] at h01
          exact not_adj_link h01
        | inr r' =>
          rw [h] at h23
          exact not_adj_station h23

end Incidence

section Path

variable {V : Type} {G : SimpleGraph V} {u v w : V} {p : G.Walk u v}

theorem isPath_concat (hG : G.IsAcyclic) (hp : p.IsPath) (hadj : G.Adj v w) (hne : w ≠ p.penultimate) :
    (p.concat hadj).IsPath :=
  hp.concat (fun hmem => hne (hG.eq_penultimate_of_adj_end hp hadj hmem)) hadj

theorem support_eq_of_acyclic (hG : G.IsAcyclic) {q : G.Walk u v} (hp : p.IsPath) (hq : q.IsPath) :
    p.support = q.support :=
  congrArg (fun r : G.Path u v => r.1.support) ((hG.subsingleton_path u v).elim ⟨p, hp⟩ ⟨q, hq⟩)

theorem reachable_induction {P : V → Prop} (hP : ∀ x y, G.Adj x y → P x → P y) (hu : P u)
    (h : G.Reachable u v) : P v := by
  rw [SimpleGraph.reachable_iff_reflTransGen] at h
  induction h with
  | refl => exact hu
  | tail _ hadj ih => exact hP _ _ hadj ih

end Path

end Dockerset.Data
