import Mathlib
import Noesar.Lib.Causes

namespace Noesar.Lib.Postorder

open Causes

variable {κ : Type} (before : κ → Option (List κ))

def Precedes (j k : κ) : Prop := (before j).isSome ∧ ∃ ks, before k = some ks ∧ j ∈ ks

def Reached (j k : κ) : Prop := (before j).isSome ∧ Relation.ReflTransGen (Precedes before) j k

def Admits (earlier : List κ) (k : κ) : Prop := ∃ ks, before k = some ks ∧ ∀ j ∈ ks, (before j).isSome → j ∈ earlier

structure Ordered (seen : List κ) : Prop where
  nodup : seen.Nodup
  built : Built (Admits before) seen

def Ranks (rank : κ → ℕ) : Prop := ∀ j k, Precedes before j k → rank j < rank k

def Suffices (rank : κ → ℕ) (fuel : ℕ) (k : κ) : Prop := 0 < fuel ∧ ((before k).isSome → rank k + 2 ≤ fuel)

variable {before} {rank : κ → ℕ} {seen : List κ} {j k : κ} {fuel : ℕ}

theorem Ordered.nil : Ordered before [] := ⟨List.nodup_nil, built_nil⟩

theorem Reached.rank_le (hrank : Ranks before rank) (h : Reached before j k) : rank j ≤ rank k := by
  obtain ⟨_, hchain⟩ := h
  induction hchain with
  | refl => exact le_rfl
  | tail _ hlast ih => exact ih.trans (hrank _ _ hlast).le

theorem reached_iff {ks : List κ} (h : before k = some ks) : Reached before j k ↔ j = k ∨ ∃ p ∈ ks, Reached before j p := by
  constructor
  · intro ⟨hj, hchain⟩
    rcases Relation.ReflTransGen.cases_tail hchain with heq | ⟨p, hrest, _, ks', hks', hmem⟩
    · exact .inl heq.symm
    · obtain rfl := Option.some.inj (h.symm.trans hks')
      exact .inr ⟨p, hmem, hj, hrest⟩
  · intro hcase
    rcases hcase with rfl | ⟨p, hmem, hj, hrest⟩
    · exact ⟨by simp [h], .refl⟩
    · have hp : (before p).isSome := by
        rcases Relation.ReflTransGen.cases_tail hrest with rfl | ⟨q, _, _, ks', hks', _⟩
        · exact hj
        · simp [hks']
      exact ⟨hj, hrest.tail ⟨hp, ks, h, hmem⟩⟩

theorem not_reached (h : before k = none) : ¬Reached before j k := by
  intro ⟨hj, hchain⟩
  rcases Relation.ReflTransGen.cases_tail hchain with rfl | ⟨p, _, _, ks, hks, _⟩
  · simp [h] at hj
  · simp [h] at hks

theorem Ordered.mem_of_reached (h : Ordered before seen) {earlier later : List κ} (hsplit : seen = earlier ++ k :: later)
    (hreached : Reached before j k) : j = k ∨ j ∈ earlier := by
  induction hn : earlier.length using Nat.strong_induction_on generalizing earlier k later with
  | _ n ih =>
    obtain ⟨ks, hks, hall⟩ := h.built earlier k later hsplit
    rcases (reached_iff hks).mp hreached with heq | ⟨p, hmem, hp⟩
    · exact .inl heq
    · have hthere : (before p).isSome := by
        by_contra hnone
        rw [Option.not_isSome_iff_eq_none] at hnone
        exact not_reached hnone hp
      obtain ⟨front, back, hfront⟩ := List.append_of_mem (hall p hmem hthere)
      have hdeeper : seen = front ++ p :: (back ++ k :: later) := by
        rw [hsplit, hfront, List.append_assoc, List.cons_append]
      have hshorter : front.length < n := by
        rw [← hn, hfront, List.length_append, List.length_cons]
        omega
      rcases ih front.length hshorter hdeeper hp rfl with rfl | hearlier
      · exact .inr (hall _ hmem hthere)
      · exact .inr (hfront ▸ List.mem_append_left _ hearlier)

theorem foldlM_congr {f g : List κ → κ → Option (List κ)} {ks : List κ} (h : ∀ seen, ∀ k ∈ ks, f seen k = g seen k) :
    ks.foldlM f seen = ks.foldlM g seen := by
  induction ks generalizing seen with
  | nil => rfl
  | cons k ks ih =>
    rw [List.foldlM_cons, List.foldlM_cons, h seen k List.mem_cons_self]
    congr 1
    funext seen'
    exact ih fun seen k hk ↦ h seen k (List.mem_cons_of_mem _ hk)

section Walk

variable [DecidableEq κ]

/-- A walk through what comes before something, which it puts behind all of that. What is not there is left out, and the
walk ends where it would have to go deeper than it may. -/
def visit (before : κ → Option (List κ)) : ℕ → List κ → κ → Option (List κ)
  | 0, _, _ => none
  | fuel + 1, seen, k =>
    if k ∈ seen then some seen
    else
      match before k with
      | none => some seen
      | some ks => (ks.foldlM (visit before fuel) seen).map (· ++ [k])

structure Visited (before : κ → Option (List κ)) (seen seen' : List κ) (met : κ → Prop) : Prop where
  ordered : Ordered before seen'
  mem : ∀ j, j ∈ seen' ↔ j ∈ seen ∨ met j

theorem foldlM_visited {ks : List κ} (hvisit : ∀ seen, Ordered before seen → ∀ k ∈ ks, ∃ seen', visit before fuel seen k = some seen' ∧
      Visited before seen seen' fun j ↦ Reached before j k) (hseen : Ordered before seen) :
    ∃ seen', ks.foldlM (visit before fuel) seen = some seen' ∧
      Visited before seen seen' fun j ↦ ∃ k ∈ ks, Reached before j k := by
  induction ks generalizing seen with
  | nil => exact ⟨seen, rfl, hseen, by simp⟩
  | cons k ks ih =>
    obtain ⟨seen₁, hfirst, hvisited₁⟩ := hvisit seen hseen k List.mem_cons_self
    obtain ⟨seen₂, hrest, hvisited₂⟩ := ih (fun seen hseen k hk ↦ hvisit seen hseen k (List.mem_cons_of_mem _ hk)) hvisited₁.ordered
    refine ⟨seen₂, ?_, hvisited₂.ordered, ?_⟩
    · rw [List.foldlM_cons, hfirst]
      exact hrest
    · intro j
      rw [hvisited₂.mem, hvisited₁.mem]
      simp [or_assoc]

theorem visit_visited (hrank : Ranks before rank) (hfuel : Suffices before rank fuel k) (hseen : Ordered before seen) :
    ∃ seen', visit before fuel seen k = some seen' ∧ Visited before seen seen' fun j ↦ Reached before j k := by
  induction fuel generalizing seen k with
  | zero => exact absurd hfuel.1 (lt_irrefl 0)
  | succ fuel ih =>
    rw [visit]
    split
    · rename_i hmem
      refine ⟨seen, rfl, hseen, ?_⟩
      intro j
      refine ⟨.inl, ?_⟩
      intro hcase
      rcases hcase with hj | hj
      · exact hj
      · obtain ⟨earlier, later, hsplit⟩ := List.append_of_mem hmem
        rcases hseen.mem_of_reached hsplit hj with rfl | hearlier
        · exact hmem
        · exact hsplit ▸ List.mem_append_left _ hearlier
    · rename_i hnew
      cases hbefore : before k with
      | none =>
        refine ⟨seen, rfl, hseen, ?_⟩
        simp [not_reached hbefore]
      | some ks =>
        have hdeep : rank k + 2 ≤ fuel + 1 := hfuel.2 (by simp [hbefore])
        have hsuffices : ∀ p ∈ ks, Suffices before rank fuel p := by
          intro p hp
          refine ⟨by omega, fun hthere ↦ ?_⟩
          have hlower := hrank p k ⟨hthere, ks, hbefore, hp⟩
          omega
        obtain ⟨seen', hfold, hvisited⟩ := foldlM_visited (fun seen hseen p hp ↦ ih (hsuffices p hp) hseen) hseen
        have hk : k ∉ seen' := by
          intro hk
          rcases (hvisited.mem k).mp hk with hk | ⟨p, hp, hk⟩
          · exact hnew hk
          · have hthere : (before p).isSome := by
              by_contra hnone
              rw [Option.not_isSome_iff_eq_none] at hnone
              exact not_reached hnone hk
            have hlower := hrank p k ⟨hthere, ks, hbefore, hp⟩
            have hle := hk.rank_le hrank
            omega
        refine ⟨seen' ++ [k], by simp [hfold], ⟨?_, ?_⟩, ?_⟩
        · rw [List.nodup_append]
          exact ⟨hvisited.ordered.nodup, List.nodup_singleton k, fun a ha b hb hab ↦ hk (by simp_all)⟩
        · refine built_snoc.mpr ⟨hvisited.ordered.built, ks, hbefore, fun p hp hthere ↦ ?_⟩
          exact (hvisited.mem p).mpr (.inr ⟨p, hp, hthere, .refl⟩)
        · intro j
          rw [List.mem_append, List.mem_singleton, hvisited.mem, reached_iff hbefore]
          by_cases hj : j = k <;> simp [hj]

theorem visit_congr {others : κ → Option (List κ)} {new : κ} (hsame : ∀ k, k ≠ new → others k = before k)
    (hnew : ∀ k ks, before k = some ks → new ∉ ks) (hk : k ≠ new) : visit others fuel seen k = visit before fuel seen k := by
  induction fuel generalizing seen k with
  | zero => rfl
  | succ fuel ih =>
    rw [visit, visit, hsame k hk]
    cases hbefore : before k with
    | none => rfl
    | some ks =>
      have hfold : ks.foldlM (visit others fuel) seen = ks.foldlM (visit before fuel) seen := by
        apply foldlM_congr
        intro seen p hp
        exact ih fun heq ↦ hnew k ks hbefore (heq ▸ hp)
      simp only [hfold]

end Walk

end Noesar.Lib.Postorder
