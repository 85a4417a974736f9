import Mathlib

/-! Taking refused elements from a list whose elements need earlier ones, and what needs them. -/

namespace Noesar.Lib.Pruning

variable {α κ : Type} [DecidableEq κ] (key : α → κ) (needs : α → List κ) (refused : α → Bool)

def Ordered : List κ → List α → Prop
  | _, [] => True
  | seen, x :: xs => key x ∉ seen ∧ (∀ k ∈ needs x, k ∈ seen) ∧ Ordered (seen ++ [key x]) xs

def Safe (S : Set α) : Prop := ∀ x ∈ S, refused x = false ∧ ∀ k ∈ needs x, ∃ y ∈ S, key y = k

def pruneStep (state : List α × List κ) (x : α) : List α × List κ :=
  if refused x ∨ ∃ k ∈ needs x, k ∈ state.2 then (state.1, state.2 ++ [key x]) else (state.1 ++ [x], state.2)

def prune (xs : List α) : List α × List κ := xs.foldl (pruneStep key needs refused) ([], [])

variable {key needs refused}

variable {seen : List κ} {xs : List α}

omit [DecidableEq κ] in
theorem Ordered.fresh (h : Ordered key needs seen xs) : ∀ x ∈ xs, key x ∉ seen := by
  induction xs generalizing seen with
  | nil => exact fun x hx ↦ absurd hx List.not_mem_nil
  | cons x xs ih =>
    obtain ⟨hfresh, -, hrest⟩ := h
    intro y hy
    rcases List.mem_cons.mp hy with rfl | hy
    · exact hfresh
    · exact fun hmem ↦ ih hrest y hy (List.mem_append_left _ hmem)

omit [DecidableEq κ] in
theorem Ordered.nodup (h : Ordered key needs seen xs) : (xs.map key).Nodup := by
  induction xs generalizing seen with
  | nil => exact List.nodup_nil
  | cons x xs ih =>
    obtain ⟨-, -, hrest⟩ := h
    refine List.nodup_cons.mpr ⟨?_, ih hrest⟩
    intro hmem
    obtain ⟨y, hy, hkey⟩ := List.mem_map.mp hmem
    exact hrest.fresh y hy (List.mem_append_right _ (List.mem_singleton.mpr hkey))

omit [DecidableEq κ] in
theorem Ordered.needs_before {before after : List α} {x : α} (h : Ordered key needs seen (before ++ x :: after)) :
    ∀ k ∈ needs x, k ∈ seen ++ before.map key := by
  induction before generalizing seen with
  | nil => simpa using h.2.1
  | cons y before ih => simpa using ih h.2.2

omit [DecidableEq κ] in
theorem Ordered.filter {seen' : List κ} (h : Ordered key needs seen xs) (p : α → Bool) (hseen : ∀ k ∈ seen', k ∈ seen)
    (hclosed : ∀ x ∈ xs, p x = true → ∀ k ∈ needs x, k ∈ seen' ∨ ∃ y ∈ xs, p y = true ∧ key y = k) :
    Ordered key needs seen' (xs.filter p) := by
  induction xs generalizing seen seen' with
  | nil => trivial
  | cons x xs ih =>
    have hfresh := h.fresh
    obtain ⟨hx, hneeds, hrest⟩ := h
    by_cases hp : p x = true
    · rw [List.filter_cons_of_pos hp]
      refine ⟨fun hmem ↦ hx (hseen _ hmem), ?_, ?_⟩
      · intro k hk
        rcases hclosed x List.mem_cons_self hp k hk with hmem | ⟨y, hy, -, rfl⟩
        · exact hmem
        · exact absurd (hneeds _ hk) (hfresh y hy)
      · apply ih hrest
        · intro k hk
          rcases List.mem_append.mp hk with hk | hk
          · exact List.mem_append_left _ (hseen k hk)
          · exact List.mem_append_right _ hk
        · intro z hz hpz k hk
          rcases hclosed z (List.mem_cons_of_mem _ hz) hpz k hk with hmem | ⟨y, hy, hpy, rfl⟩
          · exact .inl (List.mem_append_left _ hmem)
          · rcases List.mem_cons.mp hy with rfl | hy
            · exact .inl (List.mem_append_right _ (List.mem_singleton_self _))
            · exact .inr ⟨y, hy, hpy, rfl⟩
    · rw [List.filter_cons_of_neg hp]
      refine ih hrest (fun k hk ↦ List.mem_append_left _ (hseen k hk)) ?_
      intro z hz hpz k hk
      rcases hclosed z (List.mem_cons_of_mem _ hz) hpz k hk with hmem | ⟨y, hy, hpy, rfl⟩
      · exact .inl hmem
      · rcases List.mem_cons.mp hy with rfl | hy
        · exact absurd hpy hp
        · exact .inr ⟨y, hy, hpy, rfl⟩

/-- What the pass over `all` has come to behind the elements `done`. -/
structure Pruned (key : α → κ) (needs : α → List κ) (refused : α → Bool) (all done : List α)
    (state : List α × List κ) : Prop where
  kept : state.1 = done.filter (key · ∉ state.2)
  removed : state.2 = (done.filter (key · ∈ state.2)).map key
  safe : Safe key needs refused {x | x ∈ state.1}
  greatest : ∀ S : Set α, S ⊆ {x | x ∈ all} → Safe key needs refused S → ∀ x ∈ done, x ∈ S → x ∈ state.1

section Pass

variable {all done after : List α} {x : α} {state : List α × List κ}

section

variable (h : Pruned key needs refused all done state)

include h

theorem Pruned.mem_removed {k : κ} (hk : k ∈ state.2) : ∃ y ∈ done, key y = k := by
  rw [h.removed] at hk
  obtain ⟨y, hy, rfl⟩ := List.mem_map.mp hk
  exact ⟨y, (List.mem_filter.mp hy).1, rfl⟩

theorem Pruned.mem_kept {y : α} : y ∈ state.1 ↔ y ∈ done ∧ key y ∉ state.2 := by
  conv_lhs => rw [h.kept]
  simp

theorem Pruned.remove (hfresh : ∀ y ∈ done, key y ≠ key x) (hx : ∀ S : Set α, S ⊆ {x | x ∈ all} → Safe key needs refused
    S → x ∉ S) : Pruned key needs refused all (done ++ [x]) (state.1, state.2 ++ [key x]) := by
  have hsame : ∀ y ∈ done, (key y ∈ state.2 ++ [key x] ↔ key y ∈ state.2) := by
    intro y hy
    simp [hfresh y hy]
  refine ⟨?_, ?_, h.safe, ?_⟩
  · dsimp only
    rw [List.filter_append, List.filter_congr fun y hy ↦ decide_eq_decide.mpr (not_congr (hsame y hy)), ← h.kept]
    simp
  · dsimp only
    rw [List.filter_append, List.filter_congr fun y hy ↦ decide_eq_decide.mpr (hsame y hy), List.map_append, ← h.removed]
    simp
  · intro S hS hsafe y hy hmem
    rcases List.mem_append.mp hy with hy | hy
    · exact h.greatest S hS hsafe y hy hmem
    · cases List.mem_singleton.mp hy
      exact absurd hmem (hx S hS hsafe)

theorem Pruned.keep (hfresh : ∀ y ∈ done, key y ≠ key x) (haccepted : refused x = false) (hneeds : ∀ k ∈ needs x, ∃ y ∈
    state.1, key y = k) : Pruned key needs refused all (done ++ [x]) (state.1 ++ [x], state.2) := by
  have hnot : key x ∉ state.2 := by
    intro hmem
    obtain ⟨y, hy, hkey⟩ := h.mem_removed hmem
    exact hfresh y hy hkey
  refine ⟨?_, ?_, ?_, ?_⟩
  · dsimp only
    rw [List.filter_append, ← h.kept]
    simp [hnot]
  · dsimp only
    rw [List.filter_append, List.map_append, ← h.removed]
    simp [hnot]
  · intro y hy
    have hkept {k : κ} (hk : ∃ z ∈ state.1, key z = k) : ∃ z ∈ {z | z ∈ state.1 ++ [x]}, key z = k := by
      obtain ⟨z, hz, hkey⟩ := hk
      exact ⟨z, List.mem_append_left _ hz, hkey⟩
    rcases List.mem_append.mp hy with hy | hy
    · obtain ⟨hyes, hyneeds⟩ := h.safe y hy
      exact ⟨hyes, fun k hk ↦ hkept (hyneeds k hk)⟩
    · cases List.mem_singleton.mp hy
      exact ⟨haccepted, fun k hk ↦ hkept (hneeds k hk)⟩
  · intro S hS hsafe y hy hmem
    rcases List.mem_append.mp hy with hy | hy
    · exact List.mem_append_left _ (h.greatest S hS hsafe y hy hmem)
    · exact List.mem_append_right _ hy

theorem Pruned.step (hall : all = done ++ x :: after) (hordered : Ordered key needs [] all) : Pruned key needs refused
    all (done ++ [x]) (pruneStep key needs refused state x) := by
  have hnodup := hordered.nodup
  have hfresh : ∀ y ∈ done, key y ≠ key x := by
    intro y hy hkey
    rw [hall, List.map_append, List.map_cons] at hnodup
    have hdisjoint := List.disjoint_of_nodup_append hnodup
    exact hdisjoint (List.mem_map_of_mem hy) (hkey ▸ List.mem_cons_self)
  unfold pruneStep
  split
  next hremove =>
    apply h.remove hfresh
    intro S hS hsafe hx
    obtain ⟨haccepted, hneeds⟩ := hsafe x hx
    rcases hremove with hrefused | ⟨k, hk, hremoved⟩
    · rw [haccepted] at hrefused
      cases hrefused
    · -- what it needs would be in `S`, although it was removed before
      obtain ⟨y, hy, rfl⟩ := hneeds k hk
      obtain ⟨z, hz, hkey⟩ := h.mem_removed hremoved
      have hzall : z ∈ all := hall ▸ List.mem_append_left _ hz
      have hsame : z = y := List.inj_on_of_nodup_map hnodup hzall (hS hy) hkey
      exact (h.mem_kept.mp (h.greatest S hS hsafe y (hsame ▸ hz) hy)).2 hremoved
  next hkeep =>
    rw [not_or, not_exists] at hkeep
    apply h.keep hfresh (by simpa using hkeep.1)
    intro k hk
    have hbefore := (hall ▸ hordered).needs_before k hk
    obtain ⟨y, hy, rfl⟩ := List.mem_map.mp (by simpa using hbefore)
    exact ⟨y, h.mem_kept.mpr ⟨hy, fun hmem ↦ hkeep.2 _ ⟨hk, hmem⟩⟩, rfl⟩

theorem Pruned.run (hall : all = done ++ after) (hordered : Ordered key needs [] all) : Pruned key needs refused all all
    (after.foldl (pruneStep key needs refused) state) := by
  induction after generalizing done state with
  | nil =>
    rw [List.append_nil] at hall
    exact hall ▸ h
  | cons x after ih =>
    rw [List.foldl_cons]
    exact ih (h.step hall hordered) (by rw [hall, List.append_assoc]; rfl)

end

end Pass

theorem pruned {xs : List α} (h : Ordered key needs [] xs) : Pruned key needs refused xs xs (prune key needs refused xs) := by
  have hstart : Pruned key needs refused xs [] ([], []) :=
    ⟨rfl, rfl, fun x hx ↦ absurd hx List.not_mem_nil, fun S _ _ x hx ↦ absurd hx List.not_mem_nil⟩
  exact hstart.run rfl h

theorem isGreatest_kept {xs : List α} (h : Ordered key needs [] xs) :
    IsGreatest {S | S ⊆ {x | x ∈ xs} ∧ Safe key needs refused S} {x | x ∈ (prune key needs refused xs).1} := by
  have hpruned := @pruned α κ _ key needs refused xs h
  refine ⟨⟨fun x hx ↦ (hpruned.mem_kept.mp hx).1, hpruned.safe⟩, ?_⟩
  rintro S ⟨hS, hsafe⟩ x hx
  exact hpruned.greatest S hS hsafe x (hS hx) hx

theorem kept_ordered {xs : List α} (h : Ordered key needs [] xs) : Ordered key needs [] (prune key needs refused xs).1 := by
  have hpruned := @pruned α κ _ key needs refused xs h
  rw [hpruned.kept]
  refine h.filter _ (fun k hk ↦ hk) ?_
  intro x hx hp k hk
  have hkept : x ∈ (prune key needs refused xs).1 := hpruned.mem_kept.mpr ⟨hx, by simpa using hp⟩
  obtain ⟨y, hy, hkey⟩ := (hpruned.safe x hkept).2 k hk
  obtain ⟨hmem, hnot⟩ := hpruned.mem_kept.mp hy
  exact .inr ⟨y, hmem, by simpa using hnot, hkey⟩

theorem removed_eq {xs : List α} (h : Ordered key needs [] xs) : (prune key needs refused xs).2 =
    (xs.map key).filter (· ∉ (prune key needs refused xs).1.map key) := by
  have hpruned := @pruned α κ _ key needs refused xs h
  have hiff : ∀ x ∈ xs, key x ∉ (prune key needs refused xs).1.map key ↔ key x ∈ (prune key needs refused xs).2 := by
    intro x hx
    constructor
    · intro hnot
      by_contra hremoved
      exact hnot (List.mem_map_of_mem (hpruned.mem_kept.mpr ⟨hx, hremoved⟩))
    · rintro hremoved hmem
      obtain ⟨y, hy, hkey⟩ := List.mem_map.mp hmem
      exact (hpruned.mem_kept.mp hy).2 (hkey ▸ hremoved)
  rw [List.filter_map]
  conv_lhs => rw [hpruned.removed]
  congr 1
  exact List.filter_congr fun x hx ↦ decide_eq_decide.mpr (hiff x hx).symm

theorem kept_mono (h : Ordered key needs [] xs) {refused' : α → Bool}
    (hrefused : ∀ x, refused' x = true → refused x = true) {x : α} (hx : x ∈ (prune key needs refused xs).1) :
    x ∈ (prune key needs refused' xs).1 := by
  obtain ⟨⟨hsub, hsafe⟩, -⟩ := @isGreatest_kept α κ _ key needs refused xs h
  refine (@isGreatest_kept α κ _ key needs refused' xs h).2 ⟨hsub, ?_⟩ hx
  intro y hy
  obtain ⟨haccepted, hneeds⟩ := hsafe y hy
  refine ⟨?_, hneeds⟩
  by_contra hnot
  rw [hrefused y (by simpa using hnot)] at haccepted
  cases haccepted

theorem prune_of_accepted (h : ∀ x ∈ xs, refused x = false) : prune key needs refused xs = (xs, []) := by
  have hgeneral (before : List α) : xs.foldl (pruneStep key needs refused) (before, []) = (before ++ xs, []) := by
    induction xs generalizing before with
    | nil => simp
    | cons x xs ih =>
      have hstep : pruneStep key needs refused (before, []) x = (before ++ [x], []) := by
        simp [pruneStep, h x List.mem_cons_self]
      rw [List.foldl_cons, hstep, ih fun y hy ↦ h y (List.mem_cons_of_mem _ hy), List.append_assoc]
      rfl
  exact hgeneral []

end Noesar.Lib.Pruning
