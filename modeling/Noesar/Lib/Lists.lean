import Mathlib

namespace Noesar.Lib

variable {α : Type}

/-- The slices of `n` elements that a list consists of, of which only the last may be shorter. -/
def chunks (n : ℕ) (xs : List α) : List (List α) :=
  (List.range ((xs.length + (n - 1)) / n)).map fun index ↦ (xs.drop (index * n)).take n

@[simp] theorem length_chunks (n : ℕ) (xs : List α) : (chunks n xs).length = (xs.length + (n - 1)) / n := by
  simp [chunks]

theorem length_le_of_mem_chunks {n : ℕ} {xs chunk : List α} (h : chunk ∈ chunks n xs) : chunk.length ≤ n := by
  obtain ⟨index, -, rfl⟩ := List.mem_map.mp h
  exact List.length_take_le n _

theorem flatten_slices (n k : ℕ) (xs : List α) :
    ((List.range k).map fun index ↦ (xs.drop (index * n)).take n).flatten = xs.take (k * n) := by
  induction k with
  | zero => simp
  | succ k ih => rw [List.range_succ, List.map_append, List.flatten_append, ih, Nat.succ_mul, List.take_add]; simp

theorem flatten_chunks {n : ℕ} (hn : 0 < n) (xs : List α) : (chunks n xs).flatten = xs := by
  have hwhole : xs.length ≤ (xs.length + (n - 1)) / n * n := by
    have hmod := Nat.div_add_mod (xs.length + (n - 1)) n
    have hlt := Nat.mod_lt (xs.length + (n - 1)) hn
    rw [Nat.mul_comm] at hmod
    omega
  rw [chunks, flatten_slices, List.take_of_length_le hwhole]

theorem flatten_mapIdx_getElem? {β : Type} (p : β → Bool) (xs : List α) (ys : List β) :
    (xs.mapIdx fun index _ ↦ (ys[index]?.filter p).toList).flatten = (ys.take xs.length).filter p := by
  induction xs generalizing ys with
  | nil => simp
  | cons x xs ih =>
    rw [List.mapIdx_cons, List.flatten_cons]
    cases ys with
    | nil => simp
    | cons y ys =>
      have hthis := ih ys
      simp only [List.getElem?_cons_succ, List.getElem?_cons_zero, List.length_cons, List.take_succ_cons]
      rw [hthis, List.filter_cons]
      by_cases hp : p y = true
      · simp [Option.filter, hp]
      · simp [Option.filter, hp]

end Noesar.Lib

namespace Noesar.Lib

variable {α β κ : Type} {p : α → Bool} {f : α → α} {xs : List α}

/-- The list with the first element that `p` holds of changed. -/
def modifyFirst (p : α → Bool) (f : α → α) : List α → List α
  | [] => []
  | x :: xs => if p x then f x :: xs else x :: modifyFirst p f xs

theorem modifyFirst_cases (p : α → Bool) (f : α → α) (xs : List α) :
    (xs.find? p = none ∧ modifyFirst p f xs = xs) ∨
      ∃ before x after, xs = before ++ x :: after ∧ xs.find? p = some x ∧ p x = true ∧
        modifyFirst p f xs = before ++ f x :: after := by
  induction xs with
  | nil => exact .inl ⟨rfl, rfl⟩
  | cons x xs ih =>
    cases hx : p x with
    | true =>
      refine .inr ⟨[], x, xs, rfl, ?_, hx, ?_⟩
      · rw [List.find?_cons_of_pos hx]
      · rw [modifyFirst, if_pos hx, List.nil_append]
    | false =>
      have hneg : ¬p x = true := by simp [hx]
      rw [List.find?_cons_of_neg hneg, modifyFirst, if_neg hneg]
      obtain ⟨hnone, hsame⟩ | ⟨before, y, after, hxs, hfind, hy, hnew⟩ := ih
      · exact .inl ⟨hnone, by rw [hsame]⟩
      · refine .inr ⟨x :: before, y, after, ?_, hfind, hy, ?_⟩
        · rw [hxs, List.cons_append]
        · rw [hnew, List.cons_append]

theorem modifyFirst_of_find?_none (h : xs.find? p = none) : modifyFirst p f xs = xs := by
  obtain ⟨_, hsame⟩ | ⟨_, _, _, _, hfind, _⟩ := modifyFirst_cases p f xs
  · exact hsame
  · rw [h] at hfind
    cases hfind

theorem mem_modifyFirst {y : α} (h : y ∈ modifyFirst p f xs) : y ∈ xs ∨ ∃ x, xs.find? p = some x ∧ y = f x := by
  obtain ⟨_, hsame⟩ | ⟨before, x, after, hxs, hfind, _, hnew⟩ := modifyFirst_cases p f xs
  · exact .inl (hsame ▸ h)
  · rw [hnew, List.mem_append, List.mem_cons] at h
    rw [hxs, List.mem_append, List.mem_cons]
    rcases h with h | rfl | h
    · exact .inl (.inl h)
    · exact .inr ⟨x, hxs ▸ hfind, rfl⟩
    · exact .inl (.inr (.inr h))

theorem forall_modifyFirst {P : α → Prop} (h : ∀ x ∈ xs, P x) (hf : ∀ x ∈ xs, p x = true → P (f x)) :
    ∀ y ∈ modifyFirst p f xs, P y := by
  intro y hy
  rcases mem_modifyFirst hy with hy | ⟨x, hfind, rfl⟩
  · exact h y hy
  · exact hf x (List.mem_of_find?_eq_some hfind) (List.find?_some hfind)

theorem mem_of_modifyFirst {x : α} (h : x ∈ xs) :
    x ∈ modifyFirst p f xs ∨ xs.find? p = some x ∧ f x ∈ modifyFirst p f xs := by
  obtain ⟨_, hsame⟩ | ⟨before, y, after, hxs, hfind, _, hnew⟩ := modifyFirst_cases p f xs
  · rw [hsame]
    exact .inl h
  · rw [hnew]
    rw [hxs] at h
    rcases List.mem_append.mp h with h | h
    · exact .inl (List.mem_append_left _ h)
    · rcases List.mem_cons.mp h with rfl | h
      · exact .inr ⟨hfind, List.mem_append_right _ List.mem_cons_self⟩
      · exact .inl (List.mem_append_right _ (List.mem_cons_of_mem _ h))

theorem modifyFirst_perm {x : α} (h : xs.find? p = some x) :
    ∃ rest, xs.Perm (x :: rest) ∧ (modifyFirst p f xs).Perm (f x :: rest) := by
  obtain ⟨hnone, _⟩ | ⟨before, y, after, hxs, hfind, _, hnew⟩ := modifyFirst_cases p f xs
  · rw [hnone] at h
    cases h
  · rw [hfind, Option.some.injEq] at h
    subst h
    refine ⟨before ++ after, ?_, ?_⟩
    · rw [hxs]
      exact List.perm_middle
    · rw [hnew]
      exact List.perm_middle

theorem map_modifyFirst (g : α → β) (h : ∀ x, p x = true → g (f x) = g x) :
    (modifyFirst p f xs).map g = xs.map g := by
  obtain ⟨_, hsame⟩ | ⟨before, x, after, hxs, _, hx, hnew⟩ := modifyFirst_cases p f xs
  · rw [hsame]
  · rw [hnew, hxs, List.map_append, List.map_append, List.map_cons, List.map_cons, h x hx]

theorem find?_modifyFirst [DecidableEq κ] (key : α → κ) (k j : κ) (h : ∀ x, key x = j → key (f x) = key x) :
    (modifyFirst (fun x ↦ decide (key x = j)) f xs).find? (fun x ↦ decide (key x = k)) =
      (xs.find? fun x ↦ decide (key x = k)).map fun x ↦ if k = j then f x else x := by
  induction xs with
  | nil => rfl
  | cons x xs ih =>
    by_cases hj : key x = j
    · simp only [modifyFirst, hj, decide_true, if_true]
      by_cases hk : key x = k
      · have hf : key (f x) = k := (h x hj).trans hk
        have hkj : k = j := hk.symm.trans hj
        rw [List.find?_cons_of_pos (by simp [hf]), List.find?_cons_of_pos (by simp [hk]), Option.map_some, if_pos hkj]
      · have hf : ¬key (f x) = k := fun h' ↦ hk ((h x hj).symm.trans h')
        have hkj : ¬k = j := fun h' ↦ hk (hj.trans h'.symm)
        rw [List.find?_cons_of_neg (by simpa using hf), List.find?_cons_of_neg (by simpa using hk)]
        simp [hkj]
    · simp only [modifyFirst, hj, decide_false, Bool.false_eq_true, if_false]
      by_cases hk : key x = k
      · have hkj : ¬k = j := fun h' ↦ hj (hk.trans h')
        rw [List.find?_cons_of_pos (by simp [hk]), List.find?_cons_of_pos (by simp [hk]), Option.map_some, if_neg hkj]
      · rw [List.find?_cons_of_neg (by simpa using hk), List.find?_cons_of_neg (by simpa using hk), ih]

end Noesar.Lib

namespace Noesar.Lib.Selection

variable {α β : Type} [LinearOrder β] (key : α → β)

def ranked (xs : List α) : List α := xs.insertionSort fun a b ↦ key b ≤ key a

def best (n : ℕ) (xs : List α) : List α := (ranked key xs).take n

def others (n : ℕ) (xs : List α) : List α := (ranked key xs).drop n

theorem ranked_perm (xs : List α) : (ranked key xs).Perm xs := List.perm_insertionSort _ _

theorem ranked_sorted (xs : List α) : (ranked key xs).Pairwise fun a b ↦ key b ≤ key a := by
  have htotal : Std.Total fun a b : α ↦ key b ≤ key a := ⟨fun a b ↦ le_total _ _⟩
  have htrans : IsTrans α fun a b ↦ key b ≤ key a := ⟨fun a b c hab hbc ↦ hbc.trans hab⟩
  exact List.pairwise_insertionSort _ _

theorem best_append_others (n : ℕ) (xs : List α) : best key n xs ++ others key n xs = ranked key xs :=
  List.take_append_drop n _

theorem length_ranked (xs : List α) : (ranked key xs).length = xs.length := (ranked_perm key xs).length_eq

theorem length_best (n : ℕ) (xs : List α) : (best key n xs).length = min n xs.length := by
  rw [best, List.length_take, length_ranked]

theorem length_others (n : ℕ) (xs : List α) : (others key n xs).length = xs.length - n := by
  rw [others, List.length_drop, length_ranked]

variable {key} {n : ℕ} {xs : List α} {a b : α}

theorem mem_best_or_others : a ∈ xs ↔ a ∈ best key n xs ∨ a ∈ others key n xs := by
  rw [← List.mem_append, best_append_others, (ranked_perm key xs).mem_iff]

theorem mem_of_best (h : a ∈ best key n xs) : a ∈ xs := mem_best_or_others.mpr (.inl h)

theorem mem_of_others (h : a ∈ others key n xs) : a ∈ xs := mem_best_or_others.mpr (.inr h)

theorem others_le_best (hb : b ∈ others key n xs) (ha : a ∈ best key n xs) : key b ≤ key a := by
  have hsorted := ranked_sorted key xs
  rw [← best_append_others key n xs, List.pairwise_append] at hsorted
  exact hsorted.2.2 a ha b hb

theorem best_perm {lows highs : List α} (hnodup : (lows ++ highs).Nodup) (hlength : highs.length = n)
    (hlt : ∀ a ∈ lows, ∀ b ∈ highs, key a < key b) : (best key n (lows ++ highs)).Perm highs := by
  have hbest : (best key n (lows ++ highs)).Nodup :=
    ((ranked_perm key _).nodup_iff.mpr hnodup).sublist (List.take_sublist _ _)
  have hmany : (best key n (lows ++ highs)).length = highs.length := by
    rw [length_best, List.length_append]
    omega
  have hsub : best key n (lows ++ highs) ⊆ highs := by
    intro a ha
    rcases List.mem_append.mp (mem_of_best ha) with hlow | hhigh
    · by_cases hall : highs ⊆ best key n (lows ++ highs)
      · have hdistinct : (a :: highs).Nodup := by
          refine List.nodup_cons.mpr ⟨fun hhigh ↦ ?_, hnodup.of_append_right⟩
          exact (List.nodup_append.mp hnodup).2.2 a hlow a hhigh rfl
        have hle := (List.subperm_of_subset hdistinct (List.cons_subset.mpr ⟨ha, hall⟩)).length_le
        rw [List.length_cons] at hle
        omega
      · rw [List.subset_def] at hall
        push Not at hall
        obtain ⟨b, hb, hout⟩ := hall
        have hothers := (mem_best_or_others.mp (List.mem_append_right lows hb)).resolve_left hout
        exact absurd (others_le_best hothers ha) (not_le.mpr (hlt a hlow b hb))
    · exact hhigh
  exact (List.subperm_of_subset hbest hsub).perm_of_length_le hmany.ge

end Noesar.Lib.Selection
