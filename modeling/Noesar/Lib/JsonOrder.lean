import Mathlib
import Noesar.Lib.Json
import Noesar.Lib.InsertionMap

namespace Noesar.Lib.Json

variable {σ ν μ α : Type} {rank : σ → List ℕ}

def sortKeys (rank : σ → List ℕ) (members : List (σ × α)) : List (σ × α) :=
  members.insertionSort fun a b ↦ rank a.1 ≤ rank b.1

def norm (rank : σ → List ℕ) (g : ν → μ) : Json σ ν → Json σ μ :=
  fold ⟨.null, .bool, fun n ↦ .number (g n), .string, .array, fun members ↦ .object (sortKeys rank members)⟩

/-- The same value, with objects as finite maps and numbers as equal as their images. -/
def Same (g : ν → μ) : Json σ ν → Json σ ν → Prop :=
  fold ⟨(· = .null), fun b v ↦ v = .bool b, fun n v ↦ ∃ m, v = .number m ∧ g n = g m, fun s v ↦ v = .string s,
    fun parts v ↦ ∃ items, v = .array items ∧ List.Forall₂ (fun p v ↦ p v) parts items,
    fun parts v ↦ ∃ members, v = .object members ∧ (∀ k, k ∈ parts.map Prod.fst ↔ k ∈ members.map Prod.fst) ∧
      ∀ p ∈ parts, ∀ m ∈ members, p.1 = m.1 → p.2 m.2⟩

section

variable {g : ν → μ}

@[simp] theorem norm_array (items : List (Json σ ν)) :
    norm rank g (.array items) = .array (items.map (norm rank g)) := by
  rw [norm, fold_array]

@[simp] theorem norm_object (members : List (σ × Json σ ν)) :
    norm rank g (.object members) = .object (sortKeys rank (members.map fun m ↦ (m.1, norm rank g m.2))) := by
  rw [norm, fold_object]

theorem same_array {items : List (Json σ ν)} {v : Json σ ν} :
    Same g (.array items) v ↔ ∃ others, v = .array others ∧ List.Forall₂ (Same g) items others := by
  simp only [Same, fold_array, List.forall₂_map_left_iff]

theorem same_object {members : List (σ × Json σ ν)} {v : Json σ ν} :
    Same g (.object members) v ↔ ∃ others, v = .object others ∧
      (∀ k, k ∈ members.map Prod.fst ↔ k ∈ others.map Prod.fst) ∧
      ∀ m ∈ members, ∀ o ∈ others, m.1 = o.1 → Same g m.2 o.2 := by
  simp only [Same, fold_object, List.map_map, List.forall_mem_map]
  rfl

end

theorem sortKeys_perm (members : List (σ × α)) : (sortKeys rank members).Perm members :=
  List.perm_insertionSort _ _

theorem sortKeys_sorted (members : List (σ × α)) :
    (sortKeys rank members).Pairwise fun a b ↦ rank a.1 ≤ rank b.1 := by
  have htotal : Std.Total fun a b : σ × α ↦ rank a.1 ≤ rank b.1 := ⟨fun a b ↦ le_total _ _⟩
  have htrans : IsTrans (σ × α) fun a b ↦ rank a.1 ≤ rank b.1 := ⟨fun a b c ↦ le_trans⟩
  exact List.pairwise_insertionSort _ _

variable {β : Type} {v : Json σ ν} {rank' : σ → List ℕ}

theorem sortKeys_map (F : α → β) (members : List (σ × α)) :
    sortKeys rank (members.map fun m ↦ (m.1, F m.2)) = (sortKeys rank members).map fun m ↦ (m.1, F m.2) := by
  have hmap := List.map_insertionSort (fun a b : σ × α ↦ rank a.1 ≤ rank b.1)
    (fun a b : σ × β ↦ rank a.1 ≤ rank b.1) (fun m ↦ (m.1, F m.2)) members fun _ _ _ _ ↦ Iff.rfl
  exact hmap.symm

theorem eq_of_key {members : List (σ × α)} (h : (members.map Prod.fst).Nodup) {m o : σ × α} (hm : m ∈ members)
    (ho : o ∈ members) (hkey : m.1 = o.1) : m = o :=
  List.inj_on_of_nodup_map h hm ho hkey

theorem sortKeys_eq_iff (hrank : Function.Injective rank) {members others : List (σ × α)}
    (h : (members.map Prod.fst).Nodup) : sortKeys rank members = sortKeys rank others ↔ members.Perm others := by
  constructor
  · intro heq
    have hperm := (@sortKeys_perm _ _ rank members).symm
    rw [heq] at hperm
    exact hperm.trans (sortKeys_perm others)
  · intro hperm
    have hsorted : (sortKeys rank members).Perm (sortKeys rank others) :=
      (sortKeys_perm members).trans (hperm.trans (sortKeys_perm others).symm)
    refine hsorted.eq_of_pairwise ?_ (sortKeys_sorted members) (sortKeys_sorted others)
    intro a b ha hb hab hba
    have ha := (sortKeys_perm members).mem_iff.mp ha
    have hb := hperm.mem_iff.mpr ((sortKeys_perm others).mem_iff.mp hb)
    exact eq_of_key h ha hb (hrank (le_antisymm hab hba))

theorem forall₂_congr {R S : α → β → Prop} {xs : List α} {ys : List β} (h : ∀ x ∈ xs, ∀ y ∈ ys, R x y ↔ S x y) :
    List.Forall₂ R xs ys ↔ List.Forall₂ S xs ys := by
  induction xs generalizing ys with
  | nil => cases ys <;> simp
  | cons x xs ih =>
    cases ys with
    | nil => simp
    | cons y =>
      rw [List.forall₂_cons, List.forall₂_cons, h x (by simp) y (by simp),
        ih fun x hx y hy ↦ h x (by simp [hx]) y (by simp [hy])]

variable {g : ν → μ}

theorem same_members_iff (hrank : Function.Injective rank) {members others : List (σ × Json σ ν)}
    (hmembers : (members.map Prod.fst).Nodup) (hothers : (others.map Prod.fst).Nodup)
    (h : ∀ m ∈ members, ∀ o ∈ others, Same g m.2 o.2 ↔ norm rank g m.2 = norm rank g o.2) :
    ((∀ k, k ∈ members.map Prod.fst ↔ k ∈ others.map Prod.fst) ∧
        ∀ m ∈ members, ∀ o ∈ others, m.1 = o.1 → Same g m.2 o.2) ↔
      sortKeys rank (members.map fun m ↦ (m.1, norm rank g m.2)) =
        sortKeys rank (others.map fun m ↦ (m.1, norm rank g m.2)) := by
  have hkeys (ms : List (σ × Json σ ν)) :
      (ms.map fun m ↦ (m.1, norm rank g m.2)).map Prod.fst = ms.map Prod.fst := by
    rw [List.map_map]
    rfl
  rw [sortKeys_eq_iff hrank (by rw [hkeys]; exact hmembers)]
  rw [List.perm_ext_iff_of_nodup (.of_map Prod.fst (by rw [hkeys]; exact hmembers))
    (.of_map Prod.fst (by rw [hkeys]; exact hothers))]
  constructor
  · rintro ⟨hsame, hvalues⟩ ⟨k, v⟩
    simp only [List.mem_map, Prod.mk.injEq]
    constructor
    · rintro ⟨m, hm, rfl, rfl⟩
      obtain ⟨o, ho, hkey⟩ := List.mem_map.mp ((hsame m.1).mp (List.mem_map_of_mem hm))
      exact ⟨o, ho, hkey, ((h m hm o ho).mp (hvalues m hm o ho hkey.symm)).symm⟩
    · rintro ⟨o, ho, rfl, rfl⟩
      obtain ⟨m, hm, hkey⟩ := List.mem_map.mp ((hsame o.1).mpr (List.mem_map_of_mem ho))
      exact ⟨m, hm, hkey, (h m hm o ho).mp (hvalues m hm o ho hkey)⟩
  · intro hmem
    refine ⟨fun k ↦ ?_, fun m hm o ho hkey ↦ ?_⟩
    · rw [← hkeys members, ← hkeys others, List.mem_map, List.mem_map]
      simp only [hmem]
    · obtain ⟨o', ho', heq⟩ := List.mem_map.mp ((hmem (m.1, norm rank g m.2)).mp (List.mem_map.mpr ⟨m, hm, rfl⟩))
      rw [Prod.mk.injEq] at heq
      have : o' = o := eq_of_key hothers ho' ho (heq.1.trans hkey)
      subst this
      exact (h m hm o' ho).mpr heq.2.symm

theorem same_iff_norm (hrank : Function.Injective rank) {u : Json σ ν} (hv : v.Distinct) (hu : u.Distinct) :
    Same g v u ↔ norm rank g v = norm rank g u := by
  induction v generalizing u with
  | null => cases u <;> simp [Same, norm]
  | bool => cases u <;> simp [Same, norm, eq_comm]
  | number => cases u <;> simp [Same, norm]
  | string => cases u <;> simp [Same, norm, eq_comm]
  | array items ih =>
    rw [distinct_array] at hv
    rw [same_array, norm_array]
    cases u with
    | array =>
      rw [distinct_array] at hu
      simp only [array.injEq, exists_eq_left', norm_array]
      rw [← List.forall₂_eq_eq_eq, List.forall₂_map_left_iff, List.forall₂_map_right_iff]
      exact forall₂_congr fun v hmem u humem ↦ ih v hmem (hv v hmem) (hu u humem)
    | _ => simp [norm]
  | object members ih =>
    rw [distinct_object] at hv
    rw [same_object, norm_object]
    cases u with
    | object =>
      rw [distinct_object] at hu
      simp only [object.injEq, exists_eq_left', norm_object]
      exact same_members_iff hrank hv.1 hu.1 fun m hm o ho ↦ ih m hm (hv.2 m hm) (hu.2 o ho)
    | _ => simp [norm]

theorem sortKeys_sortKeys (members : List (σ × α)) : sortKeys rank (sortKeys rank members) = sortKeys rank members :=
  (sortKeys_sorted members).insertionSort_eq

theorem norm_norm {ξ : Type} (f : μ → ξ) (v : Json σ ν) : norm rank f (norm rank g v) = norm rank (fun n ↦ f (g n)) v := by
  induction v with
  | null | bool | number | string => rfl
  | array items ih =>
    rw [norm_array, norm_array, norm_array, List.map_map]
    congr 1
    exact List.map_congr_left ih
  | object members ih =>
    rw [norm_object, norm_object, norm_object, sortKeys_map, sortKeys_sortKeys, ← sortKeys_map, List.map_map]
    congr 2
    apply List.map_congr_left
    intro m hm
    exact congrArg (Prod.mk m.1) (ih m hm)

theorem norm_depth (v : Json σ ν) : (norm rank g v).depth = v.depth := by
  induction v with
  | null | bool | number | string => rfl
  | array items ih =>
    rw [norm_array, depth_array, depth_array, List.map_map]
    congr 2
    exact List.map_congr_left ih
  | object members ih =>
    rw [norm_object, depth_object, depth_object]
    congr 1
    have hsorted : (sortKeys rank (members.map fun m ↦ (m.1, norm rank g m.2))).Perm
        (members.map fun m ↦ (m.1, norm rank g m.2)) := sortKeys_perm _
    have hperm := hsorted.map fun m ↦ m.2.depth
    rw [hperm.foldr_eq' fun a _ b _ c ↦ max_left_comm b a c, List.map_map]
    congr 1
    exact List.map_congr_left ih

theorem norm_eq_map (v : Json σ ν) : norm rank g v = (norm rank id v).map id g := by
  induction v with
  | null | bool | number | string => rfl
  | array items ih =>
    rw [norm_array, norm_array, map_array, List.map_map]
    congr 1
    exact List.map_congr_left ih
  | object members ih =>
    have hmembers : (members.map fun m ↦ (m.1, norm rank g m.2)) =
        (members.map fun m ↦ (m.1, norm rank id m.2)).map fun m ↦ (m.1, m.2.map id g) := by
      rw [List.map_map]
      apply List.map_congr_left
      intro m hm
      exact congrArg (Prod.mk m.1) (ih m hm)
    rw [norm_object, norm_object, map_object, hmembers, sortKeys_map]
    rfl

theorem norm_eachNumber {P : ν → Prop} {Q : μ → Prop} (hPQ : ∀ n, P n → Q (g n)) (h : v.EachNumber P) :
    (norm rank g v).EachNumber Q := by
  induction v with
  | null => trivial
  | bool => trivial
  | number n => exact hPQ n h
  | string => trivial
  | array items ih =>
    rw [eachNumber_array] at h
    rw [norm_array, eachNumber_array, List.forall_mem_map]
    exact fun v hv ↦ ih v hv (h v hv)
  | object members ih =>
    rw [eachNumber_object] at h
    rw [norm_object, eachNumber_object]
    intro m hm
    obtain ⟨m', hm', rfl⟩ := List.mem_map.mp ((sortKeys_perm _).mem_iff.mp hm)
    exact ih m' hm' (h m' hm')

theorem eachNumber_of_norm {P : ν → Prop} {Q : μ → Prop} (hQP : ∀ n, Q (g n) → P n) (h : (norm rank g v).EachNumber Q) :
    v.EachNumber P := by
  induction v with
  | null => trivial
  | bool => trivial
  | number n => exact hQP n h
  | string => trivial
  | array items ih =>
    rw [norm_array, eachNumber_array, List.forall_mem_map] at h
    rw [eachNumber_array]
    exact fun v hv ↦ ih v hv (h v hv)
  | object members ih =>
    rw [norm_object, eachNumber_object] at h
    rw [eachNumber_object]
    intro m hm
    exact ih m hm (h _ ((sortKeys_perm _).mem_iff.mpr (List.mem_map_of_mem hm)))

theorem norm_distinct (h : v.Distinct) : (norm rank g v).Distinct := by
  induction v with
  | null | bool | number | string => trivial
  | array items ih =>
    rw [distinct_array] at h
    rw [norm_array, distinct_array, List.forall_mem_map]
    exact fun v hv ↦ ih v hv (h v hv)
  | object members ih =>
    rw [distinct_object] at h
    rw [norm_object, distinct_object]
    constructor
    · rw [((sortKeys_perm _).map Prod.fst).nodup_iff, List.map_map]
      exact h.1
    · intro m hm
      obtain ⟨m', hm', rfl⟩ := List.mem_map.mp ((sortKeys_perm _).mem_iff.mp hm)
      exact ih m' hm' (h.2 m' hm')

def Ordered (rank rank' : σ → List ℕ) : Json σ ν → Prop :=
  fold ⟨True, fun _ ↦ True, fun _ ↦ True, fun _ ↦ True, fun items ↦ ∀ p ∈ items, p,
    fun members ↦ (∀ a ∈ members.map Prod.fst, ∀ b ∈ members.map Prod.fst, rank a ≤ rank b ↔ rank' a ≤ rank' b) ∧
      ∀ p ∈ members.map Prod.snd, p⟩

@[simp] theorem ordered_null : (null : Json σ ν).Ordered rank rank' := trivial

@[simp] theorem ordered_number (n : ν) : (number n : Json σ ν).Ordered rank rank' := trivial

@[simp] theorem ordered_string (s : σ) : (string s : Json σ ν).Ordered rank rank' := trivial

theorem ordered_array (items : List (Json σ ν)) :
    (array items).Ordered rank rank' ↔ ∀ v ∈ items, v.Ordered rank rank' := by
  simp only [Ordered, fold_array, List.mem_map, forall_exists_index, and_imp, forall_apply_eq_imp_iff₂]

theorem ordered_object (members : List (σ × Json σ ν)) :
    (object members).Ordered rank rank' ↔
      (∀ a ∈ members.map Prod.fst, ∀ b ∈ members.map Prod.fst, rank a ≤ rank b ↔ rank' a ≤ rank' b) ∧
        ∀ m ∈ members, m.2.Ordered rank rank' := by
  simp only [Ordered, fold_object, List.forall_mem_map]

theorem agree_of_keys (hrank : Function.Injective rank) (hrank' : Function.Injective rank') {members : List (σ × α)}
    (hmembers : (members.map Prod.fst).Nodup)
    (heq : (sortKeys rank members).map Prod.fst = (sortKeys rank' members).map Prod.fst) :
    ∀ a ∈ members.map Prod.fst, ∀ b ∈ members.map Prod.fst, rank a ≤ rank b ↔ rank' a ≤ rank' b := by
  have hsorted : ((sortKeys rank members).map Prod.fst).Pairwise fun a b ↦ rank a ≤ rank b ∧ rank' a ≤ rank' b := by
    rw [List.pairwise_and_iff]
    constructor
    · rw [List.pairwise_map]
      exact sortKeys_sorted members
    · rw [heq, List.pairwise_map]
      exact sortKeys_sorted members
  have hperm := (@sortKeys_perm _ _ rank members).map Prod.fst
  have hagree : ((sortKeys rank members).map Prod.fst).Pairwise fun a b ↦
      (rank a ≤ rank b ↔ rank' a ≤ rank' b) ∧ (rank b ≤ rank a ↔ rank' b ≤ rank' a) := by
    refine (hsorted.and (hperm.nodup_iff.mpr hmembers)).imp ?_
    rintro a b ⟨⟨hab, hab'⟩, hne⟩
    refine ⟨by simp [hab, hab'], ?_⟩
    constructor
    · intro hba
      exact absurd (hrank (le_antisymm hab hba)) hne
    · intro hba
      exact absurd (hrank' (le_antisymm hab' hba)) hne
  intro a ha b hb
  have hall := List.Pairwise.forall_of_forall_of_flip (R := fun a b ↦ rank a ≤ rank b ↔ rank' a ≤ rank' b)
    (fun a _ ↦ by simp) (hagree.imp And.left) (hagree.imp And.right)
  exact hall (hperm.mem_iff.mpr ha) (hperm.mem_iff.mpr hb)

theorem sortKeys_congr (hrank' : Function.Injective rank') {members : List (σ × α)}
    (hmembers : (members.map Prod.fst).Nodup)
    (hagree : ∀ a ∈ members.map Prod.fst, ∀ b ∈ members.map Prod.fst, rank a ≤ rank b ↔ rank' a ≤ rank' b) :
    sortKeys rank members = sortKeys rank' members := by
  have hperm : (sortKeys rank members).Perm (sortKeys rank' members) :=
    (sortKeys_perm members).trans (sortKeys_perm members).symm
  have hsorted : (sortKeys rank members).Pairwise fun a b ↦ rank' a.1 ≤ rank' b.1 := by
    refine (@sortKeys_sorted _ _ rank members).imp_of_mem ?_
    intro a b ha hb hab
    have ha := List.mem_map_of_mem (f := Prod.fst) ((sortKeys_perm members).mem_iff.mp ha)
    have hb := List.mem_map_of_mem (f := Prod.fst) ((sortKeys_perm members).mem_iff.mp hb)
    exact (hagree a.1 ha b.1 hb).mp hab
  refine hperm.eq_of_pairwise ?_ hsorted (sortKeys_sorted members)
  intro a b ha hb hab hba
  have ha := (sortKeys_perm members).mem_iff.mp ha
  have hb := (sortKeys_perm members).mem_iff.mp hb
  exact eq_of_key hmembers ha hb (hrank' (le_antisymm hab hba))

theorem sortKeys_values {members : List (σ × α)} {F G : α → β} (hmembers : (members.map Prod.fst).Nodup)
    (heq : sortKeys rank (members.map fun m ↦ (m.1, F m.2)) = sortKeys rank' (members.map fun m ↦ (m.1, G m.2)))
    {m : σ × α} (hm : m ∈ members) : F m.2 = G m.2 := by
  have hleft : (m.1, F m.2) ∈ sortKeys rank (members.map fun m ↦ (m.1, F m.2)) :=
    (sortKeys_perm _).mem_iff.mpr (List.mem_map.mpr ⟨m, hm, rfl⟩)
  rw [heq] at hleft
  obtain ⟨m', hm', hpair⟩ := List.mem_map.mp ((sortKeys_perm _).mem_iff.mp hleft)
  rw [Prod.mk.injEq] at hpair
  have hsame : m' = m := eq_of_key hmembers hm' hm hpair.1
  rw [hsame] at hpair
  exact hpair.2.symm

/-- Two orders and two conversions of the numbers make the same of a value exactly when the
orders agree on the keys of each object and the conversions on each number. -/
theorem norm_eq_iff (hrank : Function.Injective rank) (hrank' : Function.Injective rank') {f g : ν → μ}
    (hv : v.Distinct) :
    norm rank f v = norm rank' g v ↔ v.Ordered rank rank' ∧ v.EachNumber fun n ↦ f n = g n := by
  induction v with
  | null => simp [norm, Ordered]
  | bool => simp [norm, Ordered, EachNumber]
  | number | string => simp [norm, Ordered]
  | array items ih =>
    rw [distinct_array] at hv
    rw [norm_array, norm_array, array.injEq, ordered_array, eachNumber_array, List.map_inj_left]
    constructor
    · intro h
      exact ⟨fun v hmem ↦ ((ih v hmem (hv v hmem)).mp (h v hmem)).1,
        fun v hmem ↦ ((ih v hmem (hv v hmem)).mp (h v hmem)).2⟩
    · rintro ⟨hordered, hnumbers⟩ v hmem
      exact (ih v hmem (hv v hmem)).mpr ⟨hordered v hmem, hnumbers v hmem⟩
  | object members ih =>
    rw [distinct_object] at hv
    rw [norm_object, norm_object, object.injEq, ordered_object, eachNumber_object]
    constructor
    · intro h
      have hvalues {m : σ × Json σ ν} (hm : m ∈ members) := (ih m hm (hv.2 m hm)).mp (sortKeys_values hv.1 h hm)
      refine ⟨⟨?_, fun m hm ↦ (hvalues hm).1⟩, fun m hm ↦ (hvalues hm).2⟩
      have hkeys := congrArg (List.map Prod.fst) h
      rw [sortKeys_map, sortKeys_map, List.map_map, List.map_map] at hkeys
      exact agree_of_keys hrank hrank' hv.1 hkeys
    · rintro ⟨⟨hagree, hordered⟩, hnumbers⟩
      have hvalues : (members.map fun m ↦ (m.1, norm rank f m.2)) = members.map fun m ↦ (m.1, norm rank' g m.2) := by
        apply List.map_congr_left
        intro m hm
        exact congrArg (Prod.mk m.1) ((ih m hm (hv.2 m hm)).mpr ⟨hordered m hm, hnumbers m hm⟩)
      rw [hvalues, sortKeys_map, sortKeys_map, sortKeys_congr hrank' hv.1 hagree]

end Noesar.Lib.Json

namespace Noesar.Lib.Json

open InsertionMap

section Lookup

variable {σ α : Type} [DecidableEq σ] {members : List (σ × α)} {k : σ}

theorem lookup_eq_none : lookup k members = none ↔ k ∉ members.map Prod.fst := by
  induction members with
  | nil => simp [lookup]
  | cons m members ih =>
    obtain ⟨j, v⟩ := m
    by_cases h : j = k
    · simp [lookup, h]
    · simp [lookup, h, Ne.symm h, ih]

theorem mem_of_lookup {v : α} (h : lookup k members = some v) : (k, v) ∈ members := by
  induction members with
  | nil => cases h
  | cons m members ih =>
    obtain ⟨j, w⟩ := m
    by_cases hj : j = k
    · rw [lookup, if_pos hj, Option.some.injEq] at h
      subst h hj
      exact List.mem_cons_self
    · rw [lookup, if_neg hj] at h
      exact List.mem_cons_of_mem _ (ih h)

theorem lookup_filter (keep : σ → Bool) :
    lookup k (members.filter fun m ↦ keep m.1) = if keep k then lookup k members else none := by
  induction members with
  | nil => simp [lookup]
  | cons m members ih =>
    obtain ⟨j, v⟩ := m
    by_cases hj : j = k
    · subst hj
      cases hkeep : keep j with
      | true => simp [lookup, hkeep]
      | false => simp [hkeep, ih]
    · cases hkeep : keep j with
      | true | false => simp [lookup, hkeep, hj, ih]

end Lookup

variable {σ ν μ : Type} [DecidableEq σ] {g : ν → μ}

theorem same_object_iff {members others : List (σ × Json σ ν)} (hmembers : (members.map Prod.fst).Nodup)
    (hothers : (others.map Prod.fst).Nodup) :
    Same g (.object members) (.object others) ↔ ∀ k, Option.Rel (Same g) (lookup k members) (lookup k others) := by
  rw [same_object]
  constructor
  · rintro ⟨others', heq, hkeys, hvalues⟩ k
    cases heq
    cases hm : lookup k members with
    | none =>
      have ho : lookup k others = none := lookup_eq_none.mpr fun h ↦ lookup_eq_none.mp hm ((hkeys k).mpr h)
      rw [ho]
      exact .none
    | some =>
      obtain ⟨⟨j, w⟩, hw, rfl⟩ := List.mem_map.mp ((hkeys k).mp (List.mem_map_of_mem (mem_of_lookup hm)))
      rw [lookup_of_mem hothers hw]
      exact .some (hvalues _ (mem_of_lookup hm) _ hw rfl)
  · intro h
    refine ⟨others, rfl, fun k ↦ ?_, ?_⟩
    · rw [← not_iff_not, ← lookup_eq_none, ← lookup_eq_none]
      have hk := h k
      constructor
      · intro hnone
        rw [hnone] at hk
        generalize lookup k others = o at hk
        cases hk
        rfl
      · intro hnone
        rw [hnone] at hk
        generalize lookup k members = o at hk
        cases hk
        rfl
    · rintro ⟨k, v⟩ hm ⟨j, w⟩ ho heq
      obtain rfl : k = j := heq
      have hk := h k
      rw [lookup_of_mem hmembers hm, lookup_of_mem hothers ho] at hk
      cases hk with
      | some hsame => exact hsame

end Noesar.Lib.Json
