import Mathlib

namespace Noesar.Lib

/-- A finite map that lists its entries in the order their keys were first set. -/
structure InsertionMap (κ ν : Type) where
  entries : List (κ × ν)
  nodup : (entries.map Prod.fst).Nodup

namespace InsertionMap

variable {κ ν : Type}

def empty : InsertionMap κ ν := ⟨[], by simp⟩

instance : Inhabited (InsertionMap κ ν) := ⟨empty⟩

def keys (m : InsertionMap κ ν) : List κ := m.entries.map Prod.fst

variable [DecidableEq κ]

def lookup (k : κ) : List (κ × ν) → Option ν
  | [] => none
  | (j, v) :: es => if j = k then some v else lookup k es

/-- Replaces the value in place when the key is there, appends the entry when
it is not. -/
def put (k : κ) (v : ν) : List (κ × ν) → List (κ × ν)
  | [] => [(k, v)]
  | (j, w) :: es => if j = k then (j, v) :: es else (j, w) :: put k v es

theorem put_keys (k : κ) (v : ν) (es : List (κ × ν)) :
    (put k v es).map Prod.fst =
      if k ∈ es.map Prod.fst then es.map Prod.fst else es.map Prod.fst ++ [k] := by
  induction es with
  | nil => simp [put]
  | cons e es ih =>
    obtain ⟨j, w⟩ := e
    by_cases h : j = k
    · simp [put, h]
    · by_cases hk : k ∈ es.map Prod.fst
      · simp only [put, if_neg h, List.map_cons, ih, if_pos hk, if_pos (List.mem_cons_of_mem j hk)]
      · simp only [put, if_neg h, List.map_cons, ih, if_neg hk, List.mem_cons, Ne.symm h,
          false_or, List.cons_append]

theorem mem_put {k : κ} {v : ν} {es : List (κ × ν)} {e : κ × ν} (h : e ∈ put k v es) : e ∈ es ∨ e = (k, v) := by
  induction es with
  | nil => exact .inr (List.mem_singleton.mp h)
  | cons f es ih =>
    obtain ⟨j, w⟩ := f
    by_cases hj : j = k
    · rw [put, if_pos hj, List.mem_cons] at h
      rcases h with rfl | h
      · exact .inr (by rw [hj])
      · exact .inl (List.mem_cons_of_mem _ h)
    · rw [put, if_neg hj, List.mem_cons] at h
      rcases h with rfl | h
      · exact .inl List.mem_cons_self
      · rcases ih h with h | h
        · exact .inl (List.mem_cons_of_mem _ h)
        · exact .inr h

def get (m : InsertionMap κ ν) (k : κ) : Option ν := lookup k m.entries

def has (m : InsertionMap κ ν) (k : κ) : Bool := (m.get k).isSome

def set (m : InsertionMap κ ν) (k : κ) (v : ν) : InsertionMap κ ν :=
  ⟨put k v m.entries, by
    rw [put_keys]
    split
    · exact m.nodup
    · next h => exact List.nodup_append.mpr ⟨m.nodup, by simp, by simpa using fun a b hab he ↦ h (by
        simp only [List.mem_map]; exact ⟨(a, b), hab, he⟩)⟩⟩

def delete (m : InsertionMap κ ν) (k : κ) : InsertionMap κ ν :=
  ⟨m.entries.filter (fun e ↦ e.1 ≠ k), m.nodup.sublist (List.filter_sublist.map _)⟩

theorem lookup_put (j k : κ) (v : ν) (es : List (κ × ν)) :
    lookup j (put k v es) = if k = j then some v else lookup j es := by
  induction es with
  | nil => simp [put, lookup]
  | cons e es ih =>
    obtain ⟨i, w⟩ := e
    by_cases h : i = k
    · subst i; by_cases hj : k = j <;> simp [put, lookup, hj]
    · by_cases hi : i = j
      · subst hi; simp [put, lookup, h, Ne.symm h]
      · simp [put, lookup, h, hi, ih]

@[simp] theorem get_empty (k : κ) : (empty : InsertionMap κ ν).get k = none := rfl

theorem get_set (m : InsertionMap κ ν) (j k : κ) (v : ν) :
    (m.set k v).get j = if k = j then some v else m.get j := lookup_put j k v m.entries

@[simp] theorem get_set_self (m : InsertionMap κ ν) (k : κ) (v : ν) :
    (m.set k v).get k = some v := by simp [get_set]

theorem get_set_ne (m : InsertionMap κ ν) {j k : κ} (v : ν) (h : j ≠ k) :
    (m.set k v).get j = m.get j := by simp [get_set, Ne.symm h]

theorem get_delete (m : InsertionMap κ ν) (j k : κ) :
    (m.delete k).get j = if k = j then none else m.get j := by
  obtain ⟨es, hn⟩ := m
  simp only [get, delete]
  clear hn
  induction es with
  | nil => simp [lookup]
  | cons e =>
    obtain ⟨i, w⟩ := e
    by_cases h : i = k
    · subst i
      by_cases hj : k = j <;> simp_all [lookup]
    · by_cases hi : i = j
      · subst hi; simp [lookup, h, Ne.symm h]
      · simp_all [lookup]

@[simp] theorem get_delete_self (m : InsertionMap κ ν) (k : κ) : (m.delete k).get k = none := by
  simp [get_delete]

theorem get_delete_ne (m : InsertionMap κ ν) {j k : κ} (h : j ≠ k) :
    (m.delete k).get j = m.get j := by simp [get_delete, Ne.symm h]

theorem delete_eq_self {m : InsertionMap κ ν} {k : κ} (h : m.has k = false) : m.delete k = m := by
  obtain ⟨es, hn⟩ := m
  simp only [delete, mk.injEq, List.filter_eq_self]
  simp only [has, get] at h
  clear hn
  induction es with
  | nil => simp
  | cons e es ih =>
    obtain ⟨i, w⟩ := e
    by_cases hi : i = k
    · simp [lookup, hi] at h
    · simp only [lookup, if_neg hi] at h
      simpa [hi] using ih h

def filter (m : InsertionMap κ ν) (keep : κ → Bool) : InsertionMap κ ν :=
  ⟨m.entries.filter (fun e ↦ keep e.1), m.nodup.sublist (List.filter_sublist.map _)⟩

theorem get_filter (m : InsertionMap κ ν) (keep : κ → Bool) (k : κ) :
    (m.filter keep).get k = if keep k then m.get k else none := by
  obtain ⟨entries, nodup⟩ := m
  simp only [get, filter]
  clear nodup
  induction entries with
  | nil => simp [lookup]
  | cons e es ih =>
    obtain ⟨j, v⟩ := e
    rw [List.filter_cons]
    by_cases hj : j = k
    · subst hj
      by_cases hkeep : keep j = true
      · simp [hkeep, lookup]
      · simp [hkeep, ih]
    · by_cases hkeep : keep j = true
      · simp [hkeep, lookup, hj, ih]
      · simp [hkeep, lookup, hj, ih]

theorem get_filter_all (m : InsertionMap κ ν) (p : ν → Bool) (k : κ) (v : ν) :
    (m.filter fun k ↦ (m.get k).all p).get k = some v ↔ m.get k = some v ∧ p v = true := by
  rw [get_filter]
  cases hget : m.get k with
  | none => simp
  | some =>
    rw [Option.all_some]
    split
    next hp =>
      refine ⟨fun h ↦ ⟨h, Option.some.inj h ▸ hp⟩, And.left⟩
    next hp => exact ⟨nofun, fun ⟨h, hv⟩ ↦ absurd (Option.some.inj h ▸ hv) hp⟩

theorem mem_entries {m : InsertionMap κ ν} {k : κ} {v : ν} (h : m.get k = some v) : (k, v) ∈ m.entries := by
  obtain ⟨entries, nodup⟩ := m
  simp only [get] at h ⊢
  clear nodup
  induction entries with
  | nil => cases h
  | cons e es ih =>
    simp only [lookup] at h
    split at h
    next he =>
      cases h
      simp [← he]
    · exact List.mem_cons_of_mem e (ih h)

theorem lookup_of_mem {k : κ} {v : ν} {es : List (κ × ν)} (hnodup : (es.map Prod.fst).Nodup) (h : (k, v) ∈ es) :
    lookup k es = some v := by
  induction es with
  | nil => cases h
  | cons e es ih =>
    obtain ⟨j, w⟩ := e
    rw [List.map_cons, List.nodup_cons] at hnodup
    rcases List.mem_cons.mp h with he | h
    · cases he
      rw [lookup, if_pos rfl]
    · have hne : j ≠ k := by
        rintro rfl
        exact hnodup.1 (List.mem_map.mpr ⟨_, h, rfl⟩)
      rw [lookup, if_neg hne]
      exact ih hnodup.2 h

theorem get_of_mem {m : InsertionMap κ ν} {k : κ} {v : ν} (h : (k, v) ∈ m.entries) : m.get k = some v :=
  lookup_of_mem m.nodup h

theorem put_append {k : κ} {v w : ν} {before after : List (κ × ν)} (h : k ∉ before.map Prod.fst) :
    put k v (before ++ (k, w) :: after) = before ++ (k, v) :: after := by
  induction before with
  | nil => rw [List.nil_append, put, if_pos rfl, List.nil_append]
  | cons e before ih =>
    obtain ⟨j, u⟩ := e
    rw [List.map_cons, List.mem_cons, not_or] at h
    rw [List.cons_append, put, if_neg (Ne.symm h.1), ih h.2, List.cons_append]

section

variable {μ : Type} (f : ν → μ)

/-- The map with each value replaced by what `f` makes of it. -/
def map (m : InsertionMap κ ν) : InsertionMap κ μ :=
  ⟨m.entries.map fun e ↦ (e.1, f e.2), by
    rw [List.map_map]
    exact m.nodup⟩

theorem lookup_map (k : κ) (es : List (κ × ν)) : lookup k (es.map fun e ↦ (e.1, f e.2)) = (lookup k es).map f := by
  induction es with
  | nil => rfl
  | cons e es ih =>
    obtain ⟨j, v⟩ := e
    by_cases h : j = k
    · simp [lookup, h]
    · simp [lookup, h, ih]

theorem get_map (m : InsertionMap κ ν) (k : κ) : (m.map f).get k = (m.get k).map f := lookup_map f k m.entries

theorem map_set (m : InsertionMap κ ν) (k : κ) (v : ν) : (m.set k v).map f = (m.map f).set k (f v) := by
  obtain ⟨es, nodup⟩ := m
  simp only [set, map, mk.injEq]
  clear nodup
  induction es with
  | nil => rfl
  | cons e es ih =>
    obtain ⟨j, w⟩ := e
    by_cases h : j = k
    · simp [put, h]
    · simp [put, h, ih]

theorem map_delete (m : InsertionMap κ ν) (k : κ) : (m.delete k).map f = (m.map f).delete k := by
  simp only [delete, map, mk.injEq, List.filter_map]
  rfl

end

section

variable {p : κ × ν → Bool} {k : κ} {v : ν} {es : List (κ × ν)}

theorem filter_put_of_not (hnodup : (es.map Prod.fst).Nodup) (hv : p (k, v) = false) :
    (put k v es).filter p = (es.filter p).filter fun e ↦ e.1 ≠ k := by
  induction es with
  | nil => simp [put, hv]
  | cons e es ih =>
    obtain ⟨j, w⟩ := e
    rw [List.map_cons, List.nodup_cons] at hnodup
    by_cases hj : j = k
    · subst hj
      have hothers : (es.filter p).filter (fun e ↦ decide (e.1 ≠ j)) = es.filter p := by
        rw [List.filter_eq_self]
        intro e he
        rw [decide_eq_true_iff]
        rintro rfl
        exact hnodup.1 (List.mem_map.mpr ⟨_, List.mem_of_mem_filter he, rfl⟩)
      rw [put, if_pos rfl, List.filter_cons, List.filter_cons, hv]
      cases p (j, w) with
      | true | false => simpa using hothers.symm
    · rw [put, if_neg hj, List.filter_cons, List.filter_cons, ih hnodup.2]
      cases p (j, w) with
      | true => simp [hj]
      | false => simp

theorem find?_filter_key (hnodup : (es.map Prod.fst).Nodup) : (es.filter p).find? (fun e ↦ e.1 = k) =
    (lookup k es).bind fun v ↦ if p (k, v) then some (k, v) else none := by
  induction es with
  | nil => rfl
  | cons e es ih =>
    obtain ⟨j, w⟩ := e
    rw [List.map_cons, List.nodup_cons] at hnodup
    by_cases hj : j = k
    · subst hj
      have hnone : (es.filter p).find? (fun e ↦ e.1 = j) = none := by
        rw [List.find?_eq_none]
        rintro e hmem
        rw [decide_eq_true_iff]
        rintro rfl
        exact hnodup.1 (List.mem_map.mpr ⟨e, List.mem_of_mem_filter hmem, rfl⟩)
      rw [lookup, if_pos rfl, List.filter_cons]
      cases h : p (j, w) with
      | true => simp [h]
      | false => simpa [h] using hnone
    · rw [lookup, if_neg hj, List.filter_cons, ← ih hnodup.2]
      cases p (j, w) with
      | true => simp [hj]
      | false => simp

def LastAmong (p : κ × ν → Bool) (k : κ) (es : List (κ × ν)) : Prop :=
  ∀ before w after, es = before ++ (k, w) :: after → p (k, w) = false ∧ ∀ e ∈ after, p e = false

theorem LastAmong.filter_put (h : LastAmong p k es) (hv : p (k, v) = true) :
    (put k v es).filter p = es.filter p ++ [(k, v)] := by
  induction es with
  | nil => simp [put, hv]
  | cons e es ih =>
    obtain ⟨j, w⟩ := e
    by_cases hj : j = k
    · subst hj
      obtain ⟨hw, hrest⟩ := h [] w es rfl
      have hnone : es.filter p = [] := by
        rw [List.filter_eq_nil_iff]
        intro e he
        rw [hrest e he]
        exact Bool.false_ne_true
      rw [put, if_pos rfl, List.filter_cons, List.filter_cons, hv, hw, hnone]
      rfl
    · have hrest := ih fun before u after he ↦ h ((j, w) :: before) u after (by rw [he, List.cons_append])
      rw [put, if_neg hj, List.filter_cons, List.filter_cons, hrest]
      cases p (j, w) with
      | true => rfl
      | false => rfl

theorem LastAmong.of_filter_put {l : List (κ × ν)} {x : κ × ν} (hnodup : (es.map Prod.fst).Nodup) (hx : x.1 = k)
    (hv : p (k, v) = true) (h : (put k v es).filter p = l ++ [x]) (hlength : l.length = (es.filter p).length) :
    LastAmong p k es := by
  rintro before w after rfl
  rw [List.map_append, List.map_cons, List.nodup_append, List.nodup_cons] at hnodup
  obtain ⟨_, ⟨hafter, _⟩, hdisjoint⟩ := hnodup
  have hbefore : k ∉ before.map Prod.fst := fun hmem ↦ hdisjoint k hmem k List.mem_cons_self rfl
  rw [put_append hbefore, List.filter_append, List.filter_cons, if_pos hv] at h
  have hnone : after.filter p = [] := by
    rcases List.eq_nil_or_concat (after.filter p) with hnil | ⟨front, e, he⟩
    · exact hnil
    · rw [List.concat_eq_append] at he
      rw [he, ← List.cons_append, ← List.append_assoc] at h
      have hlast := (List.append_inj' h rfl).2
      obtain rfl : e = x := by simpa using hlast
      have hmem : e ∈ after.filter p := by
        rw [he]
        simp
      exact absurd (List.mem_map.mpr ⟨e, List.mem_of_mem_filter hmem, hx⟩) hafter
  rw [hnone] at h
  have hcount := congrArg List.length h
  rw [List.filter_append, List.filter_cons, hnone] at hlength
  constructor
  · by_contra hw
    rw [Bool.not_eq_false] at hw
    simp only [hw, if_true, List.length_append, List.length_cons, List.length_nil] at hlength hcount
    omega
  · intro e he
    by_contra hp
    rw [Bool.not_eq_false] at hp
    have hmem : e ∈ after.filter p := List.mem_filter.mpr ⟨he, hp⟩
    rw [hnone] at hmem
    cases hmem

end

theorem has_iff (m : InsertionMap κ ν) (k : κ) : m.has k = true ↔ ∃ v, m.get k = some v := by
  simp [has, Option.isSome_iff_exists]

end InsertionMap

end Noesar.Lib
