import Mathlib
import Noesar.Lib.Utf16

namespace Noesar.Lib

open Utf16

/-- A value of the data format, with its strings and numbers from any two types. -/
inductive Json (σ ν : Type)
  | null
  | bool (b : Bool)
  | number (n : ν)
  | string (s : σ)
  | array (items : List (Json σ ν))
  | object (members : List (σ × Json σ ν))

namespace Json

variable {σ ν τ μ : Type}

section

variable {P : Json σ ν → Prop} (null : P .null) (bool : ∀ b, P (.bool b)) (number : ∀ n, P (.number n))
  (string : ∀ s, P (.string s)) (array : ∀ items, (∀ v ∈ items, P v) → P (.array items))
  (object : ∀ members, (∀ m ∈ members, P m.2) → P (.object members))

include null bool number string array object

mutual

@[induction_eliminator]
theorem ofParts : ∀ v : Json σ ν, P v
  | .null => null
  | .bool b => bool b
  | .number n => number n
  | .string s => string s
  | .array items => array items (ofParts.items items)
  | .object members => object members (ofParts.members members)

theorem ofParts.items : ∀ items : List (Json σ ν), ∀ v ∈ items, P v
  | [], _, h => absurd h List.not_mem_nil
  | _ :: items, w, h => (List.mem_cons.mp h).elim (fun hw ↦ hw ▸ ofParts _) (ofParts.items items w)

theorem ofParts.members : ∀ members : List (σ × Json σ ν), ∀ m ∈ members, P m.2
  | [], _, h => absurd h List.not_mem_nil
  | (_, v) :: members, m, h => (List.mem_cons.mp h).elim (fun hm ↦ hm ▸ ofParts v) (ofParts.members members m)

end

end

/-- What to make of each kind of value, given what was made of its parts. -/
structure Algebra (σ ν β : Type) where
  null : β
  bool : Bool → β
  number : ν → β
  string : σ → β
  array : List β → β
  object : List (σ × β) → β

section

variable {β : Type} (a : Algebra σ ν β)

mutual

def fold : Json σ ν → β
  | .null => a.null
  | .bool b => a.bool b
  | .number n => a.number n
  | .string s => a.string s
  | .array items => a.array (fold.items items)
  | .object members => a.object (fold.members members)

def fold.items : List (Json σ ν) → List β
  | [] => []
  | v :: items => fold v :: fold.items items

def fold.members : List (σ × Json σ ν) → List (σ × β)
  | [] => []
  | (k, v) :: members => (k, fold v) :: fold.members members

end

@[simp] theorem fold_null : fold a .null = a.null := rfl

@[simp] theorem fold_bool (b : Bool) : fold a (.bool b) = a.bool b := rfl

@[simp] theorem fold_number (n : ν) : fold a (.number n) = a.number n := rfl

@[simp] theorem fold_string (s : σ) : fold a (.string s) = a.string s := rfl

@[simp] theorem fold_array (items : List (Json σ ν)) : fold a (.array items) = a.array (items.map (fold a)) := by
  rw [fold]
  congr 1
  induction items with
  | nil => rfl
  | cons v items ih => rw [fold.items, ih, List.map_cons]

@[simp] theorem fold_object (members : List (σ × Json σ ν)) :
    fold a (.object members) = a.object (members.map fun m ↦ (m.1, fold a m.2)) := by
  rw [fold]
  congr 1
  induction members with
  | nil => rfl
  | cons m members ih =>
    obtain ⟨k, v⟩ := m
    rw [fold.members, ih, List.map_cons]

end

def map (f : σ → τ) (g : ν → μ) : Json σ ν → Json τ μ :=
  fold ⟨.null, .bool, fun n ↦ .number (g n), fun s ↦ .string (f s), .array,
    fun members ↦ .object (members.map fun m ↦ (f m.1, m.2))⟩

def depth : Json σ ν → ℕ :=
  fold ⟨0, fun _ ↦ 0, fun _ ↦ 0, fun _ ↦ 0, fun depths ↦ depths.foldr max 0 + 1,
    fun members ↦ (members.map Prod.snd).foldr max 0 + 1⟩

def Distinct : Json σ ν → Prop :=
  fold ⟨True, fun _ ↦ True, fun _ ↦ True, fun _ ↦ True, fun items ↦ ∀ p ∈ items, p,
    fun members ↦ (members.map Prod.fst).Nodup ∧ ∀ p ∈ members.map Prod.snd, p⟩

def EachNumber (P : ν → Prop) : Json σ ν → Prop :=
  fold ⟨True, fun _ ↦ True, P, fun _ ↦ True, fun items ↦ ∀ p ∈ items, p, fun members ↦ ∀ p ∈ members.map Prod.snd, p⟩

section

variable (f : σ → τ) (g : ν → μ)

@[simp] theorem map_null : (null : Json σ ν).map f g = .null := rfl

@[simp] theorem map_bool (b : Bool) : (bool b : Json σ ν).map f g = .bool b := rfl

@[simp] theorem map_number (n : ν) : (number n : Json σ ν).map f g = .number (g n) := rfl

@[simp] theorem map_string (s : σ) : (string s : Json σ ν).map f g = .string (f s) := rfl

@[simp] theorem map_array (items : List (Json σ ν)) :
    (array items).map f g = .array (items.map (Json.map f g)) := by
  simp [map]

@[simp] theorem map_object (members : List (σ × Json σ ν)) :
    (object members).map f g = .object (members.map fun m ↦ (f m.1, m.2.map f g)) := by
  simp [map]

theorem map_id (v : Json σ ν) : v.map id id = v := by
  induction v with
  | null | bool | number | string => rfl
  | array items ih =>
    rw [map_array]
    congr 1
    exact (List.map_congr_left ih).trans (List.map_id items)
  | object members ih =>
    rw [map_object]
    congr 1
    refine (List.map_congr_left fun m hm ↦ ?_).trans (List.map_id members)
    exact congrArg (Prod.mk m.1) (ih m hm)

@[simp] theorem distinct_number (n : ν) : (number n : Json σ ν).Distinct := trivial

@[simp] theorem distinct_string (s : σ) : (string s : Json σ ν).Distinct := trivial

@[simp] theorem distinct_null : (null : Json σ ν).Distinct := trivial

variable {P : ν → Prop} {v : Json σ ν}

@[simp] theorem eachNumber_number (n : ν) : (number n : Json σ ν).EachNumber P ↔ P n := Iff.rfl

@[simp] theorem eachNumber_string (s : σ) : (string s : Json σ ν).EachNumber P := trivial

@[simp] theorem eachNumber_null : (null : Json σ ν).EachNumber P := trivial

theorem distinct_array (items : List (Json σ ν)) : (array items).Distinct ↔ ∀ v ∈ items, v.Distinct := by
  simp only [Distinct, fold_array, List.mem_map, forall_exists_index, and_imp, forall_apply_eq_imp_iff₂]

theorem distinct_object (members : List (σ × Json σ ν)) :
    (object members).Distinct ↔ (members.map Prod.fst).Nodup ∧ ∀ m ∈ members, m.2.Distinct := by
  simp only [Distinct, fold_object, List.map_map, List.mem_map, forall_exists_index, and_imp,
    forall_apply_eq_imp_iff₂]
  rfl

theorem eachNumber_array (items : List (Json σ ν)) :
    (array items).EachNumber P ↔ ∀ v ∈ items, v.EachNumber P := by
  simp only [EachNumber, fold_array, List.mem_map, forall_exists_index, and_imp, forall_apply_eq_imp_iff₂]

theorem eachNumber_object (members : List (σ × Json σ ν)) :
    (object members).EachNumber P ↔ ∀ m ∈ members, m.2.EachNumber P := by
  simp only [EachNumber, fold_object, List.mem_map, forall_exists_index, and_imp, forall_apply_eq_imp_iff₂]

theorem EachNumber.imp {Q : ν → Prop} (hPQ : ∀ n, P n → Q n) (h : v.EachNumber P) : v.EachNumber Q := by
  induction v with
  | null => trivial
  | bool => trivial
  | number n => exact hPQ n h
  | string => trivial
  | array items ih =>
    rw [eachNumber_array] at h ⊢
    exact fun v hv ↦ ih v hv (h v hv)
  | object members ih =>
    rw [eachNumber_object] at h ⊢
    exact fun m hm ↦ ih m hm (h m hm)

theorem eachNumber_of_forall (h : ∀ n, P n) (v : Json σ ν) : v.EachNumber P := by
  induction v with
  | null => trivial
  | bool => trivial
  | number n => exact h n
  | string => trivial
  | array items ih =>
    rw [eachNumber_array]
    exact ih
  | object members ih =>
    rw [eachNumber_object]
    exact ih

theorem EachNumber.and {Q : ν → Prop} (hP : v.EachNumber P) (hQ : v.EachNumber Q) :
    v.EachNumber fun n ↦ P n ∧ Q n := by
  induction v with
  | null => trivial
  | bool => trivial
  | number => exact ⟨hP, hQ⟩
  | string => trivial
  | array items ih =>
    rw [eachNumber_array] at hP hQ ⊢
    exact fun v hv ↦ ih v hv (hP v hv) (hQ v hv)
  | object members ih =>
    rw [eachNumber_object] at hP hQ ⊢
    exact fun m hm ↦ ih m hm (hP m hm) (hQ m hm)

theorem le_foldr_max {ns : List ℕ} {n : ℕ} (h : n ∈ ns) : n ≤ ns.foldr max 0 := by
  induction ns with
  | nil => cases h
  | cons m ns ih =>
    rw [List.foldr_cons]
    rcases List.mem_cons.mp h with rfl | h
    · exact le_max_left _ _
    · exact (ih h).trans (le_max_right _ _)

theorem depth_array (items : List (Json σ ν)) : (array items).depth = (items.map depth).foldr max 0 + 1 := by
  rw [depth, fold_array]

theorem depth_object (members : List (σ × Json σ ν)) :
    (object members).depth = (members.map fun m ↦ m.2.depth).foldr max 0 + 1 := by
  simp only [depth, fold_object, List.map_map]
  rfl

theorem depth_lt_array {items : List (Json σ ν)} (h : v ∈ items) : v.depth < (array items).depth := by
  rw [depth_array]
  exact Nat.lt_succ_of_le (le_foldr_max (List.mem_map_of_mem h))

theorem depth_lt_object {members : List (σ × Json σ ν)} {m : σ × Json σ ν} (h : m ∈ members) :
    m.2.depth < (object members).depth := by
  rw [depth_object]
  exact Nat.lt_succ_of_le (le_foldr_max (List.mem_map.mpr ⟨m, h, rfl⟩))

end

end Json

end Noesar.Lib
