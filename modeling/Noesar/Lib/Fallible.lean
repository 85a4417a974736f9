import Mathlib

namespace Noesar.Lib

variable {ε α β : Type}

variable {f : α → Except ε β} {b : β} {xs : List α} {ys : List β}

theorem bind_ok {x : Except ε α} :
    (x >>= f) = .ok b ↔ ∃ a, x = .ok a ∧ f a = .ok b := by
  cases x with
  | error | ok => simp [bind, Except.bind]

def require (p : Prop) [Decidable p] (message : ε) : Except ε Unit := if p then .ok () else .error message

@[simp] theorem require_ok {p : Prop} [Decidable p] {message : ε} : require p message = .ok () ↔ p := by
  unfold require
  split <;> simp [*]

theorem exists_unit {p : Unit → Prop} : (∃ u, p u) ↔ p () := by
  constructor
  · rintro ⟨⟨⟩, h⟩
    exact h
  · intro h
    exact ⟨(), h⟩

def demand (x : Option α) (message : ε) : Except ε α :=
  match x with
  | some a => .ok a
  | none => .error message

@[simp] theorem demand_ok {x : Option α} {message : ε} {a : α} : demand x message = .ok a ↔ x = some a := by
  cases x <;> simp [demand]

theorem forM_ok {f : α → Except ε Unit} : xs.forM f = .ok () ↔ ∀ x ∈ xs, f x = .ok () := by
  induction xs with
  | nil => simp [pure, Except.pure]
  | cons x xs ih =>
    simp only [List.forM_eq_forM, List.forM_cons, bind_ok, List.mem_cons, forall_eq_or_imp] at ih ⊢
    constructor
    · rintro ⟨_, hx, hxs⟩
      exact ⟨hx, ih.mp hxs⟩
    · rintro ⟨hx, hxs⟩
      exact ⟨(), hx, ih.mpr hxs⟩

theorem mapM_ok_iff :
    xs.mapM f = .ok ys ↔ List.Forall₂ (fun x y ↦ f x = .ok y) xs ys := by
  induction xs generalizing ys with
  | nil => simp [pure, Except.pure, List.forall₂_nil_left_iff, eq_comm]
  | cons x xs ih =>
    simp only [List.mapM_cons, bind_ok, List.forall₂_cons_left_iff, ih, pure, Except.pure, Except.ok.injEq]
    constructor
    · rintro ⟨y, hy, zs, hzs, rfl⟩
      exact ⟨y, zs, hy, hzs, rfl⟩
    · rintro ⟨y, zs, hy, hzs, rfl⟩
      exact ⟨y, hy, zs, hzs, rfl⟩

theorem ok_of_mapM_ok (h : xs.mapM f = .ok ys) {x : α} (hx : x ∈ xs) :
    ∃ y ∈ ys, f x = .ok y := by
  have hall := mapM_ok_iff.mp h
  clear h
  induction hall with
  | nil => cases hx
  | cons hy _ ih =>
    rcases List.mem_cons.mp hx with rfl | hx
    · exact ⟨_, List.mem_cons_self, hy⟩
    · obtain ⟨y, hmem, hy⟩ := ih hx
      exact ⟨y, List.mem_cons_of_mem _ hmem, hy⟩

theorem mem_of_mapM_ok (h : xs.mapM f = .ok ys) {y : β} (hy : y ∈ ys) :
    ∃ x ∈ xs, f x = .ok y := by
  have hall := mapM_ok_iff.mp h
  clear h
  induction hall with
  | nil => cases hy
  | cons hx _ ih =>
    rcases List.mem_cons.mp hy with rfl | hy
    · exact ⟨_, List.mem_cons_self, hx⟩
    · obtain ⟨x, hmem, hx⟩ := ih hy
      exact ⟨x, List.mem_cons_of_mem _ hmem, hx⟩

theorem map_ok {x : Except ε α} {f : α → β} : x.map f = .ok b ↔ ∃ a, x = .ok a ∧ f a = b := by
  cases x <;> simp [Except.map]

theorem foldlM_ok {f : β → α → Except ε β} {I : β → Prop} {b' : β} (h : xs.foldlM f b = .ok b') (hb : I b)
    (hstep : ∀ b b', ∀ x ∈ xs, f b x = .ok b' → I b → I b') : I b' := by
  induction xs generalizing b with
  | nil =>
    simp only [List.foldlM_nil, pure, Except.pure, Except.ok.injEq] at h
    exact h ▸ hb
  | cons x xs ih =>
    rw [List.foldlM_cons, bind_ok] at h
    obtain ⟨b₁, hx, hxs⟩ := h
    apply ih hxs (hstep b b₁ x (by simp) hx hb)
    intro b b' y hy
    exact hstep b b' y (List.mem_cons_of_mem x hy)

end Noesar.Lib
