import Mathlib
import Noesar.Lib.Lists

namespace Noesar.Lib

variable {α β : Type}

/-- Every value is held at most once, and what is held was drawn before. -/
structure Supplied (draw : ℕ → α) (n : ℕ) (weight : α → ℕ) : Prop where
  once : ∀ x, weight x ≤ 1
  drawn : ∀ x, 0 < weight x → ∃ m < n, draw m = x

/-- What is held after was held before, or it was drawn in between. -/
structure Grows (draw : ℕ → α) (n n' : ℕ) (before after : α → ℕ) : Prop where
  later : n ≤ n'
  added : ∀ x, after x ≤ before x ∨ ∃ m, n ≤ m ∧ m < n' ∧ draw m = x ∧ after x ≤ before x + 1

section

variable {draw : ℕ → α} {n n' : ℕ} {before after : α → ℕ}

theorem Grows.of_le (hlater : n ≤ n') (h : ∀ x, after x ≤ before x) : Grows draw n n' before after :=
  ⟨hlater, fun x ↦ .inl (h x)⟩

theorem Grows.of_drawn [DecidableEq α] {m : ℕ} (hfrom : n ≤ m) (hto : m < n')
    (h : ∀ x, after x ≤ before x + if draw m = x then 1 else 0) : Grows draw n n' before after := by
  refine ⟨by omega, ?_⟩
  intro x
  have hx := h x
  by_cases hm : draw m = x
  · rw [if_pos hm] at hx
    exact .inr ⟨m, hfrom, hto, hm, hx⟩
  · rw [if_neg hm] at hx
    exact .inl hx

theorem Grows.of_next [DecidableEq α] (hlater : n ≤ n')
    (h : ∀ x, after x ≤ before x + if n < n' ∧ draw n = x then 1 else 0) : Grows draw n n' before after := by
  by_cases hn : n < n'
  · refine .of_drawn le_rfl hn ?_
    intro x
    have hx := h x
    simp only [hn, true_and] at hx
    exact hx
  · refine .of_le hlater ?_
    intro x
    have hx := h x
    simp only [hn, false_and, if_false, Nat.add_zero] at hx
    exact hx

theorem Supplied.grows (h : Supplied draw n before) (hinj : Function.Injective draw) (hg : Grows draw n n' before after) :
    Supplied draw n' after := by
  constructor
  · intro x
    rcases hg.added x with hle | ⟨m, hfrom, _, hm, hle⟩
    · exact hle.trans (h.once x)
    · -- A value that is drawn now was not held.
      have hzero : before x = 0 := by
        by_contra hpos
        obtain ⟨k, hk, hx⟩ := h.drawn x (Nat.pos_of_ne_zero hpos)
        have hsame : k = m := hinj (hx.trans hm.symm)
        omega
      omega
  · intro x hpos
    rcases hg.added x with hle | ⟨m, _, hto, hm, _⟩
    · obtain ⟨k, hk, hx⟩ := h.drawn x (lt_of_lt_of_le hpos hle)
      exact ⟨k, lt_of_lt_of_le hk hg.later, hx⟩
    · exact ⟨m, hto, hm⟩

theorem Supplied.mono (h : Supplied draw n before) (hlater : n ≤ n') (hle : ∀ x, after x ≤ before x) :
    Supplied draw n' after := by
  constructor
  · intro x
    exact (hle x).trans (h.once x)
  · intro x hpos
    obtain ⟨m, hm, hx⟩ := h.drawn x (hpos.trans_le (hle x))
    exact ⟨m, hm.trans_le hlater, hx⟩

end

/-! ### Weights of lists -/

def weigh (c : α → ℕ) (xs : List α) : ℕ := (xs.map c).sum

section

variable {c : α → ℕ} {p : α → Bool} {f : α → α} {xs ys : List α}

@[simp] theorem weigh_nil : weigh c [] = 0 := rfl

@[simp] theorem weigh_cons (x : α) : weigh c (x :: xs) = c x + weigh c xs := by simp [weigh]

@[simp] theorem weigh_append : weigh c (xs ++ ys) = weigh c xs + weigh c ys := by simp [weigh]

theorem weigh_sublist (h : xs.Sublist ys) : weigh c xs ≤ weigh c ys := by
  induction h with
  | slnil => exact le_rfl
  | cons =>
    rw [weigh_cons]
    omega
  | cons_cons =>
    rw [weigh_cons, weigh_cons]
    omega

theorem weigh_perm (h : xs.Perm ys) : weigh c xs = weigh c ys := (h.map c).sum_eq

theorem weigh_subperm (h : xs.Subperm ys) : weigh c xs ≤ weigh c ys := by
  obtain ⟨zs, hperm, hsublist⟩ := h
  rw [← weigh_perm hperm]
  exact weigh_sublist hsublist

theorem weigh_filter_le (keep : α → Bool) : weigh c (xs.filter keep) ≤ weigh c xs := weigh_sublist List.filter_sublist

theorem weigh_mem {x : α} (h : x ∈ xs) : c x ≤ weigh c xs := by
  have hle := weigh_sublist (c := c) (List.singleton_sublist.mpr h)
  simpa using hle

theorem weigh_filter_add {x : α} {keep : α → Bool} (h : x ∈ xs) (hx : keep x = false) :
    weigh c (xs.filter keep) + c x ≤ weigh c xs := by
  induction xs with
  | nil => cases h
  | cons y ys ih =>
    rcases List.mem_cons.mp h with rfl | h
    · have hle : weigh c (ys.filter keep) ≤ weigh c ys := weigh_filter_le keep
      rw [List.filter_cons_of_neg (by simp [hx]), weigh_cons]
      omega
    · have hle := ih h
      by_cases hy : keep y = true
      · rw [List.filter_cons_of_pos hy, weigh_cons, weigh_cons]
        omega
      · rw [List.filter_cons_of_neg hy, weigh_cons]
        omega

theorem weigh_set {x y : α} {i : ℕ} (h : xs[i]? = some x) : weigh c (xs.set i y) + c x = weigh c xs + c y := by
  induction xs generalizing i with
  | nil => cases h
  | cons z zs ih =>
    cases i with
    | zero =>
      obtain rfl := Option.some.inj h
      simp only [List.set_cons_zero, weigh_cons]
      omega
    | succ =>
      have hset := ih h
      simp only [List.set_cons_succ, weigh_cons]
      omega

theorem weigh_map_le (h : ∀ x, c (f x) ≤ c x) : weigh c (xs.map f) ≤ weigh c xs := by
  induction xs with
  | nil => simp
  | cons x =>
    have hx := h x
    simp only [List.map_cons, weigh_cons]
    omega

theorem weigh_le_of_forall₂ {d : β → ℕ} {zs : List β} (h : List.Forall₂ (fun x z ↦ c x ≤ d z) xs zs) :
    weigh c xs ≤ weigh d zs := by
  induction h with
  | nil => simp
  | cons =>
    simp only [weigh_cons]
    omega

theorem weigh_modifyFirst {x : α} (h : xs.find? p = some x) :
    weigh c (modifyFirst p f xs) + c x = weigh c xs + c (f x) := by
  obtain ⟨hnone, _⟩ | ⟨before, y, after, hxs, hfind, _, hnew⟩ := modifyFirst_cases p f xs
  · rw [hnone] at h
    cases h
  · rw [hfind, Option.some.injEq] at h
    subst h
    rw [hnew, hxs]
    simp only [weigh_append, weigh_cons]
    omega

theorem weigh_modifyFirst_le (h : ∀ x, c (f x) ≤ c x) : weigh c (modifyFirst p f xs) ≤ weigh c xs := by
  cases hfind : xs.find? p with
  | none => exact (congrArg (weigh c) (modifyFirst_of_find?_none hfind)).le
  | some x =>
    have hsum := weigh_modifyFirst (c := c) (f := f) hfind
    have hle := h x
    omega

end

end Noesar.Lib

namespace Noesar.Lib

variable {α δ ω : Type}

/-- What is there after a step was there before, as `same` has it, or it is new, with a digest that was drawn in the
step. -/
structure Issue (digest : α → δ) (draw : ℕ → δ) (same : α → α → Prop) (new : α → Prop) (n n' : ℕ) (before after : List α) :
    Prop where
  later : n ≤ n'
  kept : ∀ x ∈ after, (∃ y ∈ before, digest y = digest x ∧ same y x) ∨ new x
  drawn : ∀ x, new x → ∃ m, n ≤ m ∧ m < n' ∧ draw m = digest x

structure Drawn (digest : α → δ) (draw : ℕ → δ) (owner : α → ω) (n : ℕ) (xs : List α) : Prop where
  drawn : ∀ x ∈ xs, ∃ m < n, draw m = digest x
  owner : ∀ x ∈ xs, ∀ y ∈ xs, digest x = digest y → owner x = owner y

/-- A digest was drawn, and `keep` holds of all that have it. -/
structure Only (digest : α → δ) (draw : ℕ → δ) (d : δ) (keep : α → Prop) (n : ℕ) (xs : List α) : Prop where
  drawn : ∃ m < n, draw m = d
  all : ∀ x ∈ xs, digest x = d → keep x

section

variable {digest : α → δ} {draw : ℕ → δ} {same : α → α → Prop} {new : α → Prop} {n n' : ℕ} {before after : List α}

theorem Issue.of_kept (hlater : n ≤ n') (h : ∀ x ∈ after, ∃ y ∈ before, digest y = digest x ∧ same y x) :
    Issue digest draw same (fun _ ↦ False) n n' before after := by
  refine ⟨hlater, fun x hx ↦ .inl (h x hx), ?_⟩
  intro x hx
  cases hx

theorem Issue.of_next {x : α} (hlater : n < n') (hx : digest x = draw n)
    (h : ∀ y ∈ after, (∃ z ∈ before, digest z = digest y ∧ same z y) ∨ y = x) :
    Issue digest draw same (· = x) n n' before after := by
  refine ⟨hlater.le, h, ?_⟩
  rintro y rfl
  exact ⟨n, le_rfl, hlater, hx.symm⟩

theorem Issue.old (hinj : Function.Injective draw) (h : Issue digest draw same new n n' before after) {x : α}
    (hx : x ∈ after) {m : ℕ} (hm : m < n) (hdigest : draw m = digest x) : ∃ y ∈ before, digest y = digest x ∧ same y x := by
  rcases h.kept x hx with hold | hnew
  · exact hold
  · obtain ⟨k, hk, _, hdraw⟩ := h.drawn x hnew
    have hsame : m = k := hinj (hdigest.trans hdraw.symm)
    omega

theorem Drawn.step {owner : α → ω} (hinj : Function.Injective draw) (hbefore : Drawn digest draw owner n before)
    (h : Issue digest draw same new n n' before after) (hsame : ∀ y x, same y x → owner y = owner x)
    (hnew : ∀ x y, new x → new y → digest x = digest y → owner x = owner y) : Drawn digest draw owner n' after := by
  have hlater := h.later
  have hapart {x y : α} (hx : ∃ z ∈ before, digest z = digest x ∧ same z x) (hy : new y) : digest x ≠ digest y := by
    obtain ⟨z, hz, hdigest, _⟩ := hx
    obtain ⟨m, hm, hdraw⟩ := hbefore.drawn z hz
    obtain ⟨k, hk, _, hdraw'⟩ := h.drawn y hy
    intro heq
    have hdrawn : m = k := hinj ((hdraw.trans (hdigest.trans heq)).trans hdraw'.symm)
    omega
  constructor
  · intro x hx
    rcases h.kept x hx with ⟨y, hy, hdigest, _⟩ | hnew
    · obtain ⟨m, hm, hdraw⟩ := hbefore.drawn y hy
      exact ⟨m, by omega, hdraw.trans hdigest⟩
    · obtain ⟨m, _, hm, hdraw⟩ := h.drawn x hnew
      exact ⟨m, hm, hdraw⟩
  · intro x hx y hy heq
    rcases h.kept x hx with hxold | hxnew
    · rcases h.kept y hy with hyold | hynew
      · obtain ⟨x', hx', hxdigest, hxsame⟩ := hxold
        obtain ⟨y', hy', hydigest, hysame⟩ := hyold
        rw [← hsame x' x hxsame, ← hsame y' y hysame]
        exact hbefore.owner x' hx' y' hy' ((hxdigest.trans heq).trans hydigest.symm)
      · exact absurd heq (hapart hxold hynew)
    · rcases h.kept y hy with hyold | hynew
      · exact absurd heq.symm (hapart hyold hxnew)
      · exact hnew x y hxnew hynew heq

theorem Drawn.only {owner : α → ω} (h : Drawn digest draw owner n before) {x : α} (hx : x ∈ before) :
    Only digest draw (digest x) (owner · = owner x) n before :=
  ⟨h.drawn x hx, fun y hy heq ↦ h.owner y hy x hx heq⟩

theorem Only.mono {d : δ} {keep keep' : α → Prop} (h : Only digest draw d keep n before)
    (hkeep : ∀ x ∈ before, digest x = d → keep x → keep' x) : Only digest draw d keep' n before :=
  ⟨h.drawn, fun x hx hd ↦ hkeep x hx hd (h.all x hx hd)⟩

theorem Only.step {d : δ} {keep : α → Prop} (hinj : Function.Injective draw) (honly : Only digest draw d keep n before)
    (h : Issue digest draw same new n n' before after) (hkeep : ∀ y x, same y x → keep y → keep x) :
    Only digest draw d keep n' after := by
  obtain ⟨m, hm, hdraw⟩ := honly.drawn
  refine ⟨⟨m, hm.trans_le h.later, hdraw⟩, ?_⟩
  intro x hx hd
  obtain ⟨y, hy, hdigest, hsame⟩ := h.old hinj hx hm (hdraw.trans hd.symm)
  exact hkeep y x hsame (honly.all y hy (hdigest.trans hd))

end

end Noesar.Lib
