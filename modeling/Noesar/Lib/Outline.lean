import Mathlib

namespace Noesar.Lib.Outline

variable {α : Type} (inside : α → Bool)

def laid (heads bodies : List (List α)) : List α := (List.zipWith (· ++ ·) heads bodies).flatten

def Head (head : List α) : Prop := head ≠ [] ∧ ∀ x ∈ head, inside x = false

variable {inside} {heads bodies others : List (List α)}

theorem laid_cons (head body : List α) (heads bodies : List (List α)) :
    laid (head :: heads) (body :: bodies) = head ++ (body ++ laid heads bodies) := by
  simp [laid]

theorem mem_laid (hlength : heads.length = bodies.length) {body : List α} (hbody : body ∈ bodies) {x : α} (hx : x ∈ body) :
    x ∈ laid heads bodies := by
  induction heads generalizing bodies with
  | nil =>
    rw [List.length_eq_zero_iff.mp hlength.symm] at hbody
    cases hbody
  | cons head heads ih =>
    cases bodies with
    | nil => cases hbody
    | cons =>
      rw [laid_cons, List.mem_append, List.mem_append]
      rcases List.mem_cons.mp hbody with rfl | hbody
      · exact .inr (.inl hx)
      · exact .inr (.inr (ih (Nat.succ_inj.mp hlength) hbody))

theorem countP_laid (hlength : heads.length = bodies.length) (hheads : ∀ head ∈ heads, Head inside head) :
    (laid heads bodies).countP (fun x ↦ !inside x) =
      (heads.map List.length).sum + (bodies.map fun body ↦ body.countP fun x ↦ !inside x).sum := by
  induction heads generalizing bodies with
  | nil =>
    obtain rfl := List.length_eq_zero_iff.mp hlength.symm
    rfl
  | cons head heads ih =>
    cases bodies with
    | nil => cases hlength
    | cons =>
      have hhead : head.countP (fun x ↦ !inside x) = head.length := by
        rw [List.countP_eq_length]
        intro x hx
        rw [(hheads head List.mem_cons_self).2 x hx]
        rfl
      rw [laid_cons, List.countP_append, List.countP_append, hhead, ih (Nat.succ_inj.mp hlength) fun other hother ↦
        hheads other (List.mem_cons_of_mem _ hother)]
      simp only [List.map_cons, List.sum_cons]
      omega

theorem takeWhile_laid (hheads : ∀ head ∈ heads, Head inside head) : (laid heads bodies).takeWhile inside = [] := by
  cases heads with
  | nil => rfl
  | cons head =>
    cases bodies with
    | nil => rfl
    | cons =>
      obtain ⟨hne, hout⟩ := hheads head List.mem_cons_self
      obtain ⟨x, head, rfl⟩ := List.exists_cons_of_ne_nil hne
      rw [laid_cons, List.cons_append, List.takeWhile_cons, hout x List.mem_cons_self]
      rfl

theorem laid_injective_inside (hlength : heads.length = bodies.length) (hothers : heads.length = others.length)
    (hheads : ∀ head ∈ heads, Head inside head) (hbodies : ∀ body ∈ bodies, ∀ x ∈ body, inside x = true)
    (hinside : ∀ body ∈ others, ∀ x ∈ body, inside x = true) (h : laid heads bodies = laid heads others) : bodies = others := by
  induction heads generalizing bodies others with
  | nil =>
    rw [List.length_eq_zero_iff.mp hlength.symm, List.length_eq_zero_iff.mp hothers.symm]
  | cons head heads ih =>
    cases bodies with
    | nil => cases hlength
    | cons body =>
      cases others with
      | nil => cases hothers
      | cons other =>
        have hrest : ∀ head ∈ heads, Head inside head := fun head hhead ↦ hheads head (List.mem_cons_of_mem _ hhead)
        rw [laid_cons, laid_cons] at h
        have h := List.append_cancel_left h
        have htake := congrArg (List.takeWhile inside) h
        rw [List.takeWhile_append_of_pos (hbodies body List.mem_cons_self), takeWhile_laid hrest,
          List.takeWhile_append_of_pos (hinside other List.mem_cons_self), takeWhile_laid hrest, List.append_nil, List.append_nil] at htake
        subst htake
        rw [ih (Nat.succ_inj.mp hlength) (Nat.succ_inj.mp hothers) hrest
          (fun b hb ↦ hbodies b (List.mem_cons_of_mem _ hb)) (fun b hb ↦ hinside b (List.mem_cons_of_mem _ hb))
          (List.append_cancel_left h)]

theorem laid_injective (hlength : heads.length = bodies.length) (hothers : heads.length = others.length)
    (hheads : ∀ head ∈ heads, Head inside head) (hbodies : ∀ body ∈ bodies, ∀ x ∈ body, inside x = true)
    (h : laid heads bodies = laid heads others) : bodies = others := by
  refine laid_injective_inside hlength hothers hheads hbodies ?_ h
  have hcount := congrArg (List.countP fun x ↦ !inside x) h
  have hnone : (bodies.map fun body ↦ body.countP fun x ↦ !inside x).sum = 0 := by
    rw [List.sum_eq_zero_iff]
    intro n hn
    obtain ⟨body, hbody, rfl⟩ := List.mem_map.mp hn
    rw [List.countP_eq_zero]
    intro x hx
    rw [hbodies body hbody x hx]
    exact Bool.false_ne_true
  rw [countP_laid hlength hheads, countP_laid hothers hheads, hnone] at hcount
  have hother : (others.map fun body ↦ body.countP fun x ↦ !inside x).sum = 0 := by omega
  intro body hbody x hx
  have hzero := List.sum_eq_zero_iff.mp hother _ (List.mem_map_of_mem hbody)
  rw [List.countP_eq_zero] at hzero
  simpa using hzero x hx

end Noesar.Lib.Outline
