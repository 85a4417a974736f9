import Mathlib
import Noesar.Lib.InsertionMap
import Noesar.Lib.Run

namespace Noesar.Lib

/-- Nonces that have been used: each until some time, or all of them for good. -/
inductive NonceStore (κ : Type)
  | mapping (times : InsertionMap κ ℤ)
  | set (nonces : Finset κ)

/-- What a check that is passed says of the thing that passed it. -/
structure Accepted (κ β : Type) where
  nonce : κ
  expiresAt : ℤ
  body : β

namespace NonceStore

variable {κ : Type}

def Forgets : NonceStore κ → Prop
  | mapping _ => True
  | set _ => False

variable [DecidableEq κ]

def has : NonceStore κ → κ → Bool
  | mapping times, nonce => times.has nonce
  | set nonces, nonce => nonce ∈ nonces

def Holds (nonce : κ) (now : ℤ) : NonceStore κ → Prop
  | mapping times => ∃ t, times.get nonce = some t ∧ now ≤ t
  | set nonces => nonce ∈ nonces

def prune (now : ℤ) : NonceStore κ → NonceStore κ
  | mapping times => mapping (times.filter fun nonce ↦ (times.get nonce).all fun t ↦ now ≤ t)
  | set nonces => set nonces

def use (nonce : κ) (t : ℤ) : NonceStore κ → NonceStore κ
  | mapping times => mapping (times.set nonce t)
  | set nonces => set (insert nonce nonces)

section Operations

variable {s : NonceStore κ} {nonce other : κ} {now later t : ℤ}

theorem Holds.mono (h : s.Holds nonce later) (hle : now ≤ later) : s.Holds nonce now := by
  cases s with
  | mapping =>
    obtain ⟨t, ht, hlater⟩ := h
    exact ⟨t, ht, hle.trans hlater⟩
  | set => exact h

theorem get_prune (times : InsertionMap κ ℤ) :
    (times.filter fun nonce ↦ (times.get nonce).all fun t ↦ now ≤ t).get nonce = some t ↔
      times.get nonce = some t ∧ now ≤ t := by
  rw [InsertionMap.get_filter_all, decide_eq_true_eq]

theorem has_prune : (s.prune now).has nonce = true ↔ s.Holds nonce now := by
  cases s with
  | mapping times =>
    rw [prune, has, InsertionMap.has_iff]
    exact exists_congr fun t ↦ get_prune times
  | set => exact decide_eq_true_iff

theorem holds_prune (hle : now ≤ later) : (s.prune now).Holds nonce later ↔ s.Holds nonce later := by
  cases s with
  | mapping =>
    refine exists_congr fun t ↦ ?_
    rw [get_prune]
    constructor
    · rintro ⟨⟨hget, -⟩, hlater⟩
      exact ⟨hget, hlater⟩
    · rintro ⟨hget, hlater⟩
      exact ⟨⟨hget, hle.trans hlater⟩, hlater⟩
  | set => exact Iff.rfl

theorem holds_use : (s.use nonce t).Holds other later ↔
    (nonce = other ∧ (s.Forgets → later ≤ t)) ∨ (nonce ≠ other ∧ s.Holds other later) := by
  cases s with
  | mapping =>
    simp only [use, Holds, InsertionMap.get_set, Forgets, true_imp_iff]
    by_cases heq : nonce = other
    · simp [heq]
    · simp [heq]
  | set =>
    simp only [use, Holds, Forgets, false_imp_iff, and_true, Finset.mem_insert]
    by_cases heq : nonce = other
    · simp [heq]
    · simp [heq, Ne.symm heq]

@[simp] theorem forgets_prune : (s.prune now).Forgets ↔ s.Forgets := by
  cases s <;> rfl

@[simp] theorem forgets_use : (s.use nonce t).Forgets ↔ s.Forgets := by
  cases s <;> rfl

theorem has_of_prune (h : (s.prune now).has nonce = true) : s.has nonce = true := by
  rw [has_prune] at h
  cases s with
  | mapping =>
    obtain ⟨t, ht, _⟩ := h
    exact (InsertionMap.has_iff _ _).mpr ⟨t, ht⟩
  | set => exact decide_eq_true h

end Operations

section Runs

variable {ι γ ε β : Type} (time : ι ⊕ γ → ℤ) (examine : NonceStore κ → γ → Except ε (Accepted κ β)) (retention : ℤ)

/-- The nonce of what is accepted is used up, and kept in mind for some time after it has expired. -/
def settle (s : NonceStore κ) : Except ε (Accepted κ β) → NonceStore κ
  | .error _ => s
  | .ok a => s.use a.nonce (a.expiresAt + retention)

def present (s : NonceStore κ) (c : γ) : Except ε (Accepted κ β) × NonceStore κ :=
  let pruned := s.prune (time (.inr c))
  let result := examine pruned c
  (result, pruned.settle retention result)

def step (s : NonceStore κ) : ι ⊕ γ → NonceStore κ
  | .inl _ => s
  | .inr c => (present time examine retention s c).2

def acceptedBy (s : NonceStore κ) : ι ⊕ γ → List (Accepted κ β)
  | .inl _ => []
  | .inr c => (present time examine retention s c).1.toOption.toList

def accepted : NonceStore κ → List (ι ⊕ γ) → List (Accepted κ β)
  | _, [] => []
  | s, e :: es => acceptedBy time examine retention s e ++ accepted (step time examine retention s e) es

theorem accepted_inl (s : NonceStore κ) (i : ι) (es : List (ι ⊕ γ)) :
    accepted time examine retention s (.inl i :: es) = accepted time examine retention s es := rfl

theorem accepted_inr (s : NonceStore κ) (c : γ) (es : List (ι ⊕ γ)) :
    accepted time examine retention s (.inr c :: es) = (present time examine retention s c).1.toOption.toList ++
      accepted time examine retention (present time examine retention s c).2 es := rfl

def Guarded (Correct : γ → Accepted κ β → Prop) : Prop :=
  ∀ s c a, examine s c = .ok a ↔ Correct c a ∧ s.has a.nonce = false

variable {time examine retention} {Correct : γ → Accepted κ β → Prop} {s₀ : NonceStore κ} {es : List (ι ⊕ γ)}

theorem present_ok (hguarded : Guarded examine Correct) {s : NonceStore κ} {c : γ} {a : Accepted κ β} :
    (present time examine retention s c).1 = .ok a ↔ Correct c a ∧ ¬s.Holds a.nonce (time (.inr c)) := by
  rw [present, hguarded, ← Bool.not_eq_true, has_prune]

theorem present_store (s : NonceStore κ) (c : γ) : (present time examine retention s c).2 =
    (s.prune (time (.inr c))).settle retention (present time examine retention s c).1 := rfl

theorem forgets_step (s : NonceStore κ) (e : ι ⊕ γ) : (step time examine retention s e).Forgets ↔ s.Forgets := by
  cases e with
  | inl => exact Iff.rfl
  | inr c =>
    rw [step, present]
    cases examine (s.prune (time (.inr c))) c with
    | error => exact forgets_prune
    | ok => exact forgets_use.trans forgets_prune

theorem holds_step (hguarded : Guarded examine Correct) {s : NonceStore κ} {e : ι ⊕ γ} {later : ℤ}
    (hle : time e ≤ later) (nonce : κ) :
    (step time examine retention s e).Holds nonce later ↔ s.Holds nonce later ∨
      ∃ a ∈ acceptedBy time examine retention s e, a.nonce = nonce ∧ (s.Forgets → later ≤ a.expiresAt + retention) := by
  cases e with
  | inl => simp [step, acceptedBy]
  | inr c =>
    cases hresult : (present time examine retention s c).1 with
    | error e =>
      have hexamine : examine (s.prune (time (.inr c))) c = .error e := hresult
      rw [step, acceptedBy, hresult, present, hexamine]
      change (s.prune _).Holds nonce later ↔ _
      rw [holds_prune hle]
      simp [Except.toOption]
    | ok a =>
      have hexamine : examine (s.prune (time (.inr c))) c = .ok a := hresult
      have hfree := ((present_ok hguarded).mp hresult).2
      rw [step, acceptedBy, hresult, present, hexamine]
      change ((s.prune _).use a.nonce _).Holds nonce later ↔ _
      rw [holds_use, holds_prune hle, forgets_prune]
      simp only [Except.toOption, Option.toList_some, List.mem_singleton, exists_eq_left]
      constructor
      · rintro (hnew | ⟨_, hold⟩)
        · exact .inr hnew
        · exact .inl hold
      · rintro (hold | hnew)
        · refine .inr ⟨?_, hold⟩
          rintro rfl
          exact hfree (hold.mono hle)
        · exact .inl hnew

theorem holds_after (hguarded : Guarded examine Correct) (hclock : es.Pairwise fun d e ↦ time d ≤ time e) {later : ℤ}
    (hlater : ∀ e ∈ es, time e ≤ later) (nonce : κ) :
    (Run.after (step time examine retention) s₀ es).Holds nonce later ↔ s₀.Holds nonce later ∨
      ∃ a ∈ accepted time examine retention s₀ es, a.nonce = nonce ∧
        (s₀.Forgets → later ≤ a.expiresAt + retention) := by
  induction es generalizing s₀ with
  | nil => simp [accepted]
  | cons e es ih =>
    obtain ⟨_, htail⟩ := List.pairwise_cons.mp hclock
    rw [Run.after_cons, ih htail fun d hd ↦ hlater d (List.mem_cons_of_mem e hd),
      holds_step hguarded (hlater e List.mem_cons_self), forgets_step, accepted]
    simp only [List.mem_append, or_and_right, exists_or, or_assoc]

/-- What is known of a presentation after a run: it is accepted exactly when it is correct and its nonce is free, which
is so once all that was accepted with the nonce has been forgotten; it then expires later than all of that. Where it is
refused, no nonce is added. -/
structure SingleUse (time : ι ⊕ γ → ℤ) (examine : NonceStore κ → γ → Except ε (Accepted κ β)) (retention : ℤ)
    (Correct : γ → Accepted κ β → Prop) (s₀ : NonceStore κ) (es : List (ι ⊕ γ)) (c : γ) : Prop where
  accepts : ∀ a, (present time examine retention (Run.after (step time examine retention) s₀ es) c).1 = .ok a ↔
    Correct c a ∧ ¬s₀.Holds a.nonce (time (.inr c)) ∧ ∀ b ∈ accepted time examine retention s₀ es, b.nonce = a.nonce →
      s₀.Forgets ∧ b.expiresAt + retention < time (.inr c)
  later : ∀ a, (present time examine retention (Run.after (step time examine retention) s₀ es) c).1 = .ok a →
    ∀ b ∈ accepted time examine retention s₀ es, b.nonce = a.nonce → b.expiresAt < a.expiresAt
  refuses : ∀ e, (present time examine retention (Run.after (step time examine retention) s₀ es) c).1 = .error e →
    ∀ nonce, (Run.after (step time examine retention) s₀ (es ++ [Sum.inr c])).has nonce = true →
      (Run.after (step time examine retention) s₀ es).has nonce = true

theorem singleUse (hguarded : Guarded examine Correct) {c : γ}
    (hclock : (es ++ [Sum.inr c]).Pairwise fun d e ↦ time d ≤ time e)
    (hexpiry : ∀ a, Correct c a → time (.inr c) ≤ a.expiresAt + retention) :
    SingleUse time examine retention Correct s₀ es c := by
  obtain ⟨hbefore, _, hlast⟩ := List.pairwise_append.mp hclock
  have hlater : ∀ e ∈ es, time e ≤ time (.inr c) := fun e he ↦ hlast e he _ List.mem_cons_self
  have haccepts (a : Accepted κ β) :
      (present time examine retention (Run.after (step time examine retention) s₀ es) c).1 = .ok a ↔
      Correct c a ∧ ¬s₀.Holds a.nonce (time (.inr c)) ∧ ∀ b ∈ accepted time examine retention s₀ es, b.nonce = a.nonce →
        s₀.Forgets ∧ b.expiresAt + retention < time (.inr c) := by
    rw [present_ok hguarded, holds_after hguarded hbefore hlater]
    simp only [not_or, not_exists, not_and, Classical.not_imp, not_le]
  refine ⟨haccepts, ?_, ?_⟩
  · intro a ha b hb hnonce
    obtain ⟨hcorrect, _, hover⟩ := (haccepts a).mp ha
    have hexpired := (hover b hb hnonce).2
    have hunexpired := hexpiry a hcorrect
    omega
  · intro e he nonce hhas
    have hexamine : examine ((Run.after (step time examine retention) s₀ es).prune (time (.inr c))) c = .error e := he
    rw [Run.after_snoc, step, present, hexamine] at hhas
    exact has_of_prune hhas

end Runs

end NonceStore

end Noesar.Lib
