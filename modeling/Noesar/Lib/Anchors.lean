import Mathlib

namespace Noesar.Lib.Anchors

variable {α : Type} [DecidableEq α]

/-- The pieces between the places of a text, which are looked for from left to right; a place that
was found is passed over whole. -/
def splitFrom (needle : List α) : ℕ → List α → List (List α)
  | _, [] => [[]]
  | 0, c :: cs =>
    if needle <+: c :: cs then [] :: splitFrom needle (needle.length - 1) cs
    else match splitFrom needle 0 cs with
      | [] => [[c]]
      | w :: ws => (c :: w) :: ws
  | k + 1, _ :: cs => splitFrom needle k cs

def split (needle hay : List α) : List (List α) := splitFrom needle 0 hay

def replaceFirst (needle new : List α) : List α → List α
  | [] => if needle = [] then new else []
  | c :: cs => if needle <+: c :: cs then new ++ (c :: cs).drop needle.length else c :: replaceFirst needle new cs

def OccursAt (needle hay : List α) (i : ℕ) : Prop := needle <+: hay.drop i

def Overlaps (needle hay : List α) : Prop :=
  ∃ i k, 0 < k ∧ k < needle.length ∧ OccursAt needle hay i ∧ OccursAt needle hay (i + k)

def ReplacesOnce (needle new before after : List α) : Prop :=
  ∃ front back, before = front ++ needle ++ back ∧ after = front ++ new ++ back ∧
    ∀ i, OccursAt needle before i → i = front.length

variable {needle new hay : List α}

omit [DecidableEq α] in
theorem occursAt_front (front back : List α) : OccursAt needle (front ++ needle ++ back) front.length := by
  rw [OccursAt, List.append_assoc, List.drop_left]
  exact List.prefix_append needle back

theorem splitFrom_skip (k : ℕ) (hay : List α) : splitFrom needle k hay = splitFrom needle 0 (hay.drop k) := by
  induction k generalizing hay with
  | zero => rfl
  | succ k ih =>
    cases hay with
    | nil => rfl
    | cons c cs => exact ih cs

theorem length_splitFrom_pos (k : ℕ) (hay : List α) : 0 < (splitFrom needle k hay).length := by
  induction hay generalizing k with
  | nil => cases k <;> exact Nat.one_pos
  | cons c cs ih =>
    cases k with
    | zero =>
      rw [splitFrom]
      split
      · exact Nat.succ_pos _
      · split
        · exact Nat.one_pos
        · exact Nat.succ_pos _
    | succ k => exact ih k

theorem length_split_cons {c : α} {cs : List α} (h : ¬needle <+: c :: cs) :
    (split needle (c :: cs)).length = (split needle cs).length := by
  rw [split, splitFrom, if_neg h]
  have hpos := @length_splitFrom_pos α _ needle 0 cs
  cases hsplit : splitFrom needle 0 cs with
  | nil =>
    rw [hsplit] at hpos
    exact absurd hpos (Nat.lt_irrefl 0)
  | cons =>
    rw [split, hsplit]
    rfl

theorem length_split_occurs {c : α} {cs : List α} (hne : needle ≠ []) (h : needle <+: c :: cs) :
    (split needle (c :: cs)).length = (split needle ((c :: cs).drop needle.length)).length + 1 := by
  obtain ⟨d, ds, rfl⟩ := List.exists_cons_of_ne_nil hne
  rw [split, splitFrom, if_pos h, List.length_cons, splitFrom_skip]
  rfl

omit [DecidableEq α] in
theorem not_occursAt_nil (hne : needle ≠ []) (i : ℕ) : ¬OccursAt needle [] i := by
  intro h
  rw [OccursAt, List.drop_nil] at h
  exact hne (List.prefix_nil.mp h)

theorem not_occursAt (hne : needle ≠ []) (h : (split needle hay).length = 1) (i : ℕ) : ¬OccursAt needle hay i := by
  induction hay generalizing i with
  | nil => exact not_occursAt_nil hne i
  | cons c cs ih =>
    by_cases hprefix : needle <+: c :: cs
    · rw [length_split_occurs hne hprefix] at h
      have hpos := @length_splitFrom_pos α _ needle 0 ((c :: cs).drop needle.length)
      rw [split] at h
      omega
    · rw [length_split_cons hprefix] at h
      cases i with
      | zero => exact hprefix
      | succ i => exact fun hi ↦ ih h i hi

theorem split_two (hne : needle ≠ []) (new : List α) (h : (split needle hay).length = 2) :
    ∃ front back, hay = front ++ needle ++ back ∧ replaceFirst needle new hay = front ++ new ++ back ∧
      ∀ i, OccursAt needle hay i → front.length ≤ i ∧ i < front.length + needle.length := by
  induction hay with
  | nil => cases h
  | cons c cs ih =>
    by_cases hprefix : needle <+: c :: cs
    · refine ⟨[], (c :: cs).drop needle.length, ?_, ?_, ?_⟩
      · obtain ⟨back, hback⟩ := hprefix
        rw [List.nil_append, ← hback, List.drop_left]
      · rw [replaceFirst, if_pos hprefix]
        rfl
      · intro i hi
        refine ⟨Nat.zero_le i, ?_⟩
        by_contra hlate
        rw [List.length_nil, Nat.zero_add, Nat.not_lt] at hlate
        rw [length_split_occurs hne hprefix] at h
        refine not_occursAt hne (Nat.succ.inj h) (i - needle.length) ?_
        rw [OccursAt, List.drop_drop, Nat.add_sub_cancel' hlate]
        exact hi
    · rw [length_split_cons hprefix] at h
      obtain ⟨front, back, hhay, hreplaced, hplaces⟩ := ih h
      refine ⟨c :: front, back, by rw [hhay]; rfl, ?_, ?_⟩
      · rw [replaceFirst, if_neg hprefix, hreplaced]
        rfl
      · intro i hi
        cases i with
        | zero => exact absurd hi hprefix
        | succ i =>
          obtain ⟨hlow, hhigh⟩ := hplaces i hi
          rw [List.length_cons]
          omega

theorem replacesOnce_iff (hne : needle ≠ []) (h : (split needle hay).length = 2) {after : List α} :
    ReplacesOnce needle new hay after ↔ ¬Overlaps needle hay ∧ after = replaceFirst needle new hay := by
  obtain ⟨front, back, hhay, hreplaced, hplaces⟩ := split_two hne new h
  have hfirst : OccursAt needle hay front.length := hhay ▸ occursAt_front front back
  constructor
  · rintro ⟨front', back', hhay', rfl, hsingle⟩
    refine ⟨?_, ?_⟩
    · rintro ⟨i, k, hk, -, hi, hik⟩
      have hat := hsingle i hi
      have hat' := hsingle (i + k) hik
      omega
    · have hlength : front.length = front'.length := hsingle _ hfirst
      rw [hhay, List.append_assoc, List.append_assoc] at hhay'
      obtain ⟨rfl, hrest⟩ := List.append_inj hhay' hlength
      rw [hreplaced, List.append_cancel_left hrest]
  · rintro ⟨hapart, rfl⟩
    refine ⟨front, back, hhay, hreplaced, ?_⟩
    intro i hi
    by_contra hne'
    obtain ⟨hlow, hhigh⟩ := hplaces i hi
    refine hapart ⟨front.length, i - front.length, by omega, by omega, hfirst, ?_⟩
    rw [Nat.add_sub_cancel' hlow]
    exact hi

end Noesar.Lib.Anchors
