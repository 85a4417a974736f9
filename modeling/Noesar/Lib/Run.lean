import Mathlib

namespace Noesar.Lib.Run

variable {σ κ : Type} (step : σ → κ → σ)

def after (s : σ) (cs : List κ) : σ := cs.foldl step s

@[simp] theorem after_nil (s : σ) : after step s [] = s := rfl

@[simp] theorem after_cons (s : σ) (c : κ) (cs : List κ) :
    after step s (c :: cs) = after step (step s c) cs := rfl

theorem after_append (s : σ) (cs ds : List κ) :
    after step s (cs ++ ds) = after step (after step s cs) ds := List.foldl_append

theorem after_snoc (s : σ) (cs : List κ) (c : κ) :
    after step s (cs ++ [c]) = step (after step s cs) c := by simp [after]

/-- Every step of the run meets `C`, a condition on the state before the step
and the command. -/
def Along (C : σ → κ → Prop) : σ → List κ → Prop
  | _, [] => True
  | s, c :: cs => C s c ∧ Along C (step s c) cs

variable {step} {C : σ → κ → Prop}

instance Along.decidable [∀ s c, Decidable (C s c)] : ∀ (s : σ) (cs : List κ), Decidable (Along step C s cs)
  | _, [] => .isTrue trivial
  | s, c :: cs =>
    let _ := Along.decidable (step s c) cs
    inferInstanceAs (Decidable (C s c ∧ Along step C (step s c) cs))

variable {s : σ} {cs : List κ} {D : σ → κ → Prop} {I : σ → Prop}

theorem Along.append {ds : List κ} :
    Along step C s (cs ++ ds) ↔ Along step C s cs ∧ Along step C (after step s cs) ds := by
  induction cs generalizing s with
  | nil => simp [Along]
  | cons c cs ih => simp [Along, ih, and_assoc]

theorem Along.mono (h : ∀ s c, C s c → D s c) (hc : Along step C s cs) : Along step D s cs := by
  induction cs generalizing s with
  | nil => trivial
  | cons c cs ih => exact ⟨h _ _ hc.1, ih hc.2⟩

theorem Along.and (hc : Along step C s cs) (hd : Along step D s cs) : Along step (fun s c ↦ C s c ∧ D s c) s cs := by
  induction cs generalizing s with
  | nil => trivial
  | cons c cs ih => exact ⟨⟨hc.1, hd.1⟩, ih hc.2 hd.2⟩

theorem Along.of_forall (h : ∀ s c, C s c) (s : σ) (cs : List κ) : Along step C s cs := by
  induction cs generalizing s with
  | nil => trivial
  | cons c cs ih => exact ⟨h _ _, ih _⟩

theorem Along.of_mem {P : κ → Prop} (h : ∀ c ∈ cs, P c) : Along step (fun _ c ↦ P c) s cs := by
  induction cs generalizing s with
  | nil => trivial
  | cons c cs ih => exact ⟨h c List.mem_cons_self, ih fun d hd ↦ h d (List.mem_cons_of_mem c hd)⟩

theorem Along.invariant {I : σ → Prop} (hstep : ∀ s c, I s → C s c → I (step s c))
    {s : σ} {cs : List κ} (hc : Along step C s cs) (hs : I s) : I (after step s cs) := by
  induction cs generalizing s with
  | nil => exact hs
  | cons c cs ih => exact ih hc.2 (hstep _ _ hs hc.1)

theorem Along.imp (hstep : ∀ s c, I s → C s c → I (step s c) ∧ D s c) (hc : Along step C s cs) (hs : I s) :
    Along step D s cs := by
  induction cs generalizing s with
  | nil => trivial
  | cons c cs ih =>
    obtain ⟨hnext, hd⟩ := hstep s c hs hc.1
    exact ⟨hd, ih hc.2 hnext⟩

theorem Along.iff_forall_take {P : σ → Prop} (hstep : ∀ s c, I s → C s c → I (step s c)) (hP : ∀ s, I s → P s)
    (hback : ∀ s c, I s → P (step s c) → C s c) (hs : I s) (cs : List κ) :
    Along step C s cs ↔ ∀ n, P (after step s (cs.take n)) := by
  induction cs generalizing s with
  | nil => simp [Along, hP s hs]
  | cons c cs ih =>
    constructor
    · intro h n
      cases n with
      | zero => exact hP s hs
      | succ n => exact (ih (hstep s c hs h.1)).mp h.2 n
    · intro h
      have hnext : P (step s c) := by simpa using h 1
      have hc := hback s c hs hnext
      exact ⟨hc, (ih (hstep s c hs hc)).mpr fun n ↦ h (n + 1)⟩

theorem invariant {I : σ → Prop} (hstep : ∀ s c, I s → I (step s c)) {s : σ} (hs : I s)
    (cs : List κ) : I (after step s cs) :=
  (Along.of_forall (C := fun _ _ ↦ True) (fun _ _ ↦ trivial) s cs).invariant
    (fun s c h _ ↦ hstep s c h) hs

variable (step) in
/-- How many steps of the run are `good`. -/
def count (good : σ → κ → Bool) : σ → List κ → ℕ
  | _, [] => 0
  | s, c :: cs => (if good s c then 1 else 0) + count good (step s c) cs

variable (step) in
theorem count_append (good : σ → κ → Bool) (s : σ) (cs ds : List κ) :
    count step good s (cs ++ ds) = count step good s cs + count step good (after step s cs) ds := by
  induction cs generalizing s with
  | nil => simp [count]
  | cons c cs ih => simp [count, ih, add_assoc]

theorem Along.count_add_le {good : σ → κ → Bool} (potential : σ → ℕ∞)
    (hstep : ∀ s c, I s → C s c → I (step s c) ∧ (if good s c then 1 else 0) + potential (step s c) ≤ potential s)
    (hc : Along step C s cs) (hs : I s) :
    count step good s cs + potential (after step s cs) ≤ potential s := by
  induction cs generalizing s with
  | nil => simp [count]
  | cons c cs ih =>
    obtain ⟨hs', hp⟩ := hstep s c hs hc.1
    refine le_trans ?_ hp
    have hrest := ih hc.2 hs'
    simp only [count, after_cons]
    split
    · simpa [add_assoc] using hrest
    · simpa using hrest

theorem Along.count_le_one {good : σ → κ → Bool} (done : σ → Bool)
    (hkeep : ∀ s c, C s c → done s = true → done (step s c) = true)
    (hgood : ∀ s c, C s c → good s c = true → done s = false ∧ done (step s c) = true) (hc : Along step C s cs) :
    count step good s cs ≤ 1 := by
  have hbound : (count step good s cs : ℕ∞) + (if done (after step s cs) then 0 else 1) ≤ if done s then 0 else 1 := by
    refine Along.count_add_le (I := fun _ ↦ True) (fun s ↦ if done s then 0 else 1) ?_ hc trivial
    intro s c _ hC
    refine ⟨trivial, ?_⟩
    cases hg : good s c with
    | true =>
      obtain ⟨hbefore, hafter⟩ := hgood s c hC hg
      simp [hbefore, hafter]
    | false =>
      cases hd : done s with
      | true => simp [hkeep s c hC hd]
      | false =>
        cases hd' : done (step s c) with
        | true => simp
        | false => simp
  have hone : (count step good s cs : ℕ∞) ≤ 1 := by
    refine le_trans (le_trans le_self_add hbound) ?_
    split
    · exact zero_le_one
    · exact le_rfl
  exact_mod_cast hone

end Noesar.Lib.Run

namespace Noesar.Lib

variable {τ α β : Type}

def loop (turn : ℕ → τ → α → β × τ) : ℕ → τ → List α → List β × τ
  | _, t, [] => ([], t)
  | position, t, x :: xs =>
    let first := turn position t x
    let rest := loop turn (position + 1) first.2 xs
    (first.1 :: rest.1, rest.2)

variable {turn : ℕ → τ → α → β × τ}

theorem loop_cons (position : ℕ) (t : τ) (x : α) (xs : List α) :
    loop turn position t (x :: xs) =
      ((turn position t x).1 :: (loop turn (position + 1) (turn position t x).2 xs).1,
        (loop turn (position + 1) (turn position t x).2 xs).2) := rfl

theorem loop_length (position : ℕ) (t : τ) (xs : List α) : (loop turn position t xs).1.length = xs.length := by
  induction xs generalizing position t with
  | nil => rfl
  | cons x xs ih => rw [loop_cons, List.length_cons, List.length_cons, ih]

theorem loop_map {γ : Type} (f : γ → α) (position : ℕ) (t : τ) (xs : List γ) :
    loop turn position t (xs.map f) = loop (fun position t x ↦ turn position t (f x)) position t xs := by
  induction xs generalizing position t with
  | nil => rfl
  | cons x xs ih => rw [List.map_cons, loop_cons, loop_cons, ih]

theorem loop_getElem? (position : ℕ) (t : τ) (xs : List α) (i : ℕ) :
    (loop turn position t xs).1[i]? =
      xs[i]?.map fun x ↦ (turn (position + i) (loop turn position t (xs.take i)).2 x).1 := by
  induction xs generalizing position t i with
  | nil => rfl
  | cons x xs ih =>
    rw [loop_cons]
    cases i with
    | zero => rfl
    | succ i =>
      rw [List.getElem?_cons_succ, List.getElem?_cons_succ, ih, List.take_succ_cons, loop_cons, Nat.add_assoc,
        Nat.add_comm 1 i]

theorem loop_take_succ {position : ℕ} {t : τ} {xs : List α} {i : ℕ} {x : α} (hx : xs[i]? = some x) :
    (loop turn position t (xs.take (i + 1))).2 = (turn (position + i) (loop turn position t (xs.take i)).2 x).2 := by
  induction xs generalizing position t i with
  | nil => cases hx
  | cons y xs ih =>
    rw [List.take_succ_cons, loop_cons]
    cases i with
    | zero =>
      obtain rfl : y = x := by simpa using hx
      rfl
    | succ i =>
      rw [List.getElem?_cons_succ] at hx
      rw [ih hx, List.take_succ_cons, loop_cons, Nat.add_assoc, Nat.add_comm 1 i]

/-- Two loops over one list, in step: where related states make agreement in a turn the same as a
condition on one of them, and that condition keeps them related, agreement in every turn is the
condition before every turn. -/
theorem loop_lockstep {τ' β' : Type} {turn' : ℕ → τ' → α → β' × τ'} {Rel : τ → τ' → Prop}
    {Agree : ℕ → τ → τ' → α → Prop} {C : τ → α → Prop} {xs : List α}
    (hstep : ∀ i x t t', xs[i]? = some x → Rel t t' → (Agree i t t' x ↔ C t x) ∧
      (C t x → Rel (turn i t x).2 (turn' i t' x).2)) {t : τ} {t' : τ'} (h : Rel t t') :
    (∀ (i : ℕ) x, xs[i]? = some x → Agree i (loop turn 0 t (xs.take i)).2 (loop turn' 0 t' (xs.take i)).2 x) ↔
      ∀ (i : ℕ) x, xs[i]? = some x → C (loop turn 0 t (xs.take i)).2 x := by
  have hrel : ∀ i : ℕ, (∀ j < i, ∀ x, xs[j]? = some x → C (loop turn 0 t (xs.take j)).2 x) →
      Rel (loop turn 0 t (xs.take i)).2 (loop turn' 0 t' (xs.take i)).2 := by
    intro i
    induction i with
    | zero => exact fun _ ↦ h
    | succ i ih =>
      intro hbefore
      have hi := ih fun j hj ↦ hbefore j (Nat.lt_succ_of_lt hj)
      cases hx : xs[i]? with
      | none =>
        have hsame : xs.take (i + 1) = xs.take i := by
          rw [List.take_add_one, hx]
          exact List.append_nil _
        rw [hsame]
        exact hi
      | some x =>
        rw [loop_take_succ hx, loop_take_succ hx, Nat.zero_add]
        exact (hstep i x _ _ hx hi).2 (hbefore i (Nat.lt_succ_self i) x hx)
  constructor
  · intro hagree i
    induction i using Nat.strong_induction_on with
    | _ i ih =>
      intro x hx
      exact (hstep i x _ _ hx (hrel i ih)).1.mp (hagree i x hx)
  · intro hall i x hx
    exact (hstep i x _ _ hx (hrel i fun j _ ↦ hall j)).1.mpr (hall i x hx)

theorem loop_countP_add_le {good : β → Bool} (potential : τ → ℕ∞)
    (hturn : ∀ position t x, (if good (turn position t x).1 then 1 else 0) + potential (turn position t x).2 ≤
      potential t)
    (position : ℕ) (t : τ) (xs : List α) :
    (loop turn position t xs).1.countP good + potential (loop turn position t xs).2 ≤ potential t := by
  induction xs generalizing position t with
  | nil => simp [loop]
  | cons x xs ih =>
    rw [loop_cons]
    refine le_trans ?_ (hturn position t x)
    have hrest := ih (position + 1) (turn position t x).2
    rw [List.countP_cons]
    split
    · rw [add_comm 1, Nat.cast_add, Nat.cast_one, add_right_comm]
      gcongr
    · simpa using hrest

end Noesar.Lib
