import Mathlib

namespace Noesar.Lib.Cooperative

variable {σ τ α ω ε : Type}

inductive Next (τ : Type)
  | done
  | wait (t : τ)
  | run (t : τ)

/-- What a turn made of the store, what it set going, and what becomes of the task. -/
structure Turn (σ τ ε : Type) where
  store : σ
  started : List ε
  next : Next τ

/-- Tasks that share a store and give way only where they wait. A call and a turn are told whether
a task that is exclusive waits. -/
structure Program (σ τ α ω ε : Type) where
  call : σ → Bool → α → Turn σ τ ε
  turn : σ → Bool → τ → Turn σ τ ε
  resume : τ → ω → τ
  exclusive : τ → Bool
  waits : τ → Bool

/-- What was set going is kept with the store it was set going in. -/
structure State (σ τ ε : Type) where
  store : σ
  current : Option τ
  waiting : List τ
  history : List (σ × ε)

inductive Action (α ω : Type)
  | call (a : α)
  | go
  | resume (n : ℕ) (o : ω)
  | crash

def State.start (s : σ) : State σ τ ε := ⟨s, none, [], []⟩

def State.take (s : State σ τ ε) (turn : Turn σ τ ε) : State σ τ ε where
  store := turn.store
  current :=
    match turn.next with
    | .run t => some t
    | .done | .wait _ => none
  waiting :=
    match turn.next with
    | .wait t => s.waiting ++ [t]
    | .done | .run _ => s.waiting
  history := s.history ++ turn.started.map (turn.store, ·)

section

variable (p : Program σ τ α ω ε)

def State.busy (s : State σ τ ε) : Bool := s.waiting.any p.exclusive

/-- A call is taken up, and a task goes on after its wait, where no other task is at its turn. A crash
forgets the tasks and leaves the store. -/
def step (s : State σ τ ε) : Action α ω → State σ τ ε
  | .call a =>
    match s.current with
    | none => s.take (p.call s.store (s.busy p) a)
    | some _ => s
  | .go =>
    match s.current with
    | none => s
    | some t => s.take (p.turn s.store (s.busy p) t)
  | .resume n o =>
    match s.current, s.waiting[n]? with
    | none, some t => { s with current := some (p.resume t o), waiting := s.waiting.eraseIdx n }
    | _, _ => s
  | .crash => { s with current := none, waiting := [] }

def Admitted (C : σ → Bool → α → Prop) (D : σ → Bool → τ → Prop) (s : State σ τ ε) : Action α ω → Prop
  | .call a => s.current = none → C s.store (s.busy p) a
  | .go => ∀ t, s.current = some t → D s.store (s.busy p) t
  | .resume _ _ => True
  | .crash => True

/-- What holds of the store, of each task in it and of all that was set going; and of the exclusive
tasks there is one at most. -/
structure Inv (R : σ → Prop) (T : σ → τ → Prop) (H : σ → ε → Prop) (s : State σ τ ε) : Prop where
  store : R s.store
  current : ∀ t, s.current = some t → T s.store t ∧ (p.exclusive t = true → s.busy p = false)
  waiting : ∀ t ∈ s.waiting, p.waits t = true ∧ T s.store t
  single : s.waiting.countP p.exclusive ≤ 1
  history : ∀ e ∈ s.history, H e.1 e.2

/-- What is owed of the task that goes on, where `free` allows it to be exclusive. -/
def Next.Kept (T : τ → Prop) (free : Prop) : Next τ → Prop
  | .done => True
  | .wait t => p.waits t = true ∧ T t ∧ (p.exclusive t = true → free)
  | .run t => T t ∧ (p.exclusive t = true → free)

/-- What a turn owes to the invariant, where `alone` says that the task at its turn is exclusive. -/
structure Turn.Keeps (R : σ → Prop) (T : σ → τ → Prop) (H : σ → ε → Prop) (s : σ) (busy alone : Bool)
    (turn : Turn σ τ ε) : Prop where
  store : R turn.store
  started : ∀ e ∈ turn.started, H turn.store e
  next : turn.next.Kept p (T turn.store) (alone = true ∨ busy = false)
  others : ∀ u, p.waits u = true → T s u → (p.exclusive u = true → busy = true ∧ alone = false) → T turn.store u

end

variable {p : Program σ τ α ω ε} {R : σ → Prop} {T : σ → τ → Prop} {H : σ → ε → Prop}

variable {s : State σ τ ε} {a : Action α ω}

theorem busy_eq_false : s.busy p = false ↔ s.waiting.countP p.exclusive = 0 := by
  simp [State.busy]

theorem Inv.take (h : Inv p R T H s) {alone : Bool} (halone : alone = true → s.busy p = false) {turn : Turn σ τ ε}
    (hturn : turn.Keeps p R T H s.store (s.busy p) alone) : Inv p R T H (s.take turn) := by
  have hwaiting : ∀ t ∈ s.waiting, p.waits t = true ∧ T turn.store t := by
    intro u hu
    obtain ⟨hw, hu'⟩ := h.waiting u hu
    refine ⟨hw, hturn.others u hw hu' fun hex ↦ ?_⟩
    have hbusy : s.busy p = true := List.any_eq_true.mpr ⟨u, hu, hex⟩
    refine ⟨hbusy, ?_⟩
    cases alone with
    | false => rfl
    | true => exact absurd (halone rfl) (by simp [hbusy])
  have hhistory : ∀ e ∈ (s.take turn).history, H e.1 e.2 := by
    intro e he
    rcases List.mem_append.mp he with he | he
    · exact h.history e he
    · obtain ⟨x, hx, rfl⟩ := List.mem_map.mp he
      exact hturn.started x hx
  have hfree (hor : alone = true ∨ s.busy p = false) : s.busy p = false := by
    rcases hor with ha | hb
    · exact halone ha
    · exact hb
  have hnext := hturn.next
  obtain ⟨store, started, next⟩ := turn
  cases next with
  | done => exact ⟨hturn.store, by rintro t ⟨⟩, hwaiting, h.single, hhistory⟩
  | run =>
    refine ⟨hturn.store, ?_, hwaiting, h.single, hhistory⟩
    rintro u ⟨⟩
    exact ⟨hnext.1, fun hex ↦ hfree (hnext.2 hex)⟩
  | wait t =>
    refine ⟨hturn.store, by rintro u ⟨⟩, ?_, ?_, hhistory⟩
    · intro u hu
      rcases List.mem_append.mp hu with hu | hu
      · exact hwaiting u hu
      · obtain rfl := List.mem_singleton.mp hu
        exact ⟨hnext.1, hnext.2.1⟩
    · show (s.waiting ++ [t]).countP p.exclusive ≤ 1
      rw [List.countP_append, List.countP_singleton]
      split
      · rename_i hex
        have hzero := busy_eq_false.mp (hfree (hnext.2.2 hex))
        omega
      · exact h.single

theorem Inv.step {C : σ → Bool → α → Prop} {D : σ → Bool → τ → Prop}
    (hcall : ∀ s busy a, R s → C s busy a → (p.call s busy a).Keeps p R T H s busy false)
    (hturn : ∀ s busy t, R s → T s t → D s busy t → (p.exclusive t = true → busy = false) →
      (p.turn s busy t).Keeps p R T H s busy (p.exclusive t))
    (hresume : ∀ s t o, T s t → T s (p.resume t o) ∧ p.exclusive (p.resume t o) = p.exclusive t) (h : Inv p R T H s)
    (ha : Admitted p C D s a) :
    Inv p R T H (Cooperative.step p s a) := by
  cases a with
  | call a =>
    cases hc : s.current with
    | none =>
      simp only [Cooperative.step, hc]
      exact h.take (by simp) (hcall _ _ a h.store (ha hc))
    | some =>
      simp only [Cooperative.step, hc]
      exact h
  | go =>
    cases hc : s.current with
    | none =>
      simp only [Cooperative.step, hc]
      exact h
    | some t =>
      obtain ⟨ht, hfree⟩ := h.current t hc
      simp only [Cooperative.step, hc]
      exact h.take hfree (hturn _ _ t h.store ht (ha t hc) hfree)
  | resume n o =>
    cases hc : s.current with
    | some =>
      simp only [Cooperative.step, hc]
      exact h
    | none =>
      cases hw : s.waiting[n]? with
      | none =>
        simp only [Cooperative.step, hc, hw]
        exact h
      | some =>
        simp only [Cooperative.step, hc, hw]
        obtain ⟨hn, rfl⟩ := List.getElem?_eq_some_iff.mp hw
        obtain ⟨ht, hex⟩ := hresume s.store s.waiting[n] o (h.waiting _ (List.getElem_mem hn)).2
        have hcount := (List.getElem_cons_eraseIdx_perm hn).countP_eq p.exclusive
        rw [List.countP_cons] at hcount
        have hsingle := h.single
        refine ⟨h.store, ?_, ?_, ?_, h.history⟩
        · rintro u ⟨⟩
          refine ⟨ht, fun hu ↦ busy_eq_false.mpr ?_⟩
          rw [hex] at hu
          rw [if_pos hu] at hcount
          show (s.waiting.eraseIdx n).countP p.exclusive = 0
          omega
        · intro u hu
          exact h.waiting u (List.mem_of_mem_eraseIdx hu)
        · show (s.waiting.eraseIdx n).countP p.exclusive ≤ 1
          omega
  | crash => exact ⟨h.store, by rintro t ⟨⟩, by simp [Cooperative.step], by simp [Cooperative.step], h.history⟩

section

variable (p : Program σ τ α ω ε)

/-- There is one task at most, and what is known depends on whether there is one. -/
inductive Solo (I : σ → List (σ × ε) → Prop) (J : σ → List (σ × ε) → τ → Prop) : State σ τ ε → Prop
  | idle {s : σ} {history : List (σ × ε)} (h : I s history) : Solo I J ⟨s, none, [], history⟩
  | running {s : σ} {history : List (σ × ε)} {t : τ} (h : J s history t) : Solo I J ⟨s, some t, [], history⟩
  | waiting {s : σ} {history : List (σ × ε)} {t : τ} (hw : p.waits t = true) (h : J s history t) :
    Solo I J ⟨s, none, [t], history⟩

def Turn.Leads (I : σ → List (σ × ε) → Prop) (J : σ → List (σ × ε) → τ → Prop) (history : List (σ × ε))
    (turn : Turn σ τ ε) : Prop :=
  match turn.next with
  | .done => I turn.store (history ++ turn.started.map (turn.store, ·))
  | .wait t => p.waits t = true ∧ J turn.store (history ++ turn.started.map (turn.store, ·)) t
  | .run t => J turn.store (history ++ turn.started.map (turn.store, ·)) t

end

/-- No crash, and a call beside a task that waits only where `D` has it. -/
def Uncontended (D : σ → τ → α → Prop) (s : State σ τ ε) : Action α ω → Prop
  | .call a => ∀ t ∈ s.waiting, D s.store t a
  | .go => True
  | .resume _ _ => True
  | .crash => False

variable {I : σ → List (σ × ε) → Prop} {J : σ → List (σ × ε) → τ → Prop}

theorem Turn.Leads.solo (hw : s.waiting = []) {turn : Turn σ τ ε} (h : turn.Leads p I J s.history) :
    Solo p I J (s.take turn) := by
  obtain ⟨store, started, next⟩ := turn
  cases next with
  | done =>
    simp only [State.take, hw]
    exact .idle h
  | wait =>
    simp only [State.take, hw, List.nil_append]
    exact .waiting h.1 h.2
  | run =>
    simp only [State.take, hw]
    exact .running h

/-- No crash of a task, calls that `C` admits beside the task that waits or where there is none, and turns of tasks that `D` admits. -/
def Steered (C : σ → Option τ → α → Prop) (D : σ → List (σ × ε) → τ → Prop) (s : State σ τ ε) : Action α ω → Prop
  | .call a => C s.store s.waiting.head? a
  | .go => ∀ t, s.current = some t → D s.store s.history t
  | .resume _ _ => True
  | .crash => s.current = none ∧ s.waiting = []

theorem Solo.steered {C : σ → Option τ → α → Prop} {D : σ → List (σ × ε) → τ → Prop}
    (hcall : ∀ s history a, I s history → C s none a → (p.call s false a).Leads p I J history)
    (hrefused : ∀ s history t a, p.waits t = true → J s history t → C s (some t) a →
      p.call s (p.exclusive t) a = ⟨s, [], .done⟩)
    (hturn : ∀ s history t, J s history t → D s history t → (p.turn s false t).Leads p I J history)
    (hresume : ∀ s history t o, J s history t → J s history (p.resume t o)) (h : Solo p I J s) (ha : Steered C D s a) :
    Solo p I J (Cooperative.step p s a) := by
  cases a with
  | call a =>
    cases h with
    | idle hi => exact (hcall _ _ a hi ha).solo rfl
    | running hj => exact .running hj
    | waiting hw hj =>
      rename_i s history t
      have hr := hrefused s history t a hw hj ha
      simp only [Cooperative.step, State.busy, List.any_cons, List.any_nil, Bool.or_false, hr, State.take,
        List.map_nil, List.append_nil]
      exact .waiting hw hj
  | go =>
    cases h with
    | idle hi => exact .idle hi
    | running hj => exact (hturn _ _ _ hj (ha _ rfl)).solo rfl
    | waiting hw hj => exact .waiting hw hj
  | resume n o =>
    cases h with
    | idle hi => exact .idle hi
    | running hj => exact .running hj
    | waiting hw hj =>
      cases n with
      | zero => exact .running (hresume _ _ _ o hj)
      | succ => exact .waiting hw hj
  | crash =>
    cases h with
    | idle hi => exact .idle hi
    | running => cases ha.1
    | waiting => cases ha.2

theorem Solo.step {D : σ → τ → α → Prop} (hcall : ∀ s history a, I s history → (p.call s false a).Leads p I J history)
    (hrefused : ∀ s history t a, p.waits t = true → J s history t → D s t a → p.call s (p.exclusive t) a = ⟨s, [], .done⟩)
    (hturn : ∀ s history t, J s history t → (p.turn s false t).Leads p I J history)
    (hresume : ∀ s history t o, J s history t → J s history (p.resume t o)) (h : Solo p I J s)
    (ha : Uncontended D s a) :
    Solo p I J (Cooperative.step p s a) := by
  refine Solo.steered (C := fun s waiting a ↦ ∀ t ∈ waiting, D s t a) (D := fun _ _ _ ↦ True)
    (fun s history a hi _ ↦ hcall s history a hi) (fun s history t a hw hj hd ↦ hrefused s history t a hw hj (hd t rfl))
    (fun s history t hj _ ↦ hturn s history t hj) hresume h ?_
  cases a with
  | call => exact fun t ht ↦ ha t (List.mem_of_mem_head? ht)
  | go => exact fun _ _ ↦ trivial
  | resume => trivial
  | crash => exact ha.elim

theorem mem_history_step {e : σ × ε} (he : e ∈ (Cooperative.step p s a).history) :
    e ∈ s.history ∨ e.1 = (Cooperative.step p s a).store := by
  have htake {turn : Turn σ τ ε} (he : e ∈ (s.take turn).history) : e ∈ s.history ∨ e.1 = turn.store := by
    rcases List.mem_append.mp he with hold | hnew
    · exact .inl hold
    · obtain ⟨x, -, rfl⟩ := List.mem_map.mp hnew
      exact .inr rfl
  cases a with
  | call =>
    simp only [Cooperative.step] at he ⊢
    split at he
    · exact htake he
    · exact .inl he
  | go =>
    simp only [Cooperative.step] at he ⊢
    split at he
    · exact .inl he
    · exact htake he
  | resume =>
    simp only [Cooperative.step] at he
    split at he <;> exact .inl he
  | crash => exact .inl he

theorem history_step {Q : σ → σ → Prop} (hrefl : ∀ s, Q s s) (htrans : ∀ s s' s'', Q s s' → Q s' s'' → Q s s'')
    (h : ∀ e ∈ s.history, Q e.1 s.store) (hstep : Q s.store (Cooperative.step p s a).store) :
    ∀ e ∈ (Cooperative.step p s a).history, Q e.1 (Cooperative.step p s a).store := by
  intro e he
  rcases mem_history_step he with hold | hnew
  · exact htrans _ _ _ (h e hold) hstep
  · rw [hnew]
    exact hrefl _

end Noesar.Lib.Cooperative
