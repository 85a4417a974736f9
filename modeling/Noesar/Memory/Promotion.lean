import Noesar.Lib.Run
import Noesar.Memory.Records

namespace Noesar.Memory

open Lib Lib.Run Lib.Cooperative Workflows

def PromotionState.candidate : PromotionState → Bool
  | projectCandidate | globalCandidate => true
  | session | project | global | revoked => false

def Outcome.decides (signature : String) (cube : Cube) : Outcome → Bool
  | promoted record _ => record.named signature cube
  | refused _ => false

/-- Each record is decided once at most, and stands as it was decided. -/
structure DecidedOnce (s : Session) : Prop where
  once : ∀ signature cube, s.history.countP (·.2.decides signature cube) ≤ 1
  stands : ∀ e ∈ s.history, ∀ record decidedBy, e.2 = .promoted record decidedBy → record ∈ s.store

def Decisive (call : Promotion) : Prop := ∀ state transition, call.table state = some transition →
  state.candidate = true ∧ transition.next.candidate = false

def InFlight (records : List MemoryRecord) (history : List (List MemoryRecord × Outcome)) : Task → Prop
  | .selecting call => Decisive call
  | .updating call transition => transition.next.candidate = false ∧ ∃ record ∈ records,
      record.named call.signature call.cube = true ∧ (record.promotionState.candidate = true ∨
        0 < history.countP (·.2.decides call.signature call.cube))
  | .failed _ => True

structure Inv (s : Session) : Prop where
  unique : (s.store.map (·.signature)).Nodup
  decided : DecidedOnce s
  final : ∀ e ∈ s.history, ∀ record decidedBy, e.2 = .promoted record decidedBy → record.promotionState.candidate = false
  tasks : ∀ t, s.current = some t ∨ t ∈ s.waiting → InFlight s.store s.history t

def OnTime : Session → SessionAction → Prop :=
  Admitted database (fun _ _ _ ↦ True) fun records _ t ↦ ∀ call transition, t = .updating call transition →
    ∃ record ∈ records, record.named call.signature call.cube = true ∧ record.promotionState.candidate = true

variable {transition : Transition} {signature : String} {c : Promotion} {record : MemoryRecord} {cube : Cube}
  {records : List MemoryRecord}

theorem transitions_decisive {decision : String} {table : PromotionState → Option Transition}
    (h : transitions decision = some table) {state : PromotionState} (ht : table state = some transition) :
    state.candidate = true ∧ transition.next.candidate = false := by
  unfold transitions at h
  split at h
  · cases h
    cases state <;> cases ht <;> exact ⟨rfl, rfl⟩
  · split at h
    · cases h
      cases state <;> cases ht <;> exact ⟨rfl, rfl⟩
    · split at h
      · cases h
        cases ht
      · cases h

theorem promote_ok {cube decision : String} {actorId : JsonValue} {available : Bool}
    (h : promote signature cube decision actorId available = .ok c) : Decisive c := by
  simp only [promote, bind_ok, demand_ok, require_ok, exists_unit] at h
  obtain ⟨cube, -, actorId, -, table, htable, -, ⟨⟩⟩ := h
  intro state transition ht
  exact transitions_decisive htable ht

theorem named_iff :
    record.named signature cube = true ↔ record.signature = signature ∧ record.cube = cube := by
  simp [MemoryRecord.named]

theorem named_unique (h : (records.map (·.signature)).Nodup) {cube' : Cube} {r r' : MemoryRecord} (hr : r ∈ records)
    (hr' : r' ∈ records) (hn : r.named signature cube = true) (hn' : r'.named signature cube' = true) : r = r' :=
  List.inj_on_of_nodup_map h hr hr' ((named_iff.mp hn).1.trans (named_iff.mp hn').1.symm)

theorem select_ok (h : select records c = .ok transition) : ∃ record ∈ records, record.named c.signature c.cube = true ∧
      c.table record.promotionState = some transition := by
  obtain ⟨state, hstate, htable⟩ := Option.bind_eq_some_iff.mp (demand_ok.mp h)
  obtain ⟨record, hfound, rfl⟩ := Option.map_eq_some_iff.mp hstate
  exact ⟨record, List.mem_of_find?_eq_some hfound, List.find?_some hfound, htable⟩

theorem returned_some (h : returned records c transition = some record) :
    ∃ old ∈ records, old.named c.signature c.cube = true ∧
      record = old.apply transition := by
  obtain ⟨old, hfound, rfl⟩ := Option.map_eq_some_iff.mp h
  exact ⟨old, List.mem_of_find?_eq_some hfound, List.find?_some hfound, rfl⟩

theorem returned_ne_none (transition : Transition) (hmem : record ∈ records)
    (hnamed : record.named c.signature c.cube = true) :
    ∃ record', returned records c transition = some record' := by
  rw [← Option.isSome_iff_exists, returned, Option.isSome_map, List.find?_isSome]
  exact ⟨record, hmem, hnamed⟩

theorem mem_update (c : Promotion) (transition : Transition) (hmem : record ∈ records) :
    (if record.named c.signature c.cube then record.apply transition else record) ∈ update records c transition :=
  List.mem_map_of_mem hmem

theorem update_signatures (records : List MemoryRecord) (c : Promotion) (transition : Transition) :
    (update records c transition).map (·.signature) = records.map (·.signature) := by
  rw [update, List.map_map]
  refine List.map_congr_left fun record _ ↦ ?_
  simp only [Function.comp_apply]
  split <;> rfl

variable {s : Session}

theorem countP_append {history started : List (List MemoryRecord × Outcome)} :
    (history ++ started).countP (·.2.decides signature cube) =
      history.countP (·.2.decides signature cube) + started.countP (·.2.decides signature cube) := List.countP_append

theorem InFlight.mono {records' : List MemoryRecord} {history started : List (List MemoryRecord × Outcome)} {t : Task}
    (h : InFlight records history t) (hrecords : ∀ record ∈ records, record ∈ records') :
    InFlight records' (history ++ started) t := by
  cases t with
  | selecting => exact h
  | failed => trivial
  | updating =>
    obtain ⟨hnext, record, hmem, hnamed, hor⟩ := h
    refine ⟨hnext, record, hrecords record hmem, hnamed, ?_⟩
    rcases hor with hcandidate | hcount
    · exact .inl hcandidate
    · right
      rw [countP_append]
      omega

theorem Inv.quiet (h : Inv s) {turn : Turn (List MemoryRecord) Task Outcome}
    (hunique : (turn.store.map (·.signature)).Nodup) (hrecords : ∀ record ∈ s.store, record ∈ turn.store)
    (hstarted : ∀ o ∈ turn.started, ∃ e, o = .refused e)
    (hnext : ∀ t, turn.next = .wait t ∨ turn.next = .run t → InFlight s.store s.history t) : Inv (s.take turn) := by
  have hnone : ∀ signature cube,
      (turn.started.map (turn.store, ·)).countP (fun e ↦ e.2.decides signature cube) = 0 := by
    intro signature cube
    rw [List.countP_eq_zero]
    intro e he hdecides
    obtain ⟨o, ho, rfl⟩ := List.mem_map.mp he
    obtain ⟨error, rfl⟩ := hstarted o ho
    cases hdecides
  have hold : ∀ e ∈ (s.take turn).history, ∀ record decidedBy, e.2 = .promoted record decidedBy → e ∈ s.history := by
    intro e he record decidedBy heq
    rcases List.mem_append.mp he with hold | hnew
    · exact hold
    · obtain ⟨o, ho, rfl⟩ := List.mem_map.mp hnew
      obtain ⟨error, rfl⟩ := hstarted o ho
      cases heq
  refine ⟨hunique, ⟨?_, ?_⟩, ?_, ?_⟩
  · intro signature cube
    show (s.history ++ turn.started.map (turn.store, ·)).countP (fun e ↦ e.2.decides signature cube) ≤ 1
    rw [countP_append, hnone]
    exact h.decided.once signature cube
  · intro e he record decidedBy heq
    exact hrecords record (h.decided.stands e (hold e he record decidedBy heq) record decidedBy heq)
  · intro e he record decidedBy heq
    exact h.final e (hold e he record decidedBy heq) record decidedBy heq
  · intro t ht
    suffices hbefore : InFlight s.store s.history t from hbefore.mono hrecords
    obtain ⟨store, started, next⟩ := turn
    cases next with
    | done =>
      rcases ht with ht | ht
      · cases ht
      · exact h.tasks t (.inr ht)
    | run =>
      rcases ht with ht | ht
      · cases ht
        exact hnext t (.inr rfl)
      · exact h.tasks t (.inr ht)
    | wait =>
      rcases ht with ht | ht
      · cases ht
      · rcases List.mem_append.mp ht with ht | ht
        · exact h.tasks t (.inr ht)
        · obtain rfl := List.mem_singleton.mp ht
          exact hnext t (.inl rfl)

theorem Inv.undecided (h : Inv s) (hmem : record ∈ s.store) (hcandidate : record.promotionState.candidate = true)
    (hnamed : record.named signature cube = true) : s.history.countP (·.2.decides signature cube) = 0 := by
  rw [List.countP_eq_zero]
  intro e he hdecides
  obtain ⟨store, outcome⟩ := e
  cases outcome with
  | refused => cases hdecides
  | promoted found decidedBy =>
    have hfound := h.decided.stands _ he found decidedBy rfl
    have hfinal := h.final _ he found decidedBy rfl
    obtain rfl := named_unique h.unique hmem hfound hnamed hdecides
    rw [hfinal] at hcandidate
    cases hcandidate

theorem take_updating (transition : Transition) (hmem : record ∈ s.store)
    (hnamed : record.named c.signature c.cube = true) : ∃ decided decidedBy, decided.named c.signature c.cube = true ∧
      decided ∈ update s.store c transition ∧ decided.promotionState = transition.next ∧
      turn s.store (.updating c transition) = ⟨update s.store c transition, [.promoted decided decidedBy], .done⟩ := by
  obtain ⟨decided, hreturned⟩ := returned_ne_none transition hmem hnamed
  obtain ⟨old, hold, hnamed', rfl⟩ := returned_some hreturned
  refine ⟨old.apply transition, c.actorId, hnamed', ?_, rfl, by simp [turn, hreturned]⟩
  have hin := mem_update c transition hold
  rwa [if_pos hnamed'] at hin

theorem Inv.update (h : Inv s) (hcurrent : s.current = some (.updating c transition)) (hmem : record ∈ s.store)
    (hnamed : record.named c.signature c.cube = true) (hcandidate : record.promotionState.candidate = true) :
    Inv (s.take (turn s.store (.updating c transition))) := by
  have hnext := (h.tasks _ (.inl hcurrent)).1
  obtain ⟨decided, decidedBy, hnamed', hin, hstate, hturn⟩ := take_updating transition hmem hnamed
  have hkept : ∀ r ∈ s.store, r.named c.signature c.cube = false → r ∈ Memory.update s.store c transition := by
    intro r hr hother
    have hin' := mem_update c transition hr
    rwa [if_neg (by simp [hother])] at hin'
  rw [hturn]
  refine ⟨?_, ⟨?_, ?_⟩, ?_, ?_⟩
  · show ((Memory.update s.store c transition).map (·.signature)).Nodup
    rw [update_signatures]
    exact h.unique
  · intro signature cube
    show (s.history ++ [(Memory.update s.store c transition, Outcome.promoted decided decidedBy)]).countP
      (fun e ↦ e.2.decides signature cube) ≤ 1
    rw [countP_append, List.countP_singleton]
    have hbefore := h.decided.once signature cube
    split
    · rename_i hdecides
      obtain ⟨rfl, rfl⟩ := named_iff.mp hdecides
      obtain ⟨hs, hc⟩ := named_iff.mp hnamed'
      rw [hs, hc, h.undecided hmem hcandidate hnamed]
    · omega
  · intro e he r by' heq
    show r ∈ Memory.update s.store c transition
    rcases List.mem_append.mp he with hold | hnew
    · refine hkept r (h.decided.stands e hold r by' heq) ?_
      rw [Bool.eq_false_iff]
      intro hsame
      have hcount := h.undecided hmem hcandidate hnamed
      rw [List.countP_eq_zero] at hcount
      exact hcount e hold (by rw [heq]; exact hsame)
    · obtain rfl := List.mem_singleton.mp hnew
      cases heq
      exact hin
  · intro e he r by' heq
    rcases List.mem_append.mp he with hold | hnew
    · exact h.final e hold r by' heq
    · obtain rfl := List.mem_singleton.mp hnew
      cases heq
      rw [hstate, hnext]
  · intro t ht
    have hbefore : InFlight s.store s.history t := by
      rcases ht with ht | ht
      · cases ht
      · exact h.tasks t (.inr ht)
    cases t with
    | selecting => exact hbefore
    | failed => trivial
    | updating c' =>
      obtain ⟨hnext', r, hr, hr', hor⟩ := hbefore
      show InFlight (Memory.update s.store c transition)
        (s.history ++ [(Memory.update s.store c transition, Outcome.promoted decided decidedBy)]) _
      by_cases hsame : r.named c.signature c.cube = true
      · refine ⟨hnext', decided, hin, ?_, .inr ?_⟩
        · obtain ⟨hs, hc⟩ := named_iff.mp hr'
          obtain ⟨hs', hc'⟩ := named_iff.mp hsame
          rw [← hs, ← hc, hs', hc', hnamed']
        · rw [countP_append, List.countP_singleton, if_pos]
          · omega
          · obtain ⟨hs, hc⟩ := named_iff.mp hr'
            obtain ⟨hs', hc'⟩ := named_iff.mp hsame
            show decided.named c'.signature c'.cube = true
            rw [← hs, ← hc, hs', hc', hnamed']
      · refine ⟨hnext', r, hkept r hr (Bool.eq_false_iff.mpr hsame), hr', ?_⟩
        rcases hor with hcand | hcount
        · exact .inl hcand
        · right
          rw [countP_append]
          omega

theorem Inv.step (h : Inv s) {a : SessionAction} (ha : OnTime s a) : Inv (Cooperative.step database s a) := by
  cases a with
  | call request =>
    simp only [Cooperative.step]
    split
    · cases request with
      | promote =>
        simp only [database, call]
        split
        · exact h.quiet h.unique (fun _ hr ↦ hr) (by simp) (by simp)
        · rename_i c hc
          refine h.quiet h.unique (fun _ hr ↦ hr) (by simp) ?_
          rintro t (ht | ht) <;> cases ht
          exact promote_ok hc
      | write =>
        simp only [database, call]
        split
        · exact h.quiet h.unique (fun _ hr ↦ hr) (by simp) (by simp)
        · rename_i hfresh
          refine h.quiet ?_ (fun _ hr ↦ List.mem_append_left _ hr) (by simp) (by simp)
          simp only [List.map_append, List.map_cons, List.map_nil]
          refine List.nodup_append.mpr ⟨h.unique, by simp, ?_⟩
          intro signature hold signature' hnew heq
          obtain rfl := List.mem_singleton.mp hnew
          obtain ⟨r, hr, hsame⟩ := List.mem_map.mp hold
          exact hfresh (List.any_eq_true.mpr ⟨r, hr, decide_eq_true (hsame.trans heq)⟩)
    · exact h
  | go =>
    cases hc : s.current with
    | none =>
      simp only [Cooperative.step, hc]
      exact h
    | some t =>
      have ht := h.tasks t (.inl hc)
      simp only [Cooperative.step, hc]
      cases t with
      | selecting =>
        simp only [database, turn]
        split
        · exact h.quiet h.unique (fun _ hr ↦ hr) (by simp) (by simp)
        · rename_i transition hselect
          obtain ⟨record, hmem, hnamed, htable⟩ := select_ok hselect
          obtain ⟨hcandidate, hnext⟩ := ht _ _ htable
          refine h.quiet h.unique (fun _ hr ↦ hr) (by simp) ?_
          rintro t (ht | ht) <;> cases ht
          exact ⟨hnext, record, hmem, hnamed, .inl hcandidate⟩
      | updating c transition =>
        obtain ⟨record, hmem, hnamed, hcandidate⟩ := ha _ hc c transition rfl
        exact h.update hc hmem hnamed hcandidate
      | failed => exact h.quiet h.unique (fun _ hr ↦ hr) (by simp [database, turn]) (by simp [database, turn])
  | resume n o =>
    cases hc : s.current with
    | some =>
      simp only [Cooperative.step, hc]
      exact h
    | none =>
      cases hw : s.waiting[n]? with
      | none =>
        simp only [Cooperative.step, hc, hw]
        exact h
      | some t =>
        simp only [Cooperative.step, hc, hw]
        refine ⟨h.unique, ⟨h.decided.once, h.decided.stands⟩, h.final, ?_⟩
        rintro u (hu | hu)
        · cases hu
          cases o with
          | none => exact h.tasks t (.inr (List.mem_of_getElem? hw))
          | some => cases t <;> trivial
        · exact h.tasks u (.inr (List.mem_of_mem_eraseIdx hu))
  | crash => exact ⟨h.unique, ⟨h.decided.once, h.decided.stands⟩, h.final, by simp [Cooperative.step]⟩

theorem Inv.onTime (h : Inv s) {a : SessionAction} (hnext : DecidedOnce (Cooperative.step database s a)) : OnTime s a := by
  cases a with
  | call => exact fun _ ↦ trivial
  | resume | crash => trivial
  | go =>
    rintro t hcurrent c transition rfl
    obtain ⟨-, record, hmem, hnamed, hcandidate | hcount⟩ := h.tasks _ (.inl hcurrent)
    · exact ⟨record, hmem, hnamed, hcandidate⟩
    · -- The record is decided already, and this update decides it again.
      obtain ⟨decided, decidedBy, hnamed', -, -, hturn⟩ := take_updating transition hmem hnamed
      rw [Cooperative.step, hcurrent] at hnext
      have honce := hnext.once c.signature c.cube
      change (s.history ++ (turn s.store (.updating c transition)).started.map (_, ·)).countP
        (fun e : List MemoryRecord × Outcome ↦ e.2.decides c.signature c.cube) ≤ 1 at honce
      rw [hturn, countP_append, List.map_singleton, List.countP_singleton] at honce
      have hone : Outcome.decides c.signature c.cube (.promoted decided decidedBy) = true := hnamed'
      rw [if_pos hone] at honce
      omega

/-- However the statements of the calls interleave, each record is decided once and stands as it was decided exactly if
every update comes while its record still awaits the decision. -/
theorem decidedOnce_iff (actions : List SessionAction) :
    (∀ n, DecidedOnce (after (Cooperative.step database) (.start []) (actions.take n))) ↔
      Along (Cooperative.step database) OnTime (.start []) actions := by
  refine (Along.iff_forall_take (I := Inv) (P := DecidedOnce) (fun _ _ h ha ↦ h.step ha) (fun _ h ↦ h.decided)
    (fun _ _ h hnext ↦ h.onTime hnext) ?_ actions).symm
  exact ⟨by simp [State.start], ⟨by simp [State.start], by simp [State.start]⟩, by simp [State.start], by simp [State.start]⟩

def candidate : MemoryRecord := ⟨"MEM-1", .workshop, .private, .projectCandidate⟩

def approver : JsonValue := .string "00000000-0000-4000-8000-000000000001"

def bothSelect : List SessionAction :=
  [.call (.write candidate), .call (.promote "MEM-1" "workshop" "reject" approver true),
    .call (.promote "MEM-1" "workshop" "approve" approver true), .resume 0 none, .go, .resume 0 none, .go,
    .resume 0 none, .go, .resume 0 none, .go]

theorem revoked_then_promoted : ¬∀ n, DecidedOnce (after (Cooperative.step database) (.start []) (bothSelect.take n)) := by
  intro h
  have hdecided := (h bothSelect.length).once "MEM-1" .workshop
  have htwice : (after (Cooperative.step database) (.start []) bothSelect).history.countP
      (·.2.decides "MEM-1" .workshop) = 2 := by decide +kernel
  rw [List.take_length, htwice] at hdecided
  omega

end Noesar.Memory
