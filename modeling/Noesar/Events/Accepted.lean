import Noesar.Events.Ledger

namespace Noesar.Events.EventLedger

open Lib Lib.Framing Lib.Causes Capability

variable (d : Dialect)

/-- What a ledger demands of the next event beyond an id of its own and a digest. -/
structure Allowed (earlier : List Event) (e : Event) : Prop where
  identified : d.isBlank e.id = false ∧ d.isBlank e.correlationId = false
  described : d.isBlank e.action = false
  caused : ∀ c, d.cause e.toEventDraft = some c →
    ∃ f ∈ earlier, f.id = c ∧ f.correlationId = e.correlationId ∧ f.recordedAtUnix ≤ e.recordedAtUnix
  rooted : d.cause e.toEventDraft = none → ∀ f ∈ earlier, f.correlationId = e.correlationId →
    d.cause f.toEventDraft ≠ none

def Fresh (earlier : List Event) (e : Event) : Prop := ∀ f ∈ earlier, f.id ≠ e.id

def Chained (earlier : List Event) (e : Event) : Prop :=
  e.previousDigest = previousDigest earlier ∧ e.digest = d.digestOf e.toEventDraft e.previousDigest

def Admits (earlier : List Event) (e : Event) : Prop :=
  Allowed d earlier e ∧ Fresh earlier e ∧ Chained d earlier e

section

variable {d} {ledger : EventLedger} {e : Event} {draft : EventDraft}

theorem get_some_iff {id : String} : ledger.get id = some e ↔ e ∈ ledger.events ∧ e.id = id := by
  unfold get
  constructor
  · intro h
    obtain ⟨position, hposition, he⟩ := Option.bind_eq_some_iff.mp h
    have hid := (ledger.indexed id position).mp hposition
    rw [he] at hid
    exact ⟨List.mem_of_getElem? he, Option.some.inj hid⟩
  · rintro ⟨hmem, hid⟩
    obtain ⟨position, he⟩ := List.mem_iff_getElem?.mp hmem
    have hposition : ledger.index.get id = some position := by
      rw [ledger.indexed, he, Option.map_some, hid]
    rw [hposition, Option.bind_some, he]

theorem has_false_iff {id : String} : ledger.index.has id = false ↔ ∀ f ∈ ledger.events, f.id ≠ id := by
  constructor
  · intro h f hf hid
    obtain ⟨position, he⟩ := List.mem_iff_getElem?.mp hf
    have hposition : ledger.index.get id = some position := by
      rw [ledger.indexed, he, Option.map_some, hid]
    rw [InsertionMap.has, hposition] at h
    cases h
  · intro h
    cases hget : ledger.index.get id with
    | none => rw [InsertionMap.has, hget]; rfl
    | some position =>
      have hid := (ledger.indexed id position).mp hget
      obtain ⟨f, hf, hfid⟩ := Option.map_eq_some_iff.mp hid
      exact absurd hfid (h f (List.mem_of_getElem? hf))

theorem ids_nodup (ledger : EventLedger) : (ledger.events.map fun e ↦ e.id).Nodup := by
  rw [nodup_map_iff]
  intro earlier e later hsplit f hf hid
  obtain ⟨position, hposition⟩ := List.mem_iff_getElem?.mp hf
  have hlt : position < earlier.length := (List.getElem?_eq_some_iff.mp hposition).1
  have hfirst : ledger.index.get e.id = some position := by
    rw [ledger.indexed, hsplit, List.getElem?_append_left hlt, hposition, Option.map_some, hid]
  have hsecond : ledger.index.get e.id = some earlier.length := by
    rw [ledger.indexed, hsplit]
    simp
  rw [hfirst] at hsecond
  cases hsecond
  omega

theorem objection_none_iff : ledger.objection d draft = none ↔
    (∀ c, d.cause draft = some c → ∃ f ∈ ledger.events, f.id = c ∧ f.correlationId = draft.correlationId ∧
      f.recordedAtUnix ≤ draft.recordedAtUnix) ∧
    (d.cause draft = none → ∀ f ∈ ledger.events, f.correlationId = draft.correlationId →
      d.cause f.toEventDraft ≠ none) := by
  unfold objection
  cases hcause : d.cause draft with
  | none =>
    simp only [ite_eq_right_iff, reduceCtorEq, imp_false, forall_const, false_implies, true_and]
    simp only [List.any_eq_true, Bool.and_eq_true, decide_eq_true_eq, Option.isNone_iff_eq_none, not_exists, not_and]
  | some c =>
    simp only [reduceCtorEq, false_implies, and_true, Option.some.injEq, forall_eq']
    cases hget : ledger.get c with
    | none =>
      simp only [reduceCtorEq, false_iff, not_exists, not_and]
      intro f hf hid
      rw [get_some_iff.mpr ⟨hf, hid⟩] at hget
      cases hget
    | some cause =>
      obtain ⟨hmem, hid⟩ := get_some_iff.mp hget
      constructor
      · intro h
        dsimp only at h
        split_ifs at h with hsame hlate
        exact ⟨cause, hmem, hid, not_not.mp hsame, not_lt.mp hlate⟩
      · rintro ⟨f, hf, hfid, hsame, htime⟩
        have hget' := get_some_iff.mpr ⟨hf, hfid⟩
        rw [hget] at hget'
        cases hget'
        dsimp only
        rw [if_neg (not_not.mpr hsame), if_neg (not_lt.mpr htime)]

def eventOf (d : Dialect) (ledger : EventLedger) (draft : EventDraft) : Event :=
  ⟨draft, previousDigest ledger.events, d.digestOf draft (previousDigest ledger.events)⟩

theorem append_cases (d : Dialect) (ledger : EventLedger) (draft : EventDraft) :
    (∃ refusal, append d ledger draft = (.error refusal, ledger) ∧
      ¬ (Allowed d ledger.events (eventOf d ledger draft) ∧ Fresh ledger.events (eventOf d ledger draft))) ∨
    Allowed d ledger.events (eventOf d ledger draft) ∧ Fresh ledger.events (eventOf d ledger draft) ∧
      ∃ hfresh, append d ledger draft = (.ok (eventOf d ledger draft), ledger.push (eventOf d ledger draft) hfresh) := by
  unfold append
  split
  next h =>
    refine .inl ⟨_, rfl, fun ⟨hallowed, _⟩ ↦ ?_⟩
    have hid : d.isBlank draft.id = false ∧ d.isBlank draft.correlationId = false := hallowed.identified
    simp [hid] at h
  next hidentified =>
    split
    next h =>
      refine .inl ⟨_, rfl, fun ⟨hallowed, _⟩ ↦ ?_⟩
      have hdescribed : d.isBlank draft.action = false := hallowed.described
      simp [hdescribed] at h
    next hdescribed =>
      split
      next h =>
        refine .inl ⟨_, rfl, fun ⟨_, hfresh⟩ ↦ ?_⟩
        have hhas : ledger.index.has draft.id = false := has_false_iff.mpr hfresh
        rw [hhas] at h
        cases h
      next hhas =>
        split
        next refusal hrefusal =>
          refine .inl ⟨_, rfl, fun ⟨hallowed, _⟩ ↦ ?_⟩
          have hnone : ledger.objection d draft = none :=
            objection_none_iff.mpr ⟨hallowed.caused, hallowed.rooted⟩
          rw [hnone] at hrefusal
          cases hrefusal
        next hnone =>
          obtain ⟨hcaused, hrooted⟩ := objection_none_iff.mp hnone
          have hfresh := Bool.eq_false_of_not_eq_true hhas
          have hid : d.isBlank draft.id = false ∧ d.isBlank draft.correlationId = false := by
            simpa using hidentified
          exact .inr ⟨⟨hid, Bool.eq_false_of_not_eq_true hdescribed, hcaused, hrooted⟩,
            has_false_iff.mp hfresh, hfresh, rfl⟩

theorem append_refused {refusal : EventError} (h : (append d ledger draft).1 = .error refusal) :
    (append d ledger draft).2 = ledger := by
  rcases append_cases d ledger draft with ⟨_, he, -⟩ | ⟨-, -, _, he⟩
  · rw [he]
  · rw [he] at h
    cases h

theorem append_ok_iff : (append d ledger draft).1 = .ok e ↔ e.toEventDraft = draft ∧ Admits d ledger.events e := by
  constructor
  · intro h
    rcases append_cases d ledger draft with ⟨_, he, -⟩ | ⟨hallowed, hfresh, _, he⟩
    · rw [he] at h
      cases h
    · rw [he] at h
      cases h
      exact ⟨rfl, hallowed, hfresh, rfl, rfl⟩
  · rintro ⟨rfl, hallowed, hfresh, hprevious, hdigest⟩
    have heq : eventOf d ledger e.toEventDraft = e := by
      obtain ⟨draft, previous, digest⟩ := e
      simp only at hprevious hdigest
      rw [hdigest, hprevious]
      rfl
    rcases append_cases d ledger e.toEventDraft with ⟨_, -, hnot⟩ | ⟨-, -, _, he⟩
    · rw [heq] at hnot
      exact absurd ⟨hallowed, hfresh⟩ hnot
    · rw [he]
      exact congrArg Except.ok heq

theorem append_events (h : (append d ledger draft).1 = .ok e) :
    (append d ledger draft).2.events = ledger.events ++ [e] := by
  rcases append_cases d ledger draft with ⟨_, he, -⟩ | ⟨-, -, _, he⟩
  · rw [he] at h
    cases h
  · rw [he] at h ⊢
    cases h
    rfl

theorem recorded_built (drafts : List EventDraft) : Built (Admits d) (recorded d drafts).events := by
  refine Run.invariant (I := fun ledger : EventLedger ↦ Built (Admits d) ledger.events) ?_ built_nil drafts
  intro ledger draft hbuilt
  cases hresult : (append d ledger draft).1 with
  | error =>
    rw [append_refused hresult]
    exact hbuilt
  | ok =>
    rw [append_events hresult]
    exact built_snoc.mpr ⟨hbuilt, (append_ok_iff.mp hresult).2⟩

theorem checkFrom_none_iff (previous : String) (position : ℕ) (events : List Event) :
    checkFrom d previous position events = none ↔
      Built (fun earlier e ↦ e.previousDigest = (earlier.getLast?.map Event.digest).getD previous ∧
        e.digest = d.digestOf e.toEventDraft e.previousDigest) events := by
  induction events generalizing previous position with
  | nil => simp [checkFrom, built_nil]
  | cons event events ih =>
    have hlast : ∀ earlier : List Event, ((event :: earlier).getLast?.map Event.digest).getD previous =
        (earlier.getLast?.map Event.digest).getD event.digest := by
      intro earlier
      cases hearlier : earlier.getLast? with
      | none | some => simp [List.getLast?_cons, hearlier]
    rw [built_cons, checkFrom]
    simp only [hlast, List.getLast?_nil, Option.map_none, Option.getD_none]
    rw [← ih event.digest (position + 1)]
    by_cases hprevious : event.previousDigest = previous
    · rw [if_neg (not_not.mpr hprevious)]
      by_cases hdigest : d.digestOf event.toEventDraft previous = event.digest
      · rw [if_neg (not_not.mpr hdigest)]
        simp [hprevious, hdigest]
      · rw [if_pos hdigest]
        simp [hprevious, Ne.symm hdigest]
    · rw [if_pos hprevious]
      simp [hprevious]

theorem verify_none_iff : ledger.verify d = none ↔ Built (Chained d) ledger.events :=
  checkFrom_none_iff genesis 0 ledger.events

end

def Returns (ledger : EventLedger) (id : String) (chain : List Event) : Prop :=
  ∃ fuel, causalChain d ledger fuel id = some chain

/-- What a ledger is for: one beginning for each correlation, one earlier cause for each
other event, and the way back from each event to that beginning. -/
structure Sound (ledger : EventLedger) : Prop where
  unique : (ledger.events.map fun e ↦ e.id).Nodup
  root : ∀ e ∈ ledger.events, ∃ earlier root later, ledger.events = earlier ++ root :: later ∧
    root.correlationId = e.correlationId ∧ d.cause root.toEventDraft = none ∧
    (∀ f ∈ earlier, f.correlationId ≠ e.correlationId) ∧
    ∀ f ∈ later, f.correlationId = e.correlationId → d.cause f.toEventDraft ≠ none
  caused : ∀ earlier e later, ledger.events = earlier ++ e :: later → ∀ c, d.cause e.toEventDraft = some c →
    ∃ f ∈ earlier, f.id = c ∧ f.correlationId = e.correlationId ∧ f.recordedAtUnix ≤ e.recordedAtUnix
  valid : ledger.verify d = none
  chain : ∀ e ∈ ledger.events, ∃ chain, Returns d ledger e.id chain ∧
    ChainTo (fun f ↦ d.cause f.toEventDraft) (fun f ↦ f.id) chain e ∧ chain.Sublist ledger.events ∧
    ∀ f ∈ chain, f.correlationId = e.correlationId

section

variable {d} {ledger : EventLedger}

theorem root_of_built (hbuilt : Built (Allowed d) ledger.events) {e : Event} (he : e ∈ ledger.events) :
    ∃ earlier root later, ledger.events = earlier ++ root :: later ∧
      root.correlationId = e.correlationId ∧ d.cause root.toEventDraft = none ∧
      (∀ f ∈ earlier, f.correlationId ≠ e.correlationId) ∧
      ∀ f ∈ later, f.correlationId = e.correlationId → d.cause f.toEventDraft ≠ none := by
  have hfirst : (ledger.events.find? fun f ↦ f.correlationId = e.correlationId).isSome := by
    rw [List.find?_isSome]
    exact ⟨e, he, by simp⟩
  obtain ⟨root, hroot⟩ := Option.isSome_iff_exists.mp hfirst
  obtain ⟨hsame, earlier, later, hsplit, hearlier⟩ := List.find?_eq_some_iff_append.mp hroot
  have hsame : root.correlationId = e.correlationId := by simpa using hsame
  have hbefore : ∀ f ∈ earlier, f.correlationId ≠ e.correlationId := by
    intro f hf
    simpa using hearlier f hf
  have hcause : d.cause root.toEventDraft = none := by
    cases hc : d.cause root.toEventDraft with
    | none => rfl
    | some c =>
      obtain ⟨f, hf, -, hcorrelation, -⟩ := (hbuilt earlier root later hsplit).caused c hc
      exact absurd (hcorrelation.trans hsame) (hbefore f hf)
  refine ⟨earlier, root, later, hsplit, hsame, hcause, hbefore, ?_⟩
  intro f hf hcorrelation hnone
  obtain ⟨front, back, rfl⟩ := List.append_of_mem hf
  have hf := hbuilt (earlier ++ root :: front) f back (by rw [hsplit]; simp)
  exact hf.rooted hnone root (by simp) (hsame.trans hcorrelation.symm) hcause

theorem chain_of_built (hbuilt : Built (Allowed d) ledger.events) {e : Event} (he : e ∈ ledger.events) :
    ∃ chain, Returns d ledger e.id chain ∧
      ChainTo (fun f ↦ d.cause f.toEventDraft) (fun f ↦ f.id) chain e ∧ chain.Sublist ledger.events ∧
      ∀ f ∈ chain, f.correlationId = e.correlationId := by
  obtain ⟨earlier, later, hsplit⟩ := List.append_of_mem he
  have hfound : Built (fun earlier e ↦ ∀ c, d.cause e.toEventDraft = some c →
      ∃ f ∈ earlier, ledger.get c = some f ∧ f.id = c ∧ f.correlationId = e.correlationId) ledger.events := by
    intro earlier e later hsplit c hc
    obtain ⟨f, hf, hid, hcorrelation, -⟩ := (hbuilt earlier e later hsplit).caused c hc
    exact ⟨f, hf, get_some_iff.mpr ⟨by rw [hsplit]; simp [hf], hid⟩, hid, hcorrelation⟩
  obtain ⟨chain, hwalk, hchain, hsub, hsame⟩ := walk_ends hfound hsplit
  refine ⟨chain, ⟨earlier.length + 1, ?_⟩, hchain, hsub.trans ?_, hsame⟩
  · rw [causalChain, get_some_iff.mpr ⟨he, rfl⟩, hwalk, Option.map_some, List.reverse_reverse]
  · rw [hsplit, ← List.singleton_append (l := later), ← List.append_assoc]
    exact List.sublist_append_left _ _

theorem sound_of_built (hbuilt : Built (Allowed d) ledger.events) (hvalid : ledger.verify d = none) :
    Sound d ledger where
  unique := ids_nodup ledger
  root _ he := root_of_built hbuilt he
  caused earlier e later hsplit := (hbuilt earlier e later hsplit).caused
  valid := hvalid
  chain _ he := chain_of_built hbuilt he

theorem recorded_sound (drafts : List EventDraft) : Sound d (recorded d drafts) := by
  have hbuilt := recorded_built (d := d) drafts
  refine sound_of_built (fun earlier e later h ↦ (hbuilt earlier e later h).1) ?_
  exact verify_none_iff.mpr fun earlier e later h ↦ (hbuilt earlier e later h).2.2

end

/-- Whatever drafts a ledger has been asked to record, it is sound, and the next refusal
leaves it as it is; in the control plane and in the crate. -/
theorem ledger_invariant (host : Host) (drafts : List EventDraft) :
    (Sound (js host) (recorded (js host) drafts) ∧
      ∀ draft refusal, (append (js host) (recorded (js host) drafts) draft).1 = .error refusal →
        (append (js host) (recorded (js host) drafts) draft).2 = recorded (js host) drafts) ∧
    (Sound (rust host) (recorded (rust host) drafts) ∧
      ∀ draft refusal, (append (rust host) (recorded (rust host) drafts) draft).1 = .error refusal →
        (append (rust host) (recorded (rust host) drafts) draft).2 = recorded (rust host) drafts) :=
  ⟨⟨recorded_sound drafts, fun _ _ ↦ append_refused⟩, ⟨recorded_sound drafts, fun _ _ ↦ append_refused⟩⟩

end Noesar.Events.EventLedger
