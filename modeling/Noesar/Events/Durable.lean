import Noesar.Events.Recovery

namespace Noesar.Events

open Lib Lib.Framing Lib.Causes Lib.Json Capability EventLedger

namespace EventLedger

theorem readLines_none {lines position : ℕ} {rest : List (Except String Event)} {records : List Event}
    (h : readLines lines position rest = .ok (records, none)) : rest = records.map .ok := by
  induction rest generalizing position records with
  | nil =>
    cases h
    rfl
  | cons line rest ih =>
    cases line with
    | error =>
      cases rest with
      | nil | cons => cases h
    | ok =>
      rw [readLines] at h
      cases hrest : readLines lines (position + 1) rest with
      | error =>
        rw [hrest] at h
        cases h
      | ok read =>
        obtain ⟨records', torn⟩ := read
        rw [hrest] at h
        cases h
        rw [ih hrest, List.map_cons]

end EventLedger

/-- A call of `append`, and after how many bytes the write of its line fails, if it does. -/
structure Attempt where
  draft : EventDraft
  failure : Option ℕ

inductive Thrown
  | refused (refusal : EventError)
  | notWritten

structure Backed where
  ledger : EventLedger
  journal : Option Bytes

namespace Backed

def bytes (s : Backed) : Bytes := s.journal.getD []

section

variable (json : JsonHost) (d : Dialect)

def append (s : Backed) (a : Attempt) : Except Thrown Event × Backed :=
  match EventLedger.append d s.ledger a.draft with
  | (.error refusal, ledger) => (.error (.refused refusal), ⟨ledger, s.journal⟩)
  | (.ok e, ledger) => match a.failure with
    | none => (.ok e, ⟨ledger, some (s.bytes ++ json.line e)⟩)
    | some 0 => (.error .notWritten, ⟨ledger, s.journal⟩)
    | some (written + 1) => (.error .notWritten, ⟨ledger, some (s.bytes ++ (json.line e).take (written + 1))⟩)

def step (s : Backed) (a : Attempt) : Backed := (append json d s a).2

def Agrees (s : Backed) : Prop :=
  ∃ opened, json.loadFrom d s.journal = .ok opened ∧ opened.ledger.events = s.ledger.events

/-- After the call memory and journal agree, and if it throws they are as they were. -/
structure Faithful (s : Backed) (a : Attempt) : Prop where
  agrees : Agrees json d (step json d s a)
  unchanged : ∀ thrown, (append json d s a).1 = .error thrown →
    (step json d s a).ledger.events = s.ledger.events ∧ (step json d s a).journal = s.journal

def Written (s : Backed) (a : Attempt) : Prop :=
  ∀ e, (EventLedger.append d s.ledger a.draft).1 = .ok e → a.failure = none

def StartsLine (s : Backed) (a : Attempt) : Prop :=
  ∀ e, (EventLedger.append d s.ledger a.draft).1 = .ok e → JsonHost.AtLine s.bytes

structure Kept (s : Backed) : Prop where
  verified : Verified d s.ledger.events
  lines : json.lines s.bytes = s.ledger.events.map .ok

variable {json d} {s : Backed} {a : Attempt}

theorem Kept.agrees (h : Kept json d s) : Agrees json d s := by
  obtain ⟨ledger, hload, hevents⟩ := JsonHost.loadFrom_lines h.verified h.lines
  exact ⟨_, hload, hevents⟩

theorem Kept.of_load {journal : Option Bytes} {opened : JsonHost.Opened} (h : json.loadFrom d journal = .ok opened) :
    Kept json d ⟨opened.ledger, opened.journal⟩ := by
  cases journal with
  | none =>
    cases h
    exact ⟨.nil, rfl⟩
  | some journal =>
    rw [JsonHost.loadFrom, EventLedger.loadFrom] at h
    cases hread : readLines (json.lines journal).length 0 (json.lines journal) with
    | error =>
      simp only [hread] at h
      cases h
    | ok read =>
      obtain ⟨records, torn⟩ := read
      simp only [hread] at h
      cases hrestore : restore d records with
      | error =>
        simp only [hrestore] at h
        cases h
      | ok ledger =>
        simp only [hrestore] at h
        cases h
        obtain ⟨rfl, -⟩ := restore_ok hrestore
        refine ⟨verified_of_restore hrestore, ?_⟩
        cases torn with
        | none => exact readLines_none hread
        | some => exact JsonHost.lines_written ledger.events

theorem append_cases (json : JsonHost) (d : Dialect) (s : Backed) (a : Attempt) :
    (∃ refusal, append json d s a = (.error (.refused refusal), s) ∧
      ∀ e, (EventLedger.append d s.ledger a.draft).1 ≠ .ok e) ∨
    ∃ e, (EventLedger.append d s.ledger a.draft).1 = .ok e ∧ (step json d s a).ledger.events = s.ledger.events ++ [e] ∧
      (a.failure = none → (append json d s a).1 = .ok e ∧ (step json d s a).journal = some (s.bytes ++ json.line e)) ∧
      (a.failure ≠ none → (append json d s a).1 = .error .notWritten) := by
  rcases EventLedger.append_cases d s.ledger a.draft with ⟨refusal, happend, -⟩ | ⟨-, -, hfresh, happend⟩
  · refine .inl ⟨refusal, ?_, ?_⟩
    · rw [append, happend]
    · rw [happend]
      intro e he
      cases he
  · refine .inr ⟨eventOf d s.ledger a.draft, by rw [happend], ?_⟩
    have hevents : (s.ledger.push (eventOf d s.ledger a.draft) hfresh).events =
      s.ledger.events ++ [eventOf d s.ledger a.draft] := rfl
    simp only [step, append, happend]
    cases a.failure with
    | none => exact ⟨hevents, fun _ ↦ ⟨rfl, rfl⟩, fun h ↦ absurd rfl h⟩
    | some written =>
      cases written with
      | zero | succ => exact ⟨hevents, (fun h ↦ by cases h), fun _ ↦ rfl⟩

theorem Kept.step (h : Kept json d s) (hwritten : Written d s a) (hline : StartsLine d s a) :
    Kept json d (step json d s a) ∧ Faithful json d s a := by
  rcases append_cases json d s a with ⟨refusal, happend, -⟩ | ⟨e, hok, hevents, hdone, -⟩
  · have hstep : Backed.step json d s a = s := by rw [Backed.step, happend]
    refine ⟨hstep.symm ▸ h, ⟨hstep.symm ▸ h.agrees, ?_⟩⟩
    intro _ _
    rw [hstep]
    exact ⟨rfl, rfl⟩
  · obtain ⟨hresult, hjournal⟩ := hdone (hwritten e hok)
    have hkept : Kept json d (Backed.step json d s a) := by
      refine ⟨?_, ?_⟩
      · rw [hevents]
        exact h.verified.snoc hok
      · rw [hevents, bytes, hjournal, Option.getD_some, JsonHost.lines_append (hline e hok), h.lines, JsonHost.lines_line,
          List.map_append]
        rfl
    refine ⟨hkept, hkept.agrees, ?_⟩
    intro thrown hthrown
    rw [hresult] at hthrown
    cases hthrown

theorem Faithful.written (h : Faithful json d s a) : Written d s a := by
  intro e he
  rcases append_cases json d s a with ⟨-, -, hnot⟩ | ⟨e', -, hevents, -, hfailed⟩
  · exact absurd he (hnot e)
  · by_contra hfailure
    have hunchanged := (h.unchanged _ (hfailed hfailure)).1
    rw [hevents] at hunchanged
    simp at hunchanged

end

end Backed

/-- On a ledger that was opened on any journal: where no write of an accepted event fails and
each starts a line, memory and journal agree after every call and a throw leaves both as they
were; and no run in which a write fails is like that. -/
theorem memory_agrees_with_journal (json : JsonHost) (host : Host) {journal : Option Bytes} {opened : JsonHost.Opened}
    (hload : json.loadFrom (js host) journal = .ok opened) (attempts : List Attempt) :
    (Run.Along (Backed.step json (js host))
        (fun s a ↦ Backed.Written (js host) s a ∧ Backed.StartsLine (js host) s a) ⟨opened.ledger, opened.journal⟩ attempts →
      Run.Along (Backed.step json (js host)) (Backed.Faithful json (js host)) ⟨opened.ledger, opened.journal⟩ attempts) ∧
    (Run.Along (Backed.step json (js host)) (Backed.Faithful json (js host)) ⟨opened.ledger, opened.journal⟩ attempts →
      Run.Along (Backed.step json (js host)) (Backed.Written (js host)) ⟨opened.ledger, opened.journal⟩ attempts) := by
  constructor
  · intro h
    exact h.imp (fun s a hs ha ↦ Backed.Kept.step hs ha.1 ha.2) (Backed.Kept.of_load hload)
  · intro h
    exact h.mono fun s a ↦ Backed.Faithful.written

theorem memory_agrees_with_journal_twice :
    Run.Along (Backed.step .sample (js .sample)) (Backed.Faithful .sample (js .sample)) ⟨.empty, none⟩
      [⟨firstDraft, none⟩, ⟨secondDraft, none⟩] := by
  have hfirst : (Backed.step .sample (js .sample) ⟨.empty, none⟩ ⟨firstDraft, none⟩).bytes.getLast? =
      some Utf8.newline := by decide +kernel
  have hopened : JsonHost.sample.loadFrom (js .sample) none = .ok ⟨.empty, none, none⟩ := rfl
  apply (memory_agrees_with_journal .sample .sample hopened _).1
  refine ⟨⟨fun _ _ ↦ rfl, fun _ _ ↦ .inl rfl⟩, ⟨fun _ _ ↦ rfl, fun _ _ ↦ .inr hfirst⟩, trivial⟩

theorem failed_write_stays_in_memory :
    ((Backed.step .sample (js .sample) ⟨.empty, none⟩ ⟨firstDraft, some 0⟩).ledger.events.map fun e ↦ e.id) = ["e1"] ∧
      (Backed.step .sample (js .sample) ⟨.empty, none⟩ ⟨firstDraft, some 0⟩).journal = none ∧
      (JsonHost.sample.loadFrom (js .sample) (Run.after (Backed.step .sample (js .sample)) ⟨.empty, none⟩
        [⟨firstDraft, some 0⟩, ⟨secondDraft, none⟩]).journal).isOk = false := by
  decide +kernel

end Noesar.Events
