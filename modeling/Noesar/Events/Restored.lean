import Noesar.Events.Accepted

namespace Noesar.Events.EventLedger

open Lib Lib.Framing Lib.Causes Capability

variable (d : Dialect)

def Appends (drafts : List EventDraft) (records : List Event) : Prop :=
  Run.Along (fun ledger draft ↦ (append d ledger draft).2)
    (fun ledger draft ↦ ∃ event, (append d ledger draft).1 = .ok event) .empty drafts ∧
  (recorded d drafts).events = records

section

variable {d} {ledger : EventLedger} {records : List Event}

theorem Appends.nil : Appends d [] [] := ⟨trivial, rfl⟩

theorem Appends.snoc {drafts : List EventDraft} (h : Appends d drafts records) {e : Event}
    (he : Admits d records e) : Appends d (drafts ++ [e.toEventDraft]) (records ++ [e]) := by
  obtain ⟨halong, rfl⟩ := h
  have hok := append_ok_iff.mpr ⟨rfl, he⟩
  refine ⟨Run.Along.append.mpr ⟨halong, ⟨e, hok⟩, trivial⟩, ?_⟩
  rw [recorded, Run.after_snoc]
  exact append_events hok

theorem appends_of_built (hbuilt : Built (Admits d) records) : ∃ drafts, Appends d drafts records := by
  induction records using List.reverseRecOn with
  | nil => exact ⟨[], .nil⟩
  | append_singleton records e ih =>
    obtain ⟨hrecords, he⟩ := built_snoc.mp hbuilt
    obtain ⟨drafts, hdrafts⟩ := ih hrecords
    exact ⟨drafts ++ [e.toEventDraft], hdrafts.snoc he⟩

theorem restoreAll_events {ledger' : EventLedger} (h : restoreAll ledger records = .ok ledger') :
    ledger'.events = ledger.events ++ records := by
  induction records generalizing ledger with
  | nil =>
    cases h
    exact (List.append_nil _).symm
  | cons record records ih =>
    rw [restoreAll] at h
    split at h
    · cases h
    · rw [ih h]
      simp [push]

theorem restore_ok (h : restore d records = .ok ledger) : ledger.events = records ∧ ledger.verify d = none := by
  unfold restore at h
  split at h
  · cases h
  next ledger' hall =>
    split at h
    · cases h
    next hvalid =>
      cases h
      exact ⟨restoreAll_events hall, hvalid⟩

theorem restored_appends_iff (h : restore d records = .ok ledger) :
    ((∃ drafts, Appends d drafts records) ∧ Sound d ledger) ↔ Built (Allowed d) records := by
  obtain ⟨rfl, hvalid⟩ := restore_ok h
  constructor
  · rintro ⟨⟨drafts, -, hevents⟩, -⟩
    have hbuilt := recorded_built (d := d) drafts
    rw [hevents] at hbuilt
    exact fun earlier e later hsplit ↦ (hbuilt earlier e later hsplit).1
  · intro hallowed
    have hfresh : Built Fresh ledger.events := (nodup_map_iff _).mp (ids_nodup ledger)
    have hchained := verify_none_iff.mp hvalid
    refine ⟨appends_of_built fun earlier e later hsplit ↦ ?_, sound_of_built hallowed hvalid⟩
    exact ⟨hallowed earlier e later hsplit, hfresh earlier e later hsplit, hchained earlier e later hsplit⟩

theorem readLines_ok {lines position : ℕ} {rest : List (Except String Event)} {torn : Option ℕ}
    (h : readLines lines position rest = .ok (records, torn)) : records = rest.filterMap Except.toOption := by
  induction rest generalizing position records torn with
  | nil =>
    cases h
    rfl
  | cons line rest ih =>
    cases line with
    | error =>
      cases rest with
      | nil =>
        cases h
        rfl
      | cons => cases h
    | ok =>
      rw [readLines] at h
      cases hrest : readLines lines (position + 1) rest with
      | error =>
        rw [hrest] at h
        cases h
      | ok read =>
        obtain ⟨records', torn'⟩ := read
        rw [hrest] at h
        cases h
        rw [ih hrest]
        rfl

theorem loadFrom_ok {lines : List (Except String Event)} {loaded : Loaded} (h : loadFrom d lines = .ok loaded) :
    restore d (lines.filterMap Except.toOption) = .ok loaded.ledger := by
  unfold loadFrom at h
  split at h
  · cases h
  next records torn hread =>
    split at h
    · cases h
    next ledger hrestore =>
      cases h
      rw [← readLines_ok hread]
      exact hrestore

end

section Sample

def soleRecord (d : Dialect) (causationId : Option String) : Event :=
  let draft : EventDraft := ⟨"e1", "run-1", causationId, "owner", "plan.approved", "", 1⟩
  ⟨draft, genesis, d.digestOf draft genesis⟩

def soleLedger (record : Event) : EventLedger := EventLedger.empty.push record rfl

end Sample

theorem restore_sole (d : Dialect) (causationId : Option String) :
    restore d [soleRecord d causationId] = .ok (soleLedger (soleRecord d causationId)) := by
  have hverify : (soleLedger (soleRecord d causationId)).verify d = none := by
    simp [verify, soleLedger, push, empty, checkFrom, soleRecord]
  have hall : restoreAll .empty [soleRecord d causationId] = .ok (soleLedger (soleRecord d causationId)) := rfl
  rw [restore, hall]
  dsimp only
  rw [hverify]

theorem causalChain_own_cause {d : Dialect} (hcause : d.namesCause "e1" = true) (fuel : ℕ) :
    causalChain d (soleLedger (soleRecord d (some "e1"))) fuel "e1" = none := by
  have hget : (soleLedger (soleRecord d (some "e1"))).get "e1" = some (soleRecord d (some "e1")) :=
    get_some_iff.mpr ⟨by simp [soleLedger, push], rfl⟩
  have hown : d.cause (soleRecord d (some "e1")).toEventDraft = some "e1" := by
    simp [Dialect.cause, soleRecord, hcause]
  rw [causalChain, hget, @walk_own_cause Event String _ (fun event ↦ d.cause event.toEventDraft) _ _ hown hget]
  rfl

theorem allowed_root {d : Dialect} (hid : d.isBlank "e1" = false) (hrun : d.isBlank "run-1" = false)
    (haction : d.isBlank "plan.approved" = false) : Built (Allowed d) [soleRecord d none] := by
  rw [← List.nil_append [soleRecord d none], built_snoc]
  refine ⟨built_nil, ⟨hid, hrun⟩, haction, ?_, by simp⟩
  intro c hc
  cases hc

end Noesar.Events.EventLedger
