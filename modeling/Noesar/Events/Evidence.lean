import Noesar.Events.Restored
import Noesar.Lib.Numeral

namespace Noesar.Events.EventLedger

open Lib Lib.Framing Lib.Causes Capability

def fed (d : Dialect) (draft : EventDraft) (previous : String) : List String :=
  [previous, draft.id, draft.correlationId, draft.causationId.getD "", draft.actor, draft.action, draft.payload,
    d.timeText draft.recordedAtUnix]

/-- The same record but for a cause that the one lacks and the other has as the empty text. -/
def SameButAbsence (e f : Event) : Prop :=
  f = { e with causationId := f.causationId } ∧ f.causationId.getD "" = e.causationId.getD ""

/-- The same records, with an absent cause written as an empty one or an empty one left out
in at least one of them. -/
def Disguised (a b : List Event) : Prop := List.Forall₂ SameButAbsence a b ∧ a ≠ b

/-- What is assumed of the platform where two ledgers are compared: that its hash tells their
messages apart, and that no text is so long that the eight bytes of its length wrap around. -/
structure Distinguished (d : Dialect) (a b : List Event) : Prop where
  sha256 : ∀ e ∈ a, ∀ f ∈ b, d.sha256 (feedAll (fed d e.toEventDraft e.previousDigest)) =
      d.sha256 (feedAll (fed d f.toEventDraft f.previousDigest)) →
    feedAll (fed d e.toEventDraft e.previousDigest) = feedAll (fed d f.toEventDraft f.previousDigest)
  fits : ∀ e ∈ a ++ b, ∀ s ∈ fed d e.toEventDraft e.previousDigest, Fits s

def Timed (d : Dialect) (a b : List Event) : Prop :=
  ∀ e ∈ a, ∀ f ∈ b, d.timeText e.recordedAtUnix = d.timeText f.recordedAtUnix → e.recordedAtUnix = f.recordedAtUnix

section

variable {d : Dialect} {a b : List Event} {e f : Event}

theorem digestOf_length (draft : EventDraft) (previous : String) : (d.digestOf draft previous).length = 64 := by
  rw [Dialect.digestOf, hex_length, Vector.length_toList]

theorem digestOf_ne_genesis (draft : EventDraft) (previous : String) : d.digestOf draft previous ≠ genesis := by
  intro h
  have hlength := congrArg String.length h
  rw [digestOf_length] at hlength
  cases hlength

theorem SameButAbsence.of_fields (hdigest : e.digest = f.digest) (hprevious : e.previousDigest = f.previousDigest)
    (hid : e.id = f.id) (hcorrelation : e.correlationId = f.correlationId)
    (hcause : e.causationId.getD "" = f.causationId.getD "") (hactor : e.actor = f.actor)
    (haction : e.action = f.action) (hpayload : e.payload = f.payload)
    (htime : e.recordedAtUnix = f.recordedAtUnix) : SameButAbsence e f := by
  refine ⟨?_, hcause.symm⟩
  obtain ⟨⟨id, correlationId, causationId, actor, action, payload, recordedAtUnix⟩, previous, digest⟩ := f
  dsimp only at hdigest hprevious hid hcorrelation hcause hactor haction hpayload htime ⊢
  rw [hdigest, hprevious, hid, hcorrelation, hactor, haction, hpayload, htime]

theorem sameButAbsence_of_digest (hab : Distinguished d a b) (htimes : Timed d a b) (he : e ∈ a) (hf : f ∈ b)
    (hedigest : e.digest = d.digestOf e.toEventDraft e.previousDigest)
    (hfdigest : f.digest = d.digestOf f.toEventDraft f.previousDigest) (h : e.digest = f.digest) :
    e.previousDigest = f.previousDigest ∧ SameButAbsence e f := by
  have hhash : d.sha256 (feedAll (fed d e.toEventDraft e.previousDigest)) =
      d.sha256 (feedAll (fed d f.toEventDraft f.previousDigest)) := by
    have hhex : d.digestOf e.toEventDraft e.previousDigest = d.digestOf f.toEventDraft f.previousDigest := by
      rw [← hedigest, ← hfdigest, h]
    exact Vector.toList_inj.mp (hex_injective hhex)
  have hfields := feedAll_inj (hab.fits e (by simp [he])) (hab.fits f (by simp [hf])) (hab.sha256 e he f hf hhash)
  simp only [fed, List.cons.injEq, and_true] at hfields
  obtain ⟨hprevious, hid, hcorrelation, hcause, hactor, haction, hpayload, htime⟩ := hfields
  exact ⟨hprevious, .of_fields h hprevious hid hcorrelation hcause hactor haction hpayload (htimes e he f hf htime)⟩

theorem SameButAbsence.digestOf (h : SameButAbsence e f) (previous : String) :
    d.digestOf f.toEventDraft previous = d.digestOf e.toEventDraft previous := by
  obtain ⟨hf, hcause⟩ := h
  rw [Dialect.digestOf, hcause, hf]
  rfl

theorem checkFrom_same (h : List.Forall₂ SameButAbsence a b) (previous : String) (position : ℕ) :
    checkFrom d previous position b = checkFrom d previous position a := by
  induction h generalizing previous position with
  | nil => rfl
  | @cons e f a b hef _ ih =>
    have hprevious : f.previousDigest = e.previousDigest := by rw [hef.1]
    have hdigest : f.digest = e.digest := by rw [hef.1]
    rw [checkFrom, checkFrom, hprevious, hdigest, hef.digestOf, ih]

theorem previousDigest_same (h : List.Forall₂ SameButAbsence a b) : previousDigest b = previousDigest a := by
  have hdigests : a.map Event.digest = b.map Event.digest := by
    rw [← List.forall₂_eq_eq_eq, List.forall₂_map_left_iff, List.forall₂_map_right_iff]
    apply h.imp
    intro e f hef
    rw [hef.1]
  rw [previousDigest, previousDigest, ← List.getLast?_map, ← List.getLast?_map, hdigests]

theorem chained_agree (hab : Distinguished d a b) (htimes : Timed d a b) (ha : Built (Chained d) a)
    (hb : Built (Chained d) b) (hlast : previousDigest a = previousDigest b) : List.Forall₂ SameButAbsence a b := by
  have hdigest {xs : List Event} (hxs : Built (Chained d) xs) {e : Event} (he : e ∈ xs) :
      e.digest = d.digestOf e.toEventDraft e.previousDigest := by
    obtain ⟨earlier, later, hsplit⟩ := List.append_of_mem he
    exact (hxs earlier e later hsplit).2
  have hagree := @chains_agree Event String Event.digest Event.previousDigest genesis SameButAbsence a b
  apply hagree
  · exact fun earlier e later hsplit ↦ (ha earlier e later hsplit).1
  · exact fun earlier e later hsplit ↦ (hb earlier e later hsplit).1
  · intro e he f hf
    exact sameButAbsence_of_digest hab htimes he hf (hdigest ha he) (hdigest hb hf)
  · intro e he
    rw [hdigest ha he]
    exact digestOf_ne_genesis _ _
  · intro f hf
    rw [hdigest hb hf]
    exact digestOf_ne_genesis _ _
  · exact hlast

theorem timed_rust (host : Host) (a b : List Event) : Timed (rust host) a b := by
  intro e _ f _ h
  exact Decimal.int_toString_injective h

theorem timed_js {host : Host} (hexact : ∀ e ∈ a ++ b, round53 e.recordedAtUnix = e.recordedAtUnix)
    (hnumber : ∀ e ∈ a, ∀ f ∈ b, host.numberToString (.ofRat e.recordedAtUnix) =
      host.numberToString (.ofRat f.recordedAtUnix) →
        Number.ofRat e.recordedAtUnix = Number.ofRat f.recordedAtUnix) : Timed (js host) a b := by
  intro e he f hf h
  have hsame := hnumber e he f hf h
  have hround : round53 e.recordedAtUnix = round53 f.recordedAtUnix := by
    simpa [Number.ofRat, Binary64.ofRat] using hsame
  rw [hexact e (by simp [he]), hexact f (by simp [hf])] at hround
  exact_mod_cast hround

end

def Evident (d : Dialect) (a b : EventLedger) : Prop :=
  b.verify d = none → b.events.length = a.events.length → previousDigest b.events = previousDigest a.events →
    a.events = b.events

theorem evident_iff {d : Dialect} {a b : EventLedger} (hab : Distinguished d a.events b.events)
    (htimes : Timed d a.events b.events) (ha : a.verify d = none) :
    (b.verify d = none → previousDigest b.events = previousDigest a.events →
      b.events.length = a.events.length) ∧ (Evident d a b ↔ ¬ Disguised a.events b.events) := by
  have hagree (hb : b.verify d = none) (hlast : previousDigest b.events = previousDigest a.events) :
      List.Forall₂ SameButAbsence a.events b.events :=
    chained_agree hab htimes (verify_none_iff.mp ha) (verify_none_iff.mp hb) hlast.symm
  refine ⟨fun hb hlast ↦ (hagree hb hlast).length_eq.symm, ?_, ?_⟩
  · rintro hevident ⟨hsame, hne⟩
    apply hne
    apply hevident
    · rw [verify, checkFrom_same hsame]
      exact ha
    · exact hsame.length_eq.symm
    · exact previousDigest_same hsame
  · intro hnot hb _ hlast
    by_contra hne
    exact hnot ⟨hagree hb hlast, hne⟩

theorem soleLedger_verify (d : Dialect) (causationId : Option String) :
    (soleLedger (soleRecord d causationId)).verify d = none := (restore_ok (restore_sole d causationId)).2

end Noesar.Events.EventLedger
