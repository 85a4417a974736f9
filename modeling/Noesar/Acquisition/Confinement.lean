import Noesar.Acquisition.Transport

namespace Noesar.Acquisition

open Lib Lib.Framing Lib.Run

/-- A URL is read from its own text as it is, and its text is not empty. -/
structure Web.Lawful (web : Web) : Prop where
  reparses : ∀ url, web.parse (web.href url) = some url
  href_ne : ∀ url, web.href url ≠ ""

def Source.isAllowed {web : Web} : Source web → Bool
  | .allowed _ => true
  | .refused _ _ => false

variable {web : Web} {o : FetchOptions}

/-- Where the transfer has come to is in step with what it has counted, hashed and written. -/
def Phase.Kept (o : FetchOptions) (t : Transfer web) : Phase web → Prop
  | .fetching _ => t.started = false ∧ t.written = [] ∧ t.aborted = false ∧ t.closed = false ∧ t.received = 0 ∧
      t.fetched.length = t.hop + 1
  | .reading _ _ | .writing _ _ => t.started = true ∧ t.aborted = false ∧ t.closed = false ∧ t.received = t.written.length
  | .returned (.ok digest bytes _) => t.closed = true ∧ t.aborted = false ∧ digest = hex (web.sha256 t.written) ∧
      bytes = t.written.length ∧ ∀ expected, o.expectedSha256 = some expected → digest = expected.toLower
  | .returned (.refused kind _ _) => t.started = true → kind ≠ .digestMismatch → t.aborted = true
  | .threw _ => o.closeThrows ≠ none ∨ o.abortThrows ≠ none

structure Going (o : FetchOptions) (t : Transfer web) : Prop where
  sources : ∀ url ∈ t.fetched, (checkSource web (some url)).isAllowed
  hops : t.hop ≤ o.maxRedirects
  fetches : t.fetched.length ≤ t.hop + 1
  hashed : t.hashed = t.written
  capped : ∀ cap, o.cap = some cap → (t.written.length : ℚ) ≤ cap

structure Kept (o : FetchOptions) (t : Transfer web) : Prop extends Going o t where
  phase : t.phase.Kept o t

theorem positive_pos {n : Number} {q : ℚ} (h : positive n = some q) : 0 < q := by
  cases n with
  | finite =>
    rw [positive] at h
    split at h
    · next hpos => exact Option.some.inj h ▸ hpos
    · cases h
  | _ => cases h

theorem checkSource_allowed {source : Option String} {url : web.Url} (h : checkSource web source = .allowed url) :
    web.protocol url = "https:" ∨ web.protocol url = "http:" ∧ isLoopback (web.hostname url) = true := by
  unfold checkSource at h
  split at h
  · cases h
  · split at h
    · cases h
    · split at h
      · next hhttps =>
        cases h
        exact .inl hhttps
      · split at h
        · next hhttp =>
          cases h
          exact .inr hhttp
        · split at h
          · cases h
          · cases h

theorem checkSource_href (hlawful : web.Lawful) {source : Option String} {url : web.Url}
    (h : checkSource web source = .allowed url) : (checkSource web (some (web.href url))).isAllowed = true := by
  have hsource : (some (web.href url)).filter (· ≠ "") = some (web.href url) := by
    simp [Option.filter, hlawful.href_ne url]
  rw [checkSource, hsource]
  dsimp only
  rw [hlawful.reparses]
  dsimp only
  rcases checkSource_allowed h with hhttps | hhttp
  · rw [if_pos hhttps]
    rfl
  · by_cases hhttps : web.protocol url = "https:"
    · rw [if_pos hhttps]
      rfl
    · rw [if_neg hhttps, if_pos hhttp]
      rfl

section Rules

variable {t : Transfer web}

theorem Going.kept (h : Going o t) (phase : Phase web) (hphase : phase.Kept o t) : Kept o { t with phase := phase } := by
  refine { h with phase := ?_ }
  cases phase with
  | returned result => cases result <;> exact hphase
  | _ => exact hphase

theorem Going.refuse (h : Going o t) (hstarted : t.started = false) (kind : TransportRefusal) (reason : String)
    (extra : Extra) : Kept o (t.refuse kind reason extra) := by
  refine h.kept (.returned (.refused kind reason extra)) fun hs ↦ ?_
  exact absurd (hstarted.symm.trans hs) Bool.noConfusion

theorem Going.abort (h : Going o t) (kind : TransportRefusal) (reason : String) (extra : Extra) :
    Kept o (t.abort o (.refused kind reason extra)) := by
  have haborted : Going o { t with aborted := true } := { h with }
  rw [Transfer.abort]
  split
  · next message hthrows =>
    exact haborted.kept (.threw message) (.inr fun hnone ↦ by cases hthrows.symm.trans hnone)
  · exact haborted.kept (.returned (.refused kind reason extra)) fun _ _ ↦ rfl

theorem Going.caught (h : Going o t) (failure : Failure) (aborted : Bool) : Kept o (t.caught o failure aborted) := by
  unfold Transfer.caught
  split
  · exact h.abort _ _ _
  · cases failure with
    | transport | other => exact h.abort _ _ _

variable {current : web.Url} {totalBytes : Option ℚ}

theorem Going.readFrom (h : Going o t) (hopen : (Phase.reading current totalBytes).Kept o t) (aborted : Bool) :
    Kept o (t.readFrom o current totalBytes aborted) := by
  rw [Transfer.readFrom]
  split
  · exact h.abort _ _ _
  · exact h.kept (.reading current totalBytes) hopen

theorem Going.fetchFrom (hlawful : web.Lawful) (h : Going o t) (hbefore : t.started = false ∧ t.written = [] ∧
    t.aborted = false ∧ t.closed = false ∧ t.received = 0 ∧ t.fetched.length = t.hop) {source : Option String}
    (hallowed : checkSource web source = .allowed current) (aborted : Bool) :
    Kept o (t.fetchFrom current aborted) := by
  obtain ⟨hstarted, hwritten, haborted, hclosed, hreceived, hlength⟩ := hbefore
  rw [Transfer.fetchFrom]
  split
  · exact h.refuse hstarted _ _ _
  · have hfetches : (t.fetched ++ [web.href current]).length = t.hop + 1 := by simp [hlength]
    refine { h with
      sources := fun url hurl ↦ ?_
      fetches := hfetches.le
      phase := ⟨hstarted, hwritten, haborted, hclosed, hreceived, hfetches⟩ }
    rcases List.mem_append.mp hurl with hmem | hlast
    · exact h.sources url hmem
    · obtain rfl := List.mem_singleton.mp hlast
      exact checkSource_href hlawful hallowed

theorem Going.redirect (hlawful : web.Lawful) (h : Going o t) (hbefore : (Phase.fetching current).Kept o t)
    (response : Response) (aborted : Bool) : Kept o (t.redirect o current response aborted) := by
  have hstarted := hbefore.1
  unfold Transfer.redirect
  split
  · exact h.refuse hstarted _ _ _
  · next hhops =>
    split
    · exact h.refuse hstarted _ _ _
    · split
      · split
        · exact h.refuse hstarted _ _ _
        · exact h.refuse hstarted _ _ _
      · split
        · exact h.refuse hstarted _ _ _
        · next hallowed =>
          have hgoing : Going o { t with hop := t.hop + 1 } :=
            { h with
              hops := Nat.succ_le_of_lt (not_le.mp hhops)
              fetches := h.fetches.trans (Nat.le_succ _) }
          exact hgoing.fetchFrom hlawful hbefore hallowed aborted

theorem Going.begin (h : Going o t) (hbefore : (Phase.fetching current).Kept o t) (response : Response)
    (aborted : Bool) : Kept o (t.begin o current response aborted) := by
  obtain ⟨hstarted, hwritten, haborted, hclosed, hreceived, -⟩ := hbefore
  have hgoing : Going o { t with started := true } := { h with }
  have hopen : (Phase.reading current (@Transfer.declaredLength web response)).Kept o { t with started := true } :=
    ⟨rfl, haborted, hclosed, by rw [hwritten]; exact hreceived⟩
  have hread := hgoing.readFrom hopen aborted
  unfold Transfer.begin
  split
  · exact h.refuse hstarted _ _ _
  · split
    · exact h.refuse hstarted _ _ _
    · dsimp only
      split
      · split
        · exact h.refuse hstarted _ _ _
        · exact hread
      · exact hread

theorem Going.write (h : Going o t) (hopen : (Phase.reading current totalBytes).Kept o t) {value : Bytes}
    (hcap : ∀ cap, o.cap = some cap → ((t.received + value.length : ℕ) : ℚ) ≤ cap) :
    Kept o { t with
      received := t.received + value.length
      hashed := t.hashed ++ value
      written := t.written ++ value
      phase := .writing current totalBytes } := by
  obtain ⟨hstarted, haborted, hclosed, hreceived⟩ := hopen
  have hlength : (t.written ++ value).length = t.received + value.length := by rw [List.length_append, hreceived]
  refine { h with
    hashed := congrArg (· ++ value) h.hashed
    capped := fun cap hc ↦ ?_
    phase := ⟨hstarted, haborted, hclosed, hlength.symm⟩ }
  change ((t.written ++ value).length : ℚ) ≤ cap
  rw [hlength]
  exact hcap cap hc

theorem Going.take (h : Going o t) (hopen : (Phase.reading current totalBytes).Kept o t) (value : Bytes)
    (aborted : Bool) :
    Kept o (t.take o current totalBytes value aborted) := by
  unfold Transfer.take
  split
  · exact h.readFrom hopen aborted
  · have hcounted : Going o { t with received := t.received + value.length } := { h with }
    dsimp only
    split
    · next cap hcap =>
      split
      · exact hcounted.abort _ _ _
      · next hle =>
        refine h.write hopen fun cap' hcap' ↦ ?_
        obtain rfl := Option.some.inj (hcap.symm.trans hcap')
        exact not_lt.mp hle
    · next hnone => exact h.write hopen fun cap hcap ↦ by cases hnone.symm.trans hcap

theorem Going.close (h : Going o t) (hopen : (Phase.reading current totalBytes).Kept o t) :
    Kept o (t.close o current) := by
  obtain ⟨hstarted, haborted, -, hreceived⟩ := hopen
  have hclosed : Going o { t with closed := true } := { h with }
  have hdigest : hex (web.sha256 t.hashed) = hex (web.sha256 t.written) := by rw [h.hashed]
  rw [Transfer.close]
  split
  · next message hthrows => exact hclosed.kept (.threw message) (.inl fun hnone ↦ by cases hthrows.symm.trans hnone)
  · rw [Transfer.compare]
    split
    · next hnone =>
      refine hclosed.kept (.returned (.ok _ _ _)) ⟨rfl, haborted, hdigest, hreceived, fun expected he ↦ ?_⟩
      cases hnone.symm.trans he
    · next expected hsome =>
      split
      · exact hclosed.kept (.returned (.refused _ _ _)) fun _ hne ↦ absurd rfl hne
      · next heq =>
        refine hclosed.kept (.returned (.ok _ _ _)) ⟨rfl, haborted, hdigest, hreceived, fun expected' he ↦ ?_⟩
        obtain rfl := Option.some.inj (hsome.symm.trans he)
        exact not_not.mp heq

theorem Kept.onEvent (hlawful : web.Lawful) (h : Kept o t) (e : TransferEvent) : Kept o (t.onEvent o e) := by
  have hphase := h.phase
  unfold Transfer.onEvent
  split
  · next current response aborted heq =>
    rw [heq] at hphase
    split
    · exact h.toGoing.redirect hlawful hphase response aborted
    · exact h.toGoing.begin hphase response aborted
  · next message aborted heq =>
    rw [heq] at hphase
    split
    · exact h.toGoing.refuse hphase.1 _ _ _
    · exact h.toGoing.refuse hphase.1 _ _ _
  · next current totalBytes value aborted heq =>
    rw [heq] at hphase
    exact h.toGoing.take hphase value aborted
  · next current _ heq =>
    rw [heq] at hphase
    exact h.toGoing.close hphase
  · exact h.toGoing.caught _ _
  · split
    · exact h.toGoing.caught _ _
    · exact h
  · next current totalBytes progress aborted heq =>
    rw [heq] at hphase
    split
    · exact h.toGoing.readFrom hphase aborted
    · exact h.toGoing.caught _ _
  · exact h.toGoing.caught _ _
  · exact h

theorem kept_streamToSink (hlawful : web.Lawful) (o : FetchOptions) (aborted : Bool) : Kept o (streamToSink web o aborted) := by
  have hidle (phase : Phase web) : Going o (idle web phase) := by
    refine ⟨fun url hurl ↦ absurd hurl List.not_mem_nil, Nat.zero_le _, Nat.zero_le _, rfl, fun cap hcap ↦ ?_⟩
    simpa [idle] using (positive_pos hcap).le
  rw [streamToSink]
  split
  · next kind reason _ => exact (hidle (.returned (.refused kind reason .none))).kept _ fun hs _ ↦ absurd hs Bool.noConfusion
  · next url hallowed => exact (hidle (.fetching url)).fetchFrom hlawful ⟨rfl, rfl, rfl, rfl, rfl, rfl⟩ hallowed aborted

end Rules

/-- What the transfer waits for does not come: the source, the next bytes before their deadline, or the sink. -/
def Phase.Fails (o : FetchOptions) : Phase web → TransferEvent → Prop
  | .fetching _, .unreachable _ _ => True
  | .reading _ _, .unreadable _ _ => True
  | .reading _ _, .stalled _ => positive o.stallTimeoutMs ≠ none
  | .writing _ _, .unwritable _ _ => True
  | .writing _ _, .accepted (some _) _ => True
  | _, _ => False

structure Confined (o : FetchOptions) (t : Transfer web) : Prop where
  sources : ∀ url ∈ t.fetched, (checkSource web (some url)).isAllowed
  fetches : t.fetched.length ≤ o.maxRedirects + 1
  capped : ∀ cap, o.cap = some cap → (t.written.length : ℚ) ≤ cap
  ok : ∀ digest bytes source, t.phase = .returned (.ok digest bytes source) →
    (∀ expected, o.expectedSha256 = some expected → hex (web.sha256 t.written) = expected.toLower) ∧
      t.closed = true ∧ t.aborted = false
  refused : ∀ kind reason extra, t.phase = .returned (.refused kind reason extra) → t.started = true →
    kind ≠ .digestMismatch → t.aborted = true
  thrown : ∀ message, t.phase = .threw message → ∃ expected, o.expectedSha256 = some expected ∧ hex64 expected = false
  failed : ∀ e, t.phase.Fails o e → ∃ kind reason extra, (t.onEvent o e).phase = .returned (.refused kind reason extra)

variable {t : Transfer web}

theorem abort_phase (habort : o.abortThrows = none) (result : FetchResult) :
    (t.abort o result).phase = .returned result := by
  rw [Transfer.abort, habort]

theorem caught_phase (habort : o.abortThrows = none) (failure : Failure) (aborted : Bool) :
    ∃ kind reason extra, (t.caught o failure aborted).phase = .returned (.refused kind reason extra) := by
  unfold Transfer.caught
  split
  · exact ⟨_, _, _, abort_phase habort _⟩
  · cases failure with
    | transport | other => exact ⟨_, _, _, abort_phase habort _⟩

theorem onEvent_fails (habort : o.abortThrows = none) {e : TransferEvent} (h : t.phase.Fails o e) :
    ∃ kind reason extra, (t.onEvent o e).phase = .returned (.refused kind reason extra) := by
  unfold Transfer.onEvent
  cases hphase : t.phase with
  | fetching =>
    rw [hphase] at h
    cases e with
    | unreachable =>
      dsimp only
      split
      · exact ⟨_, _, _, rfl⟩
      · exact ⟨_, _, _, rfl⟩
    | _ => exact absurd h id
  | reading =>
    rw [hphase] at h
    cases e with
    | unreadable failure aborted => exact caught_phase habort failure aborted
    | stalled aborted =>
      dsimp only
      cases hms : positive o.stallTimeoutMs with
      | none => exact absurd hms h
      | some => exact caught_phase habort _ aborted
    | _ => exact absurd h id
  | writing =>
    rw [hphase] at h
    cases e with
    | unwritable failure aborted => exact caught_phase habort failure aborted
    | accepted progress aborted =>
      cases progress with
      | none => exact absurd h id
      | some failure => exact caught_phase habort failure aborted
    | _ => exact absurd h id
  | returned | threw =>
    rw [hphase] at h
    exact absurd h id

theorem Kept.confined (h : Kept o t) (hclose : o.closeThrows = none) (habort : o.abortThrows = none) :
    Confined o t where
  sources := h.sources
  fetches := h.fetches.trans (Nat.succ_le_succ h.hops)
  capped := h.capped
  ok digest bytes source hphase := by
    have hkept := h.phase
    rw [hphase] at hkept
    obtain ⟨hclosed, haborted, hdigest, -, hexpected⟩ := hkept
    exact ⟨fun expected he ↦ hdigest ▸ hexpected expected he, hclosed, haborted⟩
  refused kind reason extra hphase := by
    have hkept := h.phase
    rw [hphase] at hkept
    exact hkept
  thrown message hphase := by
    have hkept := h.phase
    rw [hphase] at hkept
    rcases hkept with hthrows | hthrows
    · exact absurd hclose hthrows
    · exact absurd habort hthrows
  failed _ hfails := onEvent_fails habort hfails

theorem confined_after (hlawful : web.Lawful) (hclose : o.closeThrows = none) (habort : o.abortThrows = none)
    (aborted : Bool) (events : List TransferEvent) :
    Confined o (after (Transfer.onEvent o) (streamToSink web o aborted) events) :=
  (invariant (I := Kept o) (fun _ e h ↦ h.onEvent hlawful e) (kept_streamToSink hlawful o aborted) events).confined
    hclose habort

/-- Whatever the source answers, and whenever it is asked to stop: an artefact, and a document, are fetched from where
they may be only, no more of them is written than may be, and what is returned is what was written. -/
theorem transfer_confined (hlawful : web.Lawful) (o : FetchOptions) (hclose : o.closeThrows = none)
    (habort : o.abortThrows = none) (expectedSha256 : String) (maxBytes : Option Number) (aborted : Bool)
    (events : List TransferEvent) :
    Confined (o.artefact expectedSha256)
      (after (Transfer.onEvent (o.artefact expectedSha256)) (fetchArtefact web o expectedSha256 aborted) events) ∧
    Confined (o.document maxBytes)
      (after (Transfer.onEvent (o.document maxBytes)) (fetchDocument web o maxBytes aborted) events) := by
  refine ⟨?_, confined_after hlawful rfl rfl aborted events⟩
  rw [fetchArtefact]
  split
  · next hhex =>
    have hstays : ∀ (t : Transfer web) (e : TransferEvent),
        t = idle web (.threw "a 64-character sha256 the publisher declared is required") →
        t.onEvent (o.artefact expectedSha256) e = t := by
      rintro t e rfl
      cases e <;> rfl
    have hafter := @invariant _ _ (Transfer.onEvent (o.artefact expectedSha256))
      (fun t ↦ t = idle web (.threw "a 64-character sha256 the publisher declared is required"))
      (fun t e ht ↦ (hstays t e ht).trans ht) _ rfl events
    rw [hafter]
    refine ⟨fun url hurl ↦ absurd hurl List.not_mem_nil, Nat.zero_le _, fun cap hcap ↦ ?_, ?_, ?_, ?_, ?_⟩
    · simpa [idle] using (positive_pos hcap).le
    · intro digest bytes source hphase
      cases hphase
    · intro kind reason extra hphase
      cases hphase
    · exact fun message _ ↦ ⟨expectedSha256, rfl, hhex⟩
    · exact fun e hfails ↦ absurd hfails id
  · exact confined_after (o := o.artefact expectedSha256) hlawful hclose habort aborted events

section Sample

def onePlace : Web where
  Url := Unit
  parse source := if source = "https://mirror.example/" then some () else none
  join location _ := if location = "/" then some () else none
  href _ := "https://mirror.example/"
  protocol _ := "https:"
  hostname _ := "mirror.example"
  sha256 _ := [0xe3, 0xb0, 0xc4, 0x42, 0x98, 0xfc, 0x1c, 0x14, 0x9a, 0xfb, 0xf4, 0xc8, 0x99, 0x6f, 0xb9, 0x24, 0x27, 0xae,
    0x41, 0xe4, 0x64, 0x9b, 0x93, 0x4c, 0xa4, 0x95, 0x99, 0x1b, 0x78, 0x52, 0xb8, 0x55]
  number _ := .nan
  shown _ := "1"

theorem onePlace_lawful : onePlace.Lawful where
  reparses _ := rfl
  href_ne _ := by
    change "https://mirror.example/" ≠ ""
    decide

def emptyDigest : String := "e3b0c44298fc1c149afbf4c8996fb92427ae41e4649b934ca495991b7852b855"

def grant : FetchOptions := ⟨some "https://mirror.example/", none, .ofRat 1, 4, .ofRat 30000, none, none⟩

def emptyBody : List TransferEvent :=
  [.answered ⟨302, false, some "/", none, true⟩ false, .answered ⟨200, true, none, none, true⟩ false, .finished]

end Sample

theorem transfer_confined_empty :
    Confined (grant.artefact emptyDigest)
      (after (Transfer.onEvent (grant.artefact emptyDigest)) (fetchArtefact onePlace grant emptyDigest false) emptyBody) ∧
    Confined (grant.document none)
      (after (Transfer.onEvent (grant.document none)) (fetchDocument onePlace grant none false) emptyBody) :=
  transfer_confined onePlace_lawful grant rfl rfl emptyDigest none false emptyBody

end Noesar.Acquisition
