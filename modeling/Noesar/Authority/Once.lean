import Noesar.Authority.Envelope
import Noesar.Lib.Run

namespace Noesar.Authority

open Lib Lib.Utf16 Lib.Framing Lib.Json Canonical

namespace AuthorityEnvelopeVerifier

section

variable (host : Capability.Host) (ns : Numbers)

/-- The signature of an envelope is the one of its body. -/
structure Signs (secret : Bytes) (envelope body : JsValue) : Prop where
  text : ∃ signature expected, stringOf (property "signature" envelope) = some signature ∧
    mac host ns secret body = .ok expected ∧ bufferFrom expected = bufferFrom signature

/-- The times of a body, and how they stand to the clock. -/
structure Timely (nowSeconds : ℤ) (skew : ℚ) (body : JsValue) (expiresAt : ℤ) : Prop where
  lifetime : ∃ issuedAt, integerOf (property "issuedAt" body) = some issuedAt ∧ issuedAt < expiresAt ∧
    expiresAt - issuedAt ≤ 30 ∧ (issuedAt : ℚ) ≤ nowSeconds + skew
  expiry : integerOf (property "expiresAt" body) = some expiresAt
  unexpired : nowSeconds - skew ≤ expiresAt

/-- A presentation that nothing is wrong with, as far as one presentation goes. -/
structure Correct (secret : Bytes) (skew : ℚ) (c : Call) (a : Acceptance) : Prop where
  body : a.body = without "signature" c.envelope
  signed : Signs host ns secret c.envelope a.body
  schema : stringOf (property "schemaVersion" a.body) = some (text "1.1")
  action : ∃ name ∈ actions, stringOf (property "action" a.body) = some (text name)
  actor : truthy (property "actorId" a.body) = true
  session : truthy (property "sessionId" a.body) = true
  nonce : stringOf (property "nonce" a.body) = some a.nonce
  long : 16 ≤ a.nonce.length
  timely : Timely (seconds c.now) skew a.body a.expiresAt
  bindings : ∀ b ∈ c.expected.entries, ∀ value, b.2 = some value → stringOf (property b.1 a.body) = some value

variable {host ns} {v : AuthorityEnvelopeVerifier} {c : Call} {a : Acceptance}

theorem examine_ok : v.examine host ns (seconds c.now) c.envelope c.expected = .ok a ↔
    Correct host ns v.secret v.maxClockSkewSeconds c a ∧ v.usedNonces.has a.nonce = false := by
  simp only [examine, bind_ok, demand_ok, exists_unit, require_ok, forM_ok]
  constructor
  · rintro ⟨signature, hsignature, hschema, haction, ⟨hactor, hsession⟩, nonce, hnonce, hlong, issuedAt, hissued,
      expiresAt, hexpires, ⟨hlater, hlifetime⟩, hpast, hunexpired, hfresh, expected, hmac, hequal, hbindings, h⟩
    cases h
    refine ⟨⟨rfl, ⟨signature, expected, hsignature, hmac, hequal⟩, hschema, haction, hactor, hsession, hnonce, hlong,
      ⟨⟨issuedAt, hissued, hlater, hlifetime, hpast⟩, hexpires, hunexpired⟩, ?_⟩, hfresh⟩
    intro b hb value hvalue
    have := hbindings b hb
    rw [hvalue] at this
    simpa using this
  · obtain ⟨body, nonce, expiresAt⟩ := a
    rintro ⟨⟨hbody, ⟨signature, expected, hsignature, hmac, hequal⟩, hschema, haction, hactor, hsession, hnonce, hlong,
      ⟨⟨issuedAt, hissued, hlater, hlifetime, hpast⟩, hexpires, hunexpired⟩, hbindings⟩, hfresh⟩
    subst hbody
    refine ⟨signature, hsignature, hschema, haction, ⟨hactor, hsession⟩, nonce, hnonce, hlong, issuedAt, hissued,
      expiresAt, hexpires, ⟨hlater, hlifetime⟩, hpast, hunexpired, hfresh, expected, hmac, hequal, ?_, rfl⟩
    intro b hb
    cases hvalue : b.2 with
    | none => rfl
    | some value => simpa using hbindings b hb value hvalue

theorem get_prune (v : AuthorityEnvelopeVerifier) (nowSeconds : ℤ) (nonce : Units) (expiresAt : ℚ) :
    (v.prune nowSeconds).usedNonces.get nonce = some expiresAt ↔
      v.usedNonces.get nonce = some expiresAt ∧ nowSeconds ≤ expiresAt := by
  rw [prune, InsertionMap.get_filter_all, decide_eq_true_eq]

variable (host ns)

def step (v : AuthorityEnvelopeVerifier) (c : Call) : AuthorityEnvelopeVerifier := (v.verify host ns c).2

def accepted : AuthorityEnvelopeVerifier → List Call → List Acceptance
  | _, [] => []
  | v, c :: cs => (v.verify host ns c).1.toOption.toList ++ accepted (step host ns v c) cs

theorem accepted_snoc (v : AuthorityEnvelopeVerifier) (cs : List Call) (c : Call) :
    accepted host ns v (cs ++ [c]) =
      accepted host ns v cs ++ ((Run.after (step host ns) v cs).verify host ns c).1.toOption.toList := by
  induction cs generalizing v with
  | nil => simp [accepted]
  | cons d cs ih => simp [accepted, ih]

variable {host ns}

theorem verify_ok : (v.verify host ns c).1 = .ok a ↔
    Correct host ns v.secret v.maxClockSkewSeconds c a ∧ (v.prune (seconds c.now)).usedNonces.has a.nonce = false :=
  @examine_ok host ns (v.prune (seconds c.now)) c a

theorem step_eq (v : AuthorityEnvelopeVerifier) (c : Call) :
    step host ns v c = (v.prune (seconds c.now)).use (v.verify host ns c).1 := rfl

variable (host ns) in
/-- What a run leaves behind: the nonces of what it accepted, but for those whose time was over. -/
structure Tracks (v₀ : AuthorityEnvelopeVerifier) (cs : List Call) (v : AuthorityEnvelopeVerifier) : Prop where
  secret : v.secret = v₀.secret
  skew : v.maxClockSkewSeconds = v₀.maxClockSkewSeconds
  retention : v.replayRetentionSeconds = v₀.replayRetentionSeconds
  known : ∀ nonce t, v.usedNonces.get nonce = some t →
    ∃ a ∈ accepted host ns v₀ cs, a.nonce = nonce ∧ t = a.expiresAt + v₀.replayRetentionSeconds
  kept : ∀ a ∈ accepted host ns v₀ cs, v.usedNonces.get a.nonce = some (a.expiresAt + v₀.replayRetentionSeconds) ∨
    ∃ c ∈ cs, a.expiresAt + v₀.replayRetentionSeconds < seconds c.now

theorem seconds_mono {s t : ℚ} (h : s ≤ t) : seconds s ≤ seconds t := Int.floor_le_floor (by linarith)

section

variable {v₀ : AuthorityEnvelopeVerifier} {cs : List Call}

theorem Tracks.free_iff (h : Tracks host ns v₀ cs v) (hclock : ∀ d ∈ cs, d.now ≤ c.now) (nonce : Units) :
    (v.prune (seconds c.now)).usedNonces.has nonce = false ↔
      ∀ a ∈ accepted host ns v₀ cs, a.nonce = nonce → a.expiresAt + v₀.replayRetentionSeconds < seconds c.now := by
  rw [← Bool.not_eq_true, InsertionMap.has_iff]
  constructor
  · rintro hfree a ha rfl
    rcases h.kept a ha with hget | ⟨d, hd, hlt⟩
    · by_contra hle
      exact hfree ⟨_, (get_prune v _ _ _).mpr ⟨hget, not_lt.mp hle⟩⟩
    · have := seconds_mono (hclock d hd)
      exact hlt.trans_le (by exact_mod_cast this)
  · rintro hover ⟨t, ht⟩
    obtain ⟨hget, hle⟩ := (get_prune v _ _ _).mp ht
    obtain ⟨a, ha, hnonce, rfl⟩ := h.known nonce t hget
    exact absurd (hover a ha hnonce) (not_lt.mpr hle)

theorem Tracks.step (h : Tracks host ns v₀ cs v) (hclock : ∀ d ∈ cs, d.now ≤ c.now) (hv : Run.after (step host ns) v₀ cs = v) :
    Tracks host ns v₀ (cs ++ [c]) (step host ns v c) := by
  have hsnoc := accepted_snoc host ns v₀ cs c
  rw [hv] at hsnoc
  -- an entry that is not pruned is still in the history, and one that is pruned has outlived its time
  have hkept : ∀ a ∈ accepted host ns v₀ cs,
      (v.prune (seconds c.now)).usedNonces.get a.nonce = some (a.expiresAt + v₀.replayRetentionSeconds) ∨
        ∃ d ∈ cs ++ [c], a.expiresAt + v₀.replayRetentionSeconds < seconds d.now := by
    intro a ha
    rcases h.kept a ha with hget | ⟨d, hd, hlt⟩
    · by_cases hle : (seconds c.now : ℚ) ≤ a.expiresAt + v₀.replayRetentionSeconds
      · exact .inl ((get_prune v _ _ _).mpr ⟨hget, hle⟩)
      · exact .inr ⟨c, by simp, not_le.mp hle⟩
    · exact .inr ⟨d, by simp [hd], hlt⟩
  rw [step_eq]
  cases hresult : (v.verify host ns c).1 with
  | error =>
    rw [hresult, Except.toOption, Option.toList_none, List.append_nil] at hsnoc
    refine ⟨h.secret, h.skew, h.retention, ?_, ?_⟩
    · intro nonce t ht
      rw [hsnoc]
      exact h.known nonce t ((get_prune v _ _ _).mp ht).1
    · rw [hsnoc]
      exact hkept
  | ok a =>
    rw [hresult, Except.toOption, Option.toList_some] at hsnoc
    have hfree := (h.free_iff hclock a.nonce).mp (verify_ok.mp hresult).2
    have hget (nonce : Units) : ((v.prune (seconds c.now)).use (.ok a)).usedNonces.get nonce =
        if a.nonce = nonce then some (a.expiresAt + v₀.replayRetentionSeconds)
        else (v.prune (seconds c.now)).usedNonces.get nonce := by
      rw [← h.retention]
      exact InsertionMap.get_set _ _ _ _
    refine ⟨h.secret, h.skew, h.retention, ?_, ?_⟩
    · intro nonce t ht
      rw [hget] at ht
      rw [hsnoc]
      split at ht
      next heq =>
        cases ht
        exact ⟨a, by simp, heq, rfl⟩
      · obtain ⟨b, hb, hnonce, heq⟩ := h.known nonce t ((get_prune v _ _ _).mp ht).1
        exact ⟨b, by simp [hb], hnonce, heq⟩
    · intro b hb
      rw [hsnoc, List.mem_append, List.mem_singleton] at hb
      rw [hget]
      rcases hb with hb | rfl
      · by_cases heq : a.nonce = b.nonce
        · exact .inr ⟨c, by simp, hfree b hb heq.symm⟩
        · rw [if_neg heq]
          exact hkept b hb
      · exact .inl (if_pos rfl)

end

theorem tracks_after {v₀ : AuthorityEnvelopeVerifier} (hfresh : v₀.usedNonces = .empty) {cs : List Call}
    (hclock : cs.Pairwise fun c d ↦ c.now ≤ d.now) : Tracks host ns v₀ cs (Run.after (step host ns) v₀ cs) := by
  induction cs using List.reverseRecOn with
  | nil =>
    refine ⟨rfl, rfl, rfl, ?_, ?_⟩
    · intro nonce t ht
      rw [Run.after_nil, hfresh] at ht
      cases ht
    · intro a ha
      cases ha
  | append_singleton cs c ih =>
    obtain ⟨hbefore, -, hlast⟩ := List.pairwise_append.mp hclock
    rw [Run.after_snoc]
    exact (ih hbefore).step (fun d hd ↦ hlast d hd c (by simp)) rfl

theorem has_of_error {message : String} (h : (v.verify host ns c).1 = .error message) {nonce : Units}
    (hhas : (step host ns v c).usedNonces.has nonce = true) : v.usedNonces.has nonce = true := by
  rw [step_eq, h, InsertionMap.has_iff] at hhas
  obtain ⟨t, ht⟩ := hhas
  exact (InsertionMap.has_iff _ _).mpr ⟨t, ((get_prune v _ _ _).mp ht).1⟩

theorem later_expiry {t e e' : ℤ} {skew retention : ℚ} (h : skew ≤ retention) (hover : e + retention < t)
    (hunexpired : t - skew ≤ e') : e < e' := by
  have : (e : ℚ) < e' := by linarith
  exact_mod_cast this

end

end AuthorityEnvelopeVerifier

namespace Rust

structure Call where
  envelope : AuthorityEnvelope
  nowSeconds : Int64
  bindings : ExpectedBindings

namespace AuthorityVerifier

variable (host : Capability.Host)

def step (v : AuthorityVerifier) (c : Call) : AuthorityVerifier :=
  (v.verify host c.envelope c.nowSeconds c.bindings).2

def accepts (nonce : String) (v : AuthorityVerifier) (c : Call) : Bool :=
  c.envelope.body.nonce = nonce && (v.verify host c.envelope c.nowSeconds c.bindings).1.isOk

variable {host} {v : AuthorityVerifier} {c : Call}

theorem verify_cases (v : AuthorityVerifier) (c : Call) :
    (∃ message, v.verify host c.envelope c.nowSeconds c.bindings = (.error message, v)) ∨
      c.envelope.body.nonce ∉ v.usedNonces ∧ v.verify host c.envelope c.nowSeconds c.bindings =
        (.ok (), { v with usedNonces := insert c.envelope.body.nonce v.usedNonces }) := by
  cases h : v.examine host c.envelope c.nowSeconds c.bindings with
  | error message => exact .inl ⟨message, by rw [verify, h]⟩
  | ok =>
    refine .inr ⟨?_, by rw [verify, h]⟩
    simp only [examine, bind_ok, exists_unit, require_ok] at h
    obtain ⟨-, -, -, hfresh, -⟩ := h
    exact hfresh

theorem count_accepts_le_one (nonce : String) (v : AuthorityVerifier) (cs : List Call) :
    Run.count (step host) (accepts host nonce) v cs ≤ 1 := by
  refine Run.Along.count_le_one (C := fun _ _ ↦ True) (fun v ↦ decide (nonce ∈ v.usedNonces)) ?_ ?_
    (.of_forall (fun _ _ ↦ trivial) v cs)
  · intro v c _ hmem
    rw [decide_eq_true_eq] at hmem ⊢
    rw [step]
    rcases verify_cases v c with ⟨message, h⟩ | ⟨-, h⟩
    · rw [h]
      exact hmem
    · rw [h]
      exact Finset.mem_insert_of_mem hmem
  · intro v c _ hgood
    rw [accepts, Bool.and_eq_true, decide_eq_true_eq] at hgood
    obtain ⟨rfl, hok⟩ := hgood
    rw [decide_eq_false_iff_not, decide_eq_true_eq, step]
    rcases verify_cases v c with ⟨message, h⟩ | ⟨hfresh, h⟩
    · rw [h] at hok
      cases hok
    · rw [h]
      exact ⟨hfresh, Finset.mem_insert_self _ _⟩

end AuthorityVerifier

end Rust

open AuthorityEnvelopeVerifier

section

variable (host : Capability.Host) (ns : Numbers)

/-- The signature of an envelope is the keyed hash of nothing but what has been signed with the secret. -/
def Unforgeable (secret : Bytes) (signed : Bytes → Prop) (envelope : JsValue) : Prop :=
  ∀ bytes signature, stringOf (property "signature" envelope) = some signature →
    bufferFrom (encode (Base64.encode (host.hmac secret bytes).toList)) = bufferFrom signature → signed bytes

/-- After any run, a presentation is accepted exactly when it is correct and the time of all
that was accepted with its nonce is over. What is accepted was signed, and expires after all
that was accepted with its nonce; a throw adds no nonce. The crate accepts a nonce once. -/
theorem envelopes_accepted_once {v : AuthorityEnvelopeVerifier} (hfresh : v.usedNonces = .empty)
    (hretention : v.maxClockSkewSeconds ≤ v.replayRetentionSeconds) {cs : List Call} {c : Call}
    (hclock : (cs ++ [c]).Pairwise fun c d ↦ c.now ≤ d.now) {signed : Bytes → Prop}
    (hunforgeable : Unforgeable host v.secret signed c.envelope) :
    (∀ a, ((Run.after (step host ns) v cs).verify host ns c).1 = .ok a ↔
      Correct host ns v.secret v.maxClockSkewSeconds c a ∧ ∀ b ∈ accepted host ns v cs, b.nonce = a.nonce →
        b.expiresAt + v.replayRetentionSeconds < seconds c.now) ∧
    (∀ a, ((Run.after (step host ns) v cs).verify host ns c).1 = .ok a →
      (∀ b ∈ accepted host ns v cs, b.nonce = a.nonce → b.expiresAt < a.expiresAt) ∧
        ∃ bytes, canonicalJsonBytes ns a.body = .ok bytes ∧ signed bytes) ∧
    (∀ message, ((Run.after (step host ns) v cs).verify host ns c).1 = .error message → ∀ nonce,
      (Run.after (step host ns) v (cs ++ [c])).usedNonces.has nonce = true →
        (Run.after (step host ns) v cs).usedNonces.has nonce = true) ∧
    ∀ (nonce : String) (w : Rust.AuthorityVerifier) (rs : List Rust.Call),
      Run.count (Rust.AuthorityVerifier.step host) (Rust.AuthorityVerifier.accepts host nonce) w rs ≤ 1 := by
  obtain ⟨hbefore, -, hlast⟩ := List.pairwise_append.mp hclock
  have htracks := @tracks_after host ns v hfresh cs hbefore
  have haccepts (a : Acceptance) : ((Run.after (step host ns) v cs).verify host ns c).1 = .ok a ↔
      Correct host ns v.secret v.maxClockSkewSeconds c a ∧ ∀ b ∈ accepted host ns v cs, b.nonce = a.nonce →
        b.expiresAt + v.replayRetentionSeconds < seconds c.now := by
    rw [verify_ok, htracks.free_iff fun d hd ↦ hlast d hd c (by simp), htracks.secret, htracks.skew]
  refine ⟨haccepts, ?_, ?_, Rust.AuthorityVerifier.count_accepts_le_one⟩
  · intro a ha
    obtain ⟨hcorrect, hover⟩ := (haccepts a).mp ha
    constructor
    · intro b hb hnonce
      exact later_expiry hretention (hover b hb hnonce) hcorrect.timely.unexpired
    · obtain ⟨signature, expected, hsignature, hmac, hequal⟩ := hcorrect.signed
      cases hbytes : canonicalJsonBytes ns a.body with
      | error =>
        rw [mac, hbytes] at hmac
        cases hmac
      | ok bytes =>
        rw [mac, hbytes] at hmac
        cases hmac
        exact ⟨bytes, rfl, hunforgeable bytes signature hsignature hequal⟩
  · intro message hmessage nonce hhas
    rw [Run.after_snoc] at hhas
    exact has_of_error hmessage hhas

end

section Sample

def integers : Numbers := platform (fun _ ↦ []) fun _ ↦ none

def secret : Bytes := List.replicate 32 7

def verifier : AuthorityEnvelopeVerifier := ⟨secret, 5, 120, .empty⟩

/-- An envelope that is signed and presented at the same time, always with one nonce. -/
def presented (now : ℚ) : Call where
  now := now
  envelope := (createAuthorityEnvelope .sample integers secret ⟨"actor-1", "session-1", "authority.health", none,
    .finite (.ofRat 20), now, "0123456789abcdef"⟩).toOption.getD .null
  expected := ⟨some (text "actor-1"), none, none⟩

end Sample

theorem envelopes_accepted_once_first :
    ∃ a, (verifier.verify .sample integers (presented 0)).1 = .ok a ∧
      Correct .sample integers secret 5 (presented 0) a := by
  have hok : (verifier.verify .sample integers (presented 0)).1.isOk = true := by decide +kernel
  have honce := @envelopes_accepted_once .sample integers verifier rfl (by norm_num [verifier]) [] (presented 0)
    (by simp) (fun _ ↦ True) (fun _ _ _ _ ↦ trivial)
  cases hverify : (verifier.verify .sample integers (presented 0)).1 with
  | error =>
    rw [hverify] at hok
    cases hok
  | ok a => exact ⟨a, rfl, ((honce.1 a).mp hverify).1⟩

theorem nonce_accepted_twice :
    [presented 0, presented 1000000].Pairwise (fun c d ↦ c.now ≤ d.now) ∧
      0 ≤ verifier.maxClockSkewSeconds ∧ verifier.maxClockSkewSeconds ≤ verifier.replayRetentionSeconds ∧
      (accepted .sample integers verifier [presented 0, presented 1000000]).map Acceptance.nonce =
        [text "0123456789abcdef", text "0123456789abcdef"] := by
  refine ⟨by norm_num [presented], by norm_num [verifier], by norm_num [verifier], ?_⟩
  decide +kernel

end Noesar.Authority
