import Noesar.Postgres.Handshake

namespace Noesar.Postgres

open Lib Lib.Framing Lib.Run

def isReady (m : Message) : Prop := m.tag = Backend.readyForQuery

def IsAuth (code : ℤ) (m : Message) : Prop := m.tag = Backend.authentication ∧ readInt32BE m.payload 0 = .ok code

section

variable (pf : Platform) (nonce password : String)

/-- A message that continues the authentication with a nonce that extends the client's, after which the server has to
show this signature. -/
def Continues (m : Message) (signature : Bytes) : Prop :=
  IsAuth Auth.saslContinue m ∧ ∃ proof, scramProof pf password (text (m.payload.drop 4)) (clientFirstBare nonce) = .ok proof ∧
    nonce.toList <+: proof.combinedNonce.toList ∧ proof.serverSignature = signature

def Concludes (m : Message) (signature : Bytes) : Prop := IsAuth Auth.saslFinal m ∧ receivedSignature pf m.payload = signature

def Proved (messages : List Message) : Prop :=
  ∃ first challenge between final rest signature, messages = first ++ challenge :: between ++ final :: rest ∧
    Continues pf nonce password challenge signature ∧ Concludes pf final signature

def Authenticated (messages : List Message) : Prop :=
  ∃ before ready rest, messages = before ++ ready :: rest ∧ isReady ready ∧ (∀ m ∈ before, ¬isReady m) ∧
    Proved pf nonce password before

def Refused (m : Message) : Prop :=
  ¬∃ h, dispatch pf nonce (some password) ⟨.waiting, none, []⟩ m = .ok h

end

variable {pf : Platform} {nonce password : String}

/-- The server is ready, or the handshake stands where it stood but for what a challenge or a proof of the server says. -/
def Advances (pf : Platform) (nonce password : String) (m : Message) (h h' : Handshake) : Prop :=
  (isReady m ∧ h' = { h with status := .ready }) ∨
    (¬isReady m ∧ h'.status = h.status ∧
      (h'.expectedServerSignature = h.expectedServerSignature ∧
        (IsAuth Auth.saslFinal m → ∃ signature, h.expectedServerSignature = some signature ∧ Concludes pf m signature) ∨
      ∃ signature, h'.expectedServerSignature = some signature ∧ Continues pf nonce password m signature ∧
        ¬IsAuth Auth.saslFinal m))

variable {h' : Handshake} {m : Message}

theorem onMessage_ok {h : Handshake} (hm : onMessage pf nonce (some password) h m = .ok h') :
    Advances pf nonce password m h h' := by
  unfold onMessage at hm
  split at hm
  · obtain ⟨message, -, hm⟩ := bind_ok.mp hm
    cases hm
  · split at hm
    · rename_i hready
      cases hm
      exact .inl ⟨hready, rfl⟩
    · rename_i hready
      refine .inr ⟨hready, ?_⟩
      split at hm
      · rename_i htag
        cases hm
        exact ⟨rfl, .inl ⟨rfl, fun hfinal ↦ absurd hfinal.1 htag⟩⟩
      · rename_i htag
        rw [not_not] at htag
        obtain ⟨code, hcode, hm⟩ := bind_ok.mp hm
        have hauth {other : ℤ} (hfinal : IsAuth other m) : other = code := by
          have hsame := hcode.symm.trans hfinal.2
          cases hsame
          rfl
        split at hm
        · rename_i heq
          cases hm
          refine ⟨rfl, .inl ⟨rfl, fun hfinal ↦ ?_⟩⟩
          cases heq.symm.trans (hauth hfinal).symm
        · split at hm
          · cases hm
          · split at hm
            · rename_i heq
              obtain ⟨message, -, hm⟩ := bind_ok.mp hm
              cases hm
              refine ⟨rfl, .inl ⟨rfl, fun hfinal ↦ ?_⟩⟩
              cases heq.symm.trans (hauth hfinal).symm
            · split at hm
              · rename_i heq
                obtain ⟨proof, hproof, hm⟩ := bind_ok.mp hm
                cases hm
                simp only [onSaslContinue, bind_ok, demand_ok, require_ok, exists_unit] at hproof
                obtain ⟨other, ⟨⟩, found, hfound, hprefix, ⟨⟩⟩ := hproof
                refine ⟨rfl, .inr ⟨_, rfl, ⟨⟨htag, heq ▸ hcode⟩, proof, hfound, List.isPrefixOf_iff_prefix.mp hprefix, rfl⟩, ?_⟩⟩
                intro hfinal
                cases heq.symm.trans (hauth hfinal).symm
              · split at hm
                · split at hm
                  · rename_i heq hsignature
                    cases hm
                    exact ⟨rfl, .inl ⟨rfl, fun hfinal ↦ ⟨_, hsignature, hfinal, rfl⟩⟩⟩
                  · cases hm
                · cases hm

theorem readyForQuery_apart (h : isReady m) : m.tag ≠ Backend.parameterStatus ∧
    m.tag ≠ Backend.backendKeyData ∧ ¬(m.tag = Backend.noticeResponse ∨ m.tag = Backend.notification) := by
  rw [isReady] at h
  rw [h]
  decide

theorem dispatch_ready {h : Handshake} (hready : isReady m) :
    dispatch pf nonce (some password) h m = .ok { h with status := .ready } := by
  obtain ⟨hparameter, hkey, hnotice⟩ := readyForQuery_apart hready
  have herror : m.tag ≠ Backend.errorResponse := by
    rw [show m.tag = Backend.readyForQuery from hready]
    decide
  rw [dispatch, if_neg hparameter, if_neg hkey, if_neg hnotice, onMessage, if_neg herror]
  exact if_pos hready

theorem dispatch_ok {h : Handshake} (hd : dispatch pf nonce (some password) h m = .ok h') :
    Advances pf nonce password m h h' := by
  unfold dispatch at hd
  split at hd
  · rename_i htag
    simp only [bind_ok] at hd
    obtain ⟨⟨_, rest⟩, -, _, -, ⟨⟩⟩ := hd
    refine .inr ⟨fun hready ↦ (readyForQuery_apart hready).1 htag, rfl, .inl ⟨rfl, fun hfinal ↦ ?_⟩⟩
    cases htag.symm.trans hfinal.1
  · split at hd
    · rename_i htag
      simp only [bind_ok] at hd
      obtain ⟨_, -, _, -, ⟨⟩⟩ := hd
      refine .inr ⟨fun hready ↦ (readyForQuery_apart hready).2.1 htag, rfl, .inl ⟨rfl, fun hfinal ↦ ?_⟩⟩
      cases htag.symm.trans hfinal.1
    · split at hd
      · rename_i htag
        cases hd
        refine .inr ⟨fun hready ↦ (readyForQuery_apart hready).2.2 htag, rfl, .inl ⟨rfl, fun hfinal ↦ ?_⟩⟩
        rcases htag with htag | htag <;> cases htag.symm.trans hfinal.1
      · exact onMessage_ok hd

theorem onMessage_frame {h h₀ : Handshake} (hfinal : ¬IsAuth Auth.saslFinal m)
    (hm : onMessage pf nonce (some password) h m = .ok h') :
    ∃ h'', onMessage pf nonce (some password) h₀ m = .ok h'' := by
  unfold onMessage at hm ⊢
  by_cases herror : m.tag = Backend.errorResponse
  · rw [if_pos herror] at hm
    obtain ⟨message, -, hm⟩ := bind_ok.mp hm
    cases hm
  · rw [if_neg herror] at hm ⊢
    by_cases hready : m.tag = Backend.readyForQuery
    · rw [if_pos hready]
      exact ⟨_, rfl⟩
    · rw [if_neg hready] at hm ⊢
      by_cases htag : m.tag ≠ Backend.authentication
      · rw [if_pos htag]
        exact ⟨_, rfl⟩
      · rw [if_neg htag] at hm ⊢
        obtain ⟨code, hcode, hm⟩ := bind_ok.mp hm
        suffices hnext : ∃ h'', _ = Except.ok h'' from hnext.imp fun _ heq ↦ bind_ok.mpr ⟨code, hcode, heq⟩
        by_cases hok : code = Auth.ok
        · rw [if_pos hok]
          exact ⟨_, rfl⟩
        · rw [if_neg hok] at hm ⊢
          by_cases hweak : code = Auth.cleartextPassword ∨ code = Auth.md5Password
          · rw [if_pos hweak] at hm
            cases hm
          · rw [if_neg hweak] at hm ⊢
            by_cases hsasl : code = Auth.sasl
            · rw [if_pos hsasl] at hm ⊢
              obtain ⟨message, hmessage, -⟩ := bind_ok.mp hm
              exact ⟨_, bind_ok.mpr ⟨message, hmessage, rfl⟩⟩
            · rw [if_neg hsasl] at hm ⊢
              by_cases hcontinue : code = Auth.saslContinue
              · rw [if_pos hcontinue] at hm ⊢
                obtain ⟨proof, hproof, -⟩ := bind_ok.mp hm
                exact ⟨_, bind_ok.mpr ⟨proof, hproof, rfl⟩⟩
              · rw [if_neg hcontinue] at hm
                have hauth : code ≠ Auth.saslFinal := fun heq ↦ hfinal ⟨not_not.mp htag, heq ▸ hcode⟩
                rw [if_neg hauth] at hm
                cases hm

theorem dispatch_frame {h h₀ : Handshake} (hfinal : ¬IsAuth Auth.saslFinal m)
    (hd : dispatch pf nonce (some password) h m = .ok h') :
    ∃ h'', dispatch pf nonce (some password) h₀ m = .ok h'' := by
  unfold dispatch at hd ⊢
  by_cases hparameter : m.tag = Backend.parameterStatus
  · rw [if_pos hparameter] at hd ⊢
    simp only [bind_ok] at hd ⊢
    obtain ⟨⟨_, rest⟩, hkey, _, hvalue, -⟩ := hd
    exact ⟨h₀, _, hkey, _, hvalue, rfl⟩
  · rw [if_neg hparameter] at hd ⊢
    by_cases hkey : m.tag = Backend.backendKeyData
    · rw [if_pos hkey] at hd ⊢
      simp only [bind_ok] at hd ⊢
      obtain ⟨_, hprocess, _, hsecret, -⟩ := hd
      exact ⟨h₀, _, hprocess, _, hsecret, rfl⟩
    · rw [if_neg hkey] at hd ⊢
      by_cases hnotice : m.tag = Backend.noticeResponse ∨ m.tag = Backend.notification
      · rw [if_pos hnotice]
        exact ⟨_, rfl⟩
      · rw [if_neg hnotice] at hd ⊢
        exact onMessage_frame hfinal hd

section Run

variable {h : Handshake}

theorem after_settled (hs : h.status ≠ .waiting) (messages : List Message) :
    after (step pf nonce (some password)) h messages = h := by
  induction messages with
  | nil => rfl
  | cons m messages ih =>
    rw [after_cons]
    have hstep : step pf nonce (some password) h m = h := by
      unfold step
      split
      · contradiction
      · rfl
      · rfl
    rw [hstep, ih]

/-- What was accepted so far, where the handshake still waits. -/
structure Accepted (pf : Platform) (nonce password : String) (before : List Message) (h : Handshake) : Prop where
  expected : ∀ signature, h.expectedServerSignature = some signature →
    ∃ first challenge between, before = first ++ challenge :: between ∧ Continues pf nonce password challenge signature
  proved : (∃ m ∈ before, IsAuth Auth.saslFinal m) → Proved pf nonce password before
  each : ∀ m ∈ before, IsAuth Auth.saslFinal m ∨ ¬Refused pf nonce password m

variable {before : List Message}

theorem Proved.append (hp : Proved pf nonce password before) (m : Message) :
    Proved pf nonce password (before ++ [m]) := by
  obtain ⟨first, challenge, between, final, rest, signature, rfl, hcontinues, hconcludes⟩ := hp
  exact ⟨first, challenge, between, final, rest ++ [m], signature, by simp, hcontinues, hconcludes⟩

theorem Accepted.snoc (ha : Accepted pf nonce password before h) {m : Message} {h' : Handshake} (hready : ¬isReady m)
    (hd : dispatch pf nonce (some password) h m = .ok h') :
    h'.status = h.status ∧ Accepted pf nonce password (before ++ [m]) h' := by
  rcases dispatch_ok hd with ⟨hno, -⟩ | ⟨-, hstatus, hcases⟩
  · exact absurd hno hready
  · refine ⟨hstatus, ?_, ?_, ?_⟩
    · intro signature hsignature
      rcases hcases with ⟨hsame, -⟩ | ⟨new, hnew, hcontinues, -⟩
      · rw [hsame] at hsignature
        obtain ⟨first, challenge, between, rfl, hcontinues⟩ := ha.expected signature hsignature
        exact ⟨first, challenge, between ++ [m], by simp, hcontinues⟩
      · rw [hnew, Option.some.injEq] at hsignature
        subst hsignature
        exact ⟨before, m, [], rfl, hcontinues⟩
    · rintro ⟨final, hmem, hfinal⟩
      rcases List.mem_append.mp hmem with hold | hlast
      · exact (ha.proved ⟨final, hold, hfinal⟩).append m
      · obtain rfl := List.mem_singleton.mp hlast
        rcases hcases with ⟨-, hchecked⟩ | ⟨_, -, -, hno⟩
        · obtain ⟨signature, hsignature, hconcludes⟩ := hchecked hfinal
          obtain ⟨first, challenge, between, rfl, hcontinues⟩ := ha.expected signature hsignature
          exact ⟨first, challenge, between, final, [], signature, by simp, hcontinues, hconcludes⟩
        · exact absurd hfinal hno
    · intro other hmem
      rcases List.mem_append.mp hmem with hold | hlast
      · exact ha.each other hold
      · obtain rfl := List.mem_singleton.mp hlast
        by_cases hfinal : IsAuth Auth.saslFinal other
        · exact .inl hfinal
        · exact .inr fun hrefused ↦ hrefused (dispatch_frame hfinal hd)

theorem ready_split {messages : List Message} (hw : h.status = .waiting) (ha : Accepted pf nonce password before h)
    (hbefore : ∀ m ∈ before, ¬isReady m) (hr : (after (step pf nonce (some password)) h messages).status = .ready) :
    ∃ more ready rest,
      messages = more ++ ready :: rest ∧ isReady ready ∧ (∀ m ∈ before ++ more, ¬isReady m) ∧
        ∃ h', Accepted pf nonce password (before ++ more) h' := by
  induction messages generalizing h before with
  | nil =>
    rw [after_nil, hw] at hr
    cases hr
  | cons m messages ih =>
    rw [after_cons, step, hw] at hr
    dsimp only at hr
    cases hd : dispatch pf nonce (some password) h m with
    | error =>
      rw [hd, after_settled (by simp)] at hr
      cases hr
    | ok =>
      rw [hd] at hr
      by_cases hready : isReady m
      · exact ⟨[], m, messages, rfl, hready, by simpa using hbefore, h, by simpa using ha⟩
      · obtain ⟨hstatus, ha'⟩ := ha.snoc hready hd
        have hbefore' : ∀ other ∈ before ++ [m], ¬isReady other := by
          intro other hmem
          rcases List.mem_append.mp hmem with hold | hlast
          · exact hbefore other hold
          · rwa [List.mem_singleton.mp hlast]
        obtain ⟨more, ready, rest, rfl, hisready, hnone, h'', ha''⟩ := ih (hstatus.trans hw) ha' hbefore' hr
        rw [List.append_assoc] at hnone ha''
        exact ⟨m :: more, ready, rest, rfl, hisready, hnone, h'', ha''⟩

theorem after_waiting {messages : List Message} (hw : h.status = .waiting) (hready : ∀ m ∈ messages, ¬isReady m)
    (haccepted : ∀ m ∈ messages, ¬IsAuth Auth.saslFinal m ∧ ¬Refused pf nonce password m) :
    (after (step pf nonce (some password)) h messages).status = .waiting := by
  induction messages generalizing h with
  | nil => exact hw
  | cons m messages ih =>
    obtain ⟨hfinal, hrefused⟩ := haccepted m List.mem_cons_self
    obtain ⟨_, hsome⟩ := not_not.mp hrefused
    obtain ⟨h', hd⟩ : ∃ h', dispatch pf nonce (some password) h m = .ok h' := dispatch_frame hfinal hsome
    have hstatus : h'.status = .waiting := by
      rcases dispatch_ok hd with ⟨hno, -⟩ | ⟨-, hsame, -⟩
      · exact absurd hno (hready m List.mem_cons_self)
      · exact hsame.trans hw
    have hstep : step pf nonce (some password) h m = h' := by
      rw [step, hw]
      simp [hd]
    rw [after_cons, hstep]
    exact ih hstatus (fun other hmem ↦ hready other (List.mem_cons_of_mem m hmem))
      (fun other hmem ↦ haccepted other (List.mem_cons_of_mem m hmem))

end Run

instance (m : Message) : Decidable (isReady m) := inferInstanceAs (Decidable (_ = _))

theorem first_ready {before before' rest rest' : List Message} {ready ready' : Message}
    (h : before ++ ready :: rest = before' ++ ready' :: rest') (hready : isReady ready) (hready' : isReady ready')
    (hbefore : ∀ m ∈ before, ¬isReady m) (hbefore' : ∀ m ∈ before', ¬isReady m) : before = before' := by
  have htake := congrArg (List.takeWhile fun m ↦ decide ¬isReady m) h
  rw [List.takeWhile_append_of_pos (by simpa using hbefore), List.takeWhile_append_of_pos (by simpa using hbefore'),
    List.takeWhile_cons_of_neg (by simpa using hready), List.takeWhile_cons_of_neg (by simpa using hready')] at htake
  simpa using htake

/-- Before the server is ready, it sends the message with its signature, or one that the client refuses. -/
def ShowsSignature (pf : Platform) (nonce password : String) (messages : List Message) : Prop :=
  ∀ before ready rest, messages = before ++ ready :: rest → isReady ready → (∀ m ∈ before, ¬isReady m) →
    ∃ m ∈ before, IsAuth Auth.saslFinal m ∨ Refused pf nonce password m

/-- Whatever the server sends: that a connection is only made to a server which showed that it knows the password is to
say that the server does send its signature, or a message that is refused, before it is ready. -/
theorem mutualAuthentication_iff (pf : Platform) (options : Options) (nonce password : String) (messages : List Message) :
    (∀ set, connect pf { options with password := some password } nonce messages set = some (.ok ()) →
      Authenticated pf nonce password messages) ↔ ShowsSignature pf nonce password messages := by
  constructor
  · intro h before ready rest hsplit hready hbefore
    by_contra hnone
    have haccepted : ∀ m ∈ before, ¬IsAuth Auth.saslFinal m ∧ ¬Refused pf nonce password m := by
      intro m hm
      exact ⟨fun hfinal ↦ hnone ⟨m, hm, .inl hfinal⟩, fun hrefused ↦ hnone ⟨m, hm, .inr hrefused⟩⟩
    have hwaiting := after_waiting (h := begin { options with password := some password }) rfl hbefore haccepted
    have hconnect : connect pf { options with password := some password } nonce messages (.ok ()) = some (.ok ()) := by
      have hdone : (after (step pf nonce (some password)) (begin { options with password := some password }) messages).status =
          .ready := by
        rw [hsplit, after_append, after_cons]
        generalize after (step pf nonce (some password)) (begin { options with password := some password }) before = h at hwaiting
        have hstep : step pf nonce (some password) h ready = { h with status := .ready } := by
          rw [step, hwaiting]
          simp [dispatch_ready hready]
        rw [hstep, after_settled (by simp)]
      unfold connect
      rw [hdone]
      simp
    obtain ⟨before', ready', rest', hsplit', hready', hbefore', first, challenge, between, final, others, signature, rfl,
      -, hconcludes⟩ := h (.ok ()) hconnect
    have hsame := first_ready (hsplit.symm.trans hsplit') hready hready' hbefore hbefore'
    exact hnone ⟨final, by simp [hsame], .inl hconcludes.1⟩
  · intro h set hconnect
    have hready : (after (step pf nonce (some password)) (begin { options with password := some password }) messages).status =
        .ready := by
      unfold connect at hconnect
      split at hconnect
      · cases hconnect
      · cases hconnect
      · assumption
    have hstart : Accepted pf nonce password [] (begin { options with password := some password }) :=
      ⟨by simp [begin], by simp, by simp⟩
    obtain ⟨before, ready, rest, rfl, hisready, hbefore, h', haccepted⟩ := ready_split rfl hstart (by simp) hready
    rw [List.nil_append] at hbefore haccepted
    obtain ⟨m, hm, hcases⟩ := h before ready rest rfl hisready hbefore
    refine ⟨before, ready, rest, rfl, hisready, hbefore, haccepted.proved ?_⟩
    rcases hcases with hfinal | hrefused
    · exact ⟨m, hm, hfinal⟩
    · rcases haccepted.each m hm with hfinal | hno
      · exact ⟨m, hm, hfinal⟩
      · exact absurd hrefused hno

def idle : Platform :=
  ⟨fun _ _ _ ↦ [], fun _ _ ↦ [], fun _ ↦ [], fun _ ↦ [], fun _ ↦ "", fun _ ↦ "NaN"⟩

def client : Options := ⟨"noesar", "noesar", none, "noesar-control-plane", 30000⟩

def impostor : List Message := [⟨Backend.authentication, [0, 0, 0, 0]⟩, ⟨Backend.readyForQuery, [0x49]⟩]

theorem impostor_connected : ¬∀ set, connect idle { client with password := some "secret" } "nonce" impostor set =
    some (.ok ()) → Authenticated idle "nonce" "secret" impostor := by
  intro h
  have hconnect : connect idle { client with password := some "secret" } "nonce" impostor (.ok ()) = some (.ok ()) := by
    decide +kernel
  obtain ⟨before, ready, rest, hsplit, -, -, first, challenge, between, final, others, signature, rfl, -, hconcludes⟩ :=
    h (.ok ()) hconnect
  have hmem : final ∈ impostor := by
    rw [hsplit]
    simp
  obtain ⟨⟨htag, hcode⟩, -⟩ := hconcludes
  simp only [impostor, List.mem_cons, List.not_mem_nil, or_false] at hmem
  rcases hmem with rfl | rfl
  · exact absurd hcode (by decide)
  · exact absurd htag (by decide)

end Noesar.Postgres
