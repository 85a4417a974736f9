import Noesar.Authority.Envelope

namespace Noesar.Authority

open Lib Lib.Utf16 Lib.Framing Lib.Json Lib.Decimal Canonical

theorem text_injective : Function.Injective text := by
  intro s t h
  exact String.toList_inj.mp (encode_injective h)

theorem property_cons (name key : String) (v : JsValue) (members : List (Units × JsValue)) :
    property name (.object ((text key, v) :: members)) = if key = name then some v else property name (.object members) := by
  rw [property, List.find?_cons]
  by_cases h : key = name
  · simp [h]
  · have htext : text key ≠ text name := fun heq ↦ h (text_injective heq)
    simp [h, htext, property]

section

variable (serde : Serde) (ns : Numbers)

def characters (v : Option JsValue) : Option String := ((stringOf v).bind decode).map String.ofList

def toI64 (v : Option JsValue) : Option Int64 :=
  (integerOf v).bind fun z ↦ if -2 ^ 63 ≤ z ∧ z < 2 ^ 63 then some (.ofInt z) else none

/-- An envelope of the control plane as the crate has it: with its strings and its times, and
with what the crate reads from the text of its payload. -/
def deliver (envelope : JsValue) : Option Rust.AuthorityEnvelope := do
  let schemaVersion ← characters (property "schemaVersion" envelope)
  let actorId ← characters (property "actorId" envelope)
  let sessionId ← characters (property "sessionId" envelope)
  let action ← characters (property "action" envelope)
  let payload ← (property "payload" envelope).bind fun v ↦ parse serde.reader (print (writer ns) v)
  let nonce ← characters (property "nonce" envelope)
  let issuedAt ← toI64 (property "issuedAt" envelope)
  let expiresAt ← toI64 (property "expiresAt" envelope)
  let signature ← characters (property "signature" envelope)
  return ⟨⟨schemaVersion, actorId, sessionId, action, payload, nonce, issuedAt, expiresAt⟩, signature⟩

end

theorem characters_text (s : String) : characters (some (.string (text s))) = some s := by
  rw [characters, stringOf, Option.bind_some, text, read_encode]

theorem toI64_ofRat {z : ℤ} (hexact : round53 z = z) (h : |z| < 2 ^ 53) :
    toI64 (some (.number (.finite (.ofRat z)))) = some (.ofInt z) := by
  have hval : (Binary64.ofRat z).val = z := hexact
  rw [abs_lt] at h
  rw [toI64, integerOf, hval, Rat.den_intCast, if_pos rfl, Rat.num_intCast, Option.bind_some, if_pos (by omega)]

theorem toInt_ofInt {z : ℤ} (h : |z| < 2 ^ 53) : (Int64.ofInt z).toInt = z := by
  rw [abs_lt] at h
  rw [Int64.toInt_ofInt_of_le] <;> omega

def small (z : ℤ) (h : |z| < 2 ^ 53) : JsInteger where
  val := z
  exact := round53_intCast h.le
  bounded := h.trans (pow_lt_pow_right₀ (by norm_num) (by norm_num))

namespace EnvelopeRequest

variable (r : EnvelopeRequest)

def value (payload : Json String JsInteger) (issuedAt expiresAt : JsInteger) : Json String JsInteger :=
  .object [("schemaVersion", .string "1.1"), ("actorId", .string r.actorId), ("sessionId", .string r.sessionId),
    ("action", .string r.action), ("payload", payload), ("nonce", .string r.nonce), ("issuedAt", .number issuedAt),
    ("expiresAt", .number expiresAt)]

def sent (v : Json String JsInteger) : Json String JsInteger :=
  match v with
  | .null => .object []
  | v => v

variable {r} {v : Json String JsInteger}

theorem sent_js (v : Json String JsInteger) : js (sent v) = payloadOf (some (js v)) := by
  cases v with
  | array items =>
    change js (.array items) = _
    rw [js, map_array]
    rfl
  | object members =>
    change js (.object members) = _
    rw [js, map_object]
    rfl
  | _ => rfl

theorem value_js (hpayload : r.payload = some (js v)) (issuedAt expiresAt : JsInteger) :
    js (r.value (sent v) issuedAt expiresAt) = .object (r.body issuedAt.val expiresAt.val) := by
  rw [body, hpayload, ← sent_js, js, value, map_object]
  rfl

theorem sent_distinct (hv : v.Distinct) : (sent v).Distinct := by
  cases v with
  | null =>
    rw [sent, distinct_object]
    simp
  | _ => exact hv

theorem sent_interoperable (h : Interoperable v) : Interoperable (sent v) := by
  cases v with
  | null =>
    refine ⟨?_, ?_, ?_⟩
    · rw [sent, eachNumber_object]
      simp
    · rw [sent, ordered_object]
      simp
    · rw [sent, depth_object]
      simp
  | _ => exact h

def names : List String :=
  ["schemaVersion", "actorId", "sessionId", "action", "payload", "nonce", "issuedAt", "expiresAt"]

theorem value_distinct (hv : (sent v).Distinct) (issuedAt expiresAt : JsInteger) :
    (r.value (sent v) issuedAt expiresAt).Distinct := by
  have hnames : names.Nodup := by decide
  rw [value, distinct_object]
  refine ⟨hnames, ?_⟩
  simp [hv]

theorem value_ordered (hv : (sent v).Ordered keyRank byteRank) (issuedAt expiresAt : JsInteger) :
    (r.value (sent v) issuedAt expiresAt).Ordered keyRank byteRank := by
  have hnames : ∀ a ∈ names, ∀ b ∈ names, keyRank a ≤ keyRank b ↔ byteRank a ≤ byteRank b := by decide +kernel
  rw [value, ordered_object]
  refine ⟨hnames, ?_⟩
  simp [hv]

end EnvelopeRequest

section

variable {host : Capability.Host} {fraction : Binary64 → List Char} {read : List Char → Option Leaf} {serde : Serde}

variable (host fraction read serde) in
/-- Every envelope that is signed for the payload, at a time that the platform's clock can show,
passes the check of the signature of the crate that holds the secret. -/
def Passes (v : Json String JsInteger) : Prop :=
  ∀ (secret : Bytes) (r : EnvelopeRequest), r.payload = some (js v) → |r.now| ≤ 8640000000000000 →
    ∀ envelope, createAuthorityEnvelope host (platform fraction read) secret r = .ok envelope →
      ∃ received, deliver serde (platform fraction read) envelope = some received ∧
        Rust.checkSignature host secret received = .ok ()

theorem createAuthorityEnvelope_ok {ns : Numbers} {secret : Bytes} {r : EnvelopeRequest} {envelope : JsValue}
    (h : createAuthorityEnvelope host ns secret r = .ok envelope) :
    ∃ ttl, 1 ≤ ttl ∧ ttl ≤ 30 ∧ ∃ signature,
      mac host ns secret (.object (r.body (seconds r.now) (seconds r.now + ttl))) = .ok signature ∧
        envelope = .object (r.body (seconds r.now) (seconds r.now + ttl) ++ [(text "signature", .string signature)]) := by
  simp only [createAuthorityEnvelope] at h
  cases httl : integerOf (some (.number r.ttlSeconds)) with
  | none =>
    simp only [httl] at h
    split_ifs at h
  | some ttl =>
    simp only [httl] at h
    split_ifs at h
    refine ⟨ttl, by omega, by omega, ?_⟩
    cases hmac : mac host ns secret (.object (r.body (seconds r.now) (seconds r.now + ttl))) with
    | error =>
      rw [hmac] at h
      cases h
    | ok signature =>
      rw [hmac] at h
      cases h
      exact ⟨signature, rfl, rfl⟩

theorem seconds_lt {now : ℚ} (h : |now| ≤ 8640000000000000) {ttl : ℤ} (hmin : 0 ≤ ttl) (hmax : ttl ≤ 30) :
    |seconds now + ttl| < 2 ^ 53 := by
  rw [abs_le] at h
  have hlow : (-8640000000000 : ℤ) ≤ seconds now := Int.le_floor.mpr (by push_cast; linarith)
  have hhigh : seconds now < 8640000000001 := Int.floor_lt.mpr (by push_cast; linarith)
  rw [abs_lt]
  omega

theorem deliver_eq {v : Json String JsInteger} (hv : v.Distinct) (hdepth : v.depth ≤ 127) {r : EnvelopeRequest}
    (hpayload : payloadOf r.payload = js v) {issuedAt expiresAt : ℤ} (hissued : |issuedAt| < 2 ^ 53)
    (hexpires : |expiresAt| < 2 ^ 53) (signature : String) :
    deliver serde (platform fraction read)
        (.object (r.body issuedAt expiresAt ++ [(text "signature", .string (text signature))])) =
      some ⟨⟨"1.1", r.actorId, r.sessionId, r.action, v.map id serde.ofInteger, r.nonce, .ofInt issuedAt,
        .ofInt expiresAt⟩, signature⟩ := by
  have hparse : parse serde.reader (print (writer (platform fraction read)) (js v)) = some (v.map id serde.ofInteger) :=
    parse_jsonText hv hdepth
  simp only [deliver, EnvelopeRequest.body, List.cons_append, List.nil_append, property_cons, String.reduceEq, if_true,
    if_false, characters_text, hpayload, hparse, toI64_ofRat (round53_intCast hissued.le) hissued,
    toI64_ofRat (round53_intCast hexpires.le) hexpires, Option.bind_some, Option.bind_eq_bind]
  rfl

theorem canonicalBody_eq (r : EnvelopeRequest) (v : Json String JsInteger) {issuedAt expiresAt : ℤ}
    (hissued : |issuedAt| < 2 ^ 53) (hexpires : |expiresAt| < 2 ^ 53) :
    Rust.canonicalBody ⟨"1.1", r.actorId, r.sessionId, r.action, v.map id serde.ofInteger, r.nonce, .ofInt issuedAt,
        .ofInt expiresAt⟩ =
      toVec ((r.value v (small issuedAt hissued) (small expiresAt hexpires)).map id serde.ofInteger) := by
  rw [EnvelopeRequest.value, map_object]
  simp only [Rust.canonicalBody, List.map_cons, List.map_nil, map_string, map_number, id, toInt_ofInt hissued,
    toInt_ofInt hexpires, ofInteger_small (z := small issuedAt hissued) hissued,
    ofInteger_small (z := small expiresAt hexpires) hexpires]
  rfl

theorem signed_bytes {v : Json String JsInteger} (hv : v.Distinct) (h : Interoperable v) {r : EnvelopeRequest}
    (hpayload : r.payload = some (js v)) {issuedAt expiresAt : ℤ} (hissued : |issuedAt| < 2 ^ 53)
    (hexpires : |expiresAt| < 2 ^ 53) :
    canonicalJsonBytes (platform fraction read) (.object (r.body issuedAt expiresAt)) =
      .ok (Rust.canonicalBody ⟨"1.1", r.actorId, r.sessionId, r.action,
        (EnvelopeRequest.sent v).map id serde.ofInteger, r.nonce, .ofInt issuedAt, .ofInt expiresAt⟩) := by
  have hsent := EnvelopeRequest.sent_interoperable h
  have hnumbers : (r.value (EnvelopeRequest.sent v) (small _ hissued) (small _ hexpires)).EachNumber
      fun z ↦ -2 ^ 63 < z.val ∧ z.val < 2 ^ 64 := by
    have hbound {z : ℤ} (hz : |z| < 2 ^ 53) : -2 ^ 63 < (small z hz).val ∧ (small z hz).val < 2 ^ 64 := by
      have hz := abs_lt.mp hz
      simp only [small]
      omega
    rw [EnvelopeRequest.value, eachNumber_object]
    simp only [List.forall_mem_cons, eachNumber_string, eachNumber_number, hsent.numbers, hbound hissued,
      hbound hexpires, List.not_mem_nil, false_imp_iff, implies_true, and_self]
  rw [canonicalBody_eq r _ hissued hexpires]
  have hbody := EnvelopeRequest.value_js hpayload (small _ hissued) (small _ hexpires)
  change js _ = .object (r.body issuedAt expiresAt) at hbody
  rw [← hbody]
  exact canonicalJsonBytes_eq (EnvelopeRequest.value_distinct (EnvelopeRequest.sent_distinct hv) _ _) hnumbers
    (EnvelopeRequest.value_ordered hsent.keys _ _)

theorem passes_of_interoperable {v : Json String JsInteger} (hv : v.Distinct) (h : Interoperable v) :
    Passes host fraction read serde v := by
  intro secret r hpayload hnow envelope henvelope
  obtain ⟨ttl, hmin, hmax, signature, hmac, rfl⟩ := createAuthorityEnvelope_ok henvelope
  have hissued : |seconds r.now| < 2 ^ 53 := by
    have := seconds_lt hnow (le_refl 0) (by norm_num)
    rwa [add_zero] at this
  have hexpires := seconds_lt hnow (by omega : 0 ≤ ttl) hmax
  have hsent : payloadOf r.payload = js (EnvelopeRequest.sent v) := by
    rw [hpayload, EnvelopeRequest.sent_js]
  rw [mac, @signed_bytes fraction read serde _ hv h _ hpayload _ _ hissued hexpires] at hmac
  cases hmac
  have hdeliver := @deliver_eq fraction read serde _
    (EnvelopeRequest.sent_distinct hv) (EnvelopeRequest.sent_interoperable h).shallow _ hsent _ _ hissued hexpires
  have hcharacters (cs : List Char) : encode cs = text (String.ofList cs) := by rw [text, String.toList_ofList]
  dsimp only
  rw [hcharacters]
  refine ⟨_, hdeliver _, ?_⟩
  rw [Rust.checkSignature, String.toList_ofList, Base64.decode_encode]
  simp

end

section Sample

def noFloats : Serde where
  float _ := some "0.0".toList
  shaped cs text h := by
    cases h
    have hnumerals : ['.', '0'].all isNumeral = true := by decide
    exact ⟨⟨'0', ['.', '0'], rfl, .inr rfl, List.all_eq_true.mp hnumerals⟩, .inl (by decide), by decide⟩
  reads _ := rfl

/-- `{"b":1,"a":[{"é":null}]}` -/
def nested : Json String JsInteger :=
  .object [("b", .number (small 1 (by norm_num))), ("a", .array [.object [("é", .null)]])]

/-- Two keys, of which the first is ahead by its bytes and the second by its code units. -/
def emojiKey : Json String JsInteger := .object [("Ａ", .null), ("😀", .null)]

end Sample

end Noesar.Authority
