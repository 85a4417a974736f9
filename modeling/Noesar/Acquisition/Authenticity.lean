import Noesar.Lib.JsonOrder
import Noesar.Authority.Agreement

namespace Noesar.Acquisition

open Lib Lib.Utf16 Lib.Framing Lib.Json Canonical Authority

/-- The keys and digests of the platform, its texts of bytes and of values. -/
structure Platform where
  SecretKey : Type
  PublicKey : Type
  createPrivateKey : String → Except String SecretKey
  createPublicKey : String → Except String PublicKey
  publicKey : SecretKey → PublicKey
  spki : PublicKey → Bytes
  sha256 : Bytes → Bytes
  sign : SecretKey → Bytes → Bytes
  verify : PublicKey → Bytes → Bytes → Except String Bool
  toBase64 : Bytes → Units
  fromBase64 : Units → Bytes
  shown : JsValue → Except String Units
  toLowerCase : Units → Units

/-- What is known of the platform: a signature that was made verifies, bytes come back from their text, and a digest is
not empty. -/
structure Platform.Lawful (pf : Platform) : Prop where
  verifies : ∀ key message, pf.verify (pf.publicKey key) message (pf.sign key message) = .ok true
  fromBase64_toBase64 : ∀ bytes, pf.fromBase64 (pf.toBase64 bytes) = bytes
  digest : ∀ bytes, pf.sha256 bytes ≠ []
  lower : pf.toLowerCase (text "ed25519") = text "ed25519"

inductive DescriptorAuthenticity
  | noSignature
  | noPublisher
  | noRegistry
  | keyNotTrusted
  | signatureInvalid
  deriving DecidableEq

inductive Verification
  | verified (publisherId fingerprint trustLevel signedAt : JsValue)
  | refused (kind : DescriptorAuthenticity) (reason : Units)

structure KeyRecord where
  publicKeyPem : String
  trustLevel : Option JsValue

section

variable (pf : Platform) (ns : Numbers)

def publicKeyFingerprint (key : pf.PublicKey) : Units := text (hex (pf.sha256 (pf.spki key)))

/-- A registry finds a key of a publisher by the fingerprint of the key. -/
structure Registry where
  findActiveKey : JsValue → JsValue → Except String (Option KeyRecord)
  byFingerprint : ∀ publisherId fingerprint record key, findActiveKey publisherId fingerprint = .ok (some record) →
    pf.createPublicKey record.publicKeyPem = .ok key → fingerprint = .string (publicKeyFingerprint pf key)

def membersOf : JsValue → List (Units × JsValue)
  | .object members => members
  | _ => []

def setProperty (name : String) (v descriptor : JsValue) : JsValue :=
  .object (InsertionMap.put (text name) v (membersOf descriptor))

/-- `String(value)` -/
def asString : JsValue → Except String Units
  | .string s => .ok s
  | v => pf.shown v

/-- `value ?? null` -/
def orNull (v : Option JsValue) : JsValue :=
  match v with
  | none | some (.number (.other "undefined")) => .null
  | some v => v

def canonicalDescriptorBytes (descriptor : JsValue) : Except String Bytes :=
  canonicalJsonBytes ns (without "authenticity" (without "signature" descriptor))

def signatureOf (key : pf.SecretKey) (bytes : Bytes) (signedAt : JsValue) : JsValue :=
  .object [(text "algorithm", .string (text "ed25519")), (text "value", .string (pf.toBase64 (pf.sign key bytes))),
    (text "publicKeyFingerprint", .string (publicKeyFingerprint pf (pf.publicKey key))), (text "signedAt", signedAt)]

def signModelDescriptor (descriptor : JsValue) (privateKeyPem : String) (signedAt : Option JsValue) (now : Units) :
    Except String JsValue := do
  let privateKey ← pf.createPrivateKey privateKeyPem
  let bytes ← canonicalDescriptorBytes ns descriptor
  let signedAt := if orNull signedAt matches .null then .string now else orNull signedAt
  return setProperty "signature" (signatureOf pf privateKey bytes signedAt) descriptor

def checkSignature (descriptor : JsValue) (record : KeyRecord) (value : Units) : Except String Bool := do
  let bytes ← canonicalDescriptorBytes ns descriptor
  let key ← pf.createPublicKey record.publicKeyPem
  pf.verify key bytes (pf.fromBase64 value)

def algorithmFits (algorithm : Option JsValue) : Except String Bool :=
  if truthy algorithm then (asString pf (orNull algorithm)).map fun name ↦ pf.toLowerCase name = text "ed25519"
  else .ok true

def verifyUnder (descriptor : JsValue) (registry : Registry pf) (publisherId fingerprint : JsValue) (value : Units)
    (signedAt : JsValue) : Except String Verification := do
  match ← registry.findActiveKey publisherId fingerprint with
  | none =>
    let publisher ← asString pf publisherId
    return .refused .keyNotTrusted
      (text "no active key of \"" ++ publisher ++ text "\" matches the fingerprint this descriptor was signed with")
  | some record =>
    match checkSignature pf ns descriptor record value with
    | .error message => return .refused .signatureInvalid (text s!"the signature could not be checked: {message}")
    | .ok false =>
      let reason := "the signature does not verify against the registered key of this publisher — the descriptor has been " ++
        "altered since it was signed"
      return .refused .signatureInvalid (text reason)
    | .ok true => return .verified publisherId fingerprint (orNull record.trustLevel) signedAt

def verifyModelDescriptor (descriptor : JsValue) (registry : Option (Registry pf)) : Except String Verification := do
  let signature := orNull (property "signature" descriptor)
  let fingerprint := property "publicKeyFingerprint" signature
  let algorithm := property "algorithm" signature
  let publisherId := property "publisher" descriptor
  match stringOf (property "value" signature), truthy fingerprint with
  | none, _ | _, false =>
    let reason := "this descriptor carries no publisher signature, so nothing states where it came from"
    return .refused .noSignature (text reason)
  | some value, true =>
    if !(← algorithmFits pf algorithm) then
      let name ← asString pf (orNull algorithm)
      return .refused .signatureInvalid
        (text "\"" ++ name ++ text "\" is not a signature algorithm this installation verifies")
    else if !truthy publisherId then
      return .refused .noPublisher (text "the descriptor names no publisher, so its signature cannot be attributed")
    else match registry with
    | none => return .refused .noRegistry (text "no publisher registry is available, so no origin can be verified")
    | some registry =>
      verifyUnder pf ns descriptor registry (orNull publisherId) (orNull fingerprint) value
        (orNull (property "signedAt" signature))

def ActiveKey (registry : Option (Registry pf)) (publisher : Option JsValue) (key : pf.PublicKey) : Prop :=
  truthy publisher ∧ ∃ reg fingerprint record, registry = some reg ∧
    reg.findActiveKey (orNull publisher) fingerprint = .ok (some record) ∧ pf.createPublicKey record.publicKeyPem = .ok key

def valueOf (descriptor : JsValue) : Option Units := stringOf (property "value" (orNull (property "signature" descriptor)))

def Verified (descriptor : JsValue) (registry : Option (Registry pf)) : Prop :=
  ∃ publisherId fingerprint trustLevel signedAt,
    verifyModelDescriptor pf ns descriptor registry = .ok (.verified publisherId fingerprint trustLevel signedAt)

variable {pf ns}

theorem checkSignature_ok {descriptor : JsValue} {record : KeyRecord} {value : Units} :
    checkSignature pf ns descriptor record value = .ok true ↔ ∃ bytes key, canonicalDescriptorBytes ns descriptor = .ok bytes ∧
      pf.createPublicKey record.publicKeyPem = .ok key ∧ pf.verify key bytes (pf.fromBase64 value) = .ok true := by
  simp only [checkSignature, bind_ok, exists_and_left]

theorem verifyUnder_verified {descriptor : JsValue} {registry : Registry pf} {publisherId fingerprint signedAt : JsValue}
    {value : Units} {p f t s : JsValue}
    (h : verifyUnder pf ns descriptor registry publisherId fingerprint value signedAt = .ok (.verified p f t s)) :
    ∃ record, registry.findActiveKey publisherId fingerprint = .ok (some record) ∧
      checkSignature pf ns descriptor record value = .ok true := by
  rw [verifyUnder, bind_ok] at h
  obtain ⟨found, hfound, h⟩ := h
  cases found with
  | none =>
    obtain ⟨publisher, -, h⟩ := bind_ok.mp h
    cases h
  | some record =>
    refine ⟨record, hfound, ?_⟩
    dsimp only at h
    cases hcheck : checkSignature pf ns descriptor record value with
    | error =>
      rw [hcheck] at h
      cases h
    | ok passed =>
      rw [hcheck] at h
      cases passed with
      | false => cases h
      | true => rfl

theorem verified_signature {descriptor : JsValue} {registry : Option (Registry pf)} (h : Verified pf ns descriptor registry) :
    ∃ key bytes value, ActiveKey pf registry (property "publisher" descriptor) key ∧ valueOf descriptor = some value ∧
      canonicalDescriptorBytes ns descriptor = .ok bytes ∧ pf.verify key bytes (pf.fromBase64 value) = .ok true := by
  obtain ⟨p, f, t, s, h⟩ := h
  rw [verifyModelDescriptor] at h
  rw [valueOf]
  dsimp only at h
  split at h
  · cases h
  · cases h
  · next value hvalue _ =>
    obtain ⟨fits, -, h⟩ := bind_ok.mp h
    cases fits with
    | false =>
      obtain ⟨name, -, h⟩ := bind_ok.mp h
      cases h
    | true =>
      cases hnamed : truthy (property "publisher" descriptor) with
      | false =>
        rw [hnamed] at h
        cases h
      | true =>
        rw [hnamed] at h
        cases registry with
        | none => cases h
        | some reg =>
          obtain ⟨record, hactive, hcheck⟩ := verifyUnder_verified h
          obtain ⟨bytes, key, hbytes, hkey, hverifies⟩ := checkSignature_ok.mp hcheck
          exact ⟨key, bytes, value, ⟨hnamed, reg, _, record, rfl, hactive, hkey⟩, hvalue, hbytes, hverifies⟩

theorem property_eq (name : String) (members : List (Units × JsValue)) :
    property name (.object members) = InsertionMap.lookup (text name) members := by
  induction members with
  | nil => rfl
  | cons m members ih =>
    obtain ⟨k, v⟩ := m
    rw [property, List.find?_cons, InsertionMap.lookup]
    by_cases h : k = text name
    · simp [h]
    · simpa [h, property] using ih

theorem property_setProperty (name other : String) (v : JsValue) (members : List (Units × JsValue)) :
    property name (setProperty other v (.object members)) =
      if other = name then some v else property name (.object members) := by
  rw [setProperty, membersOf, property_eq, property_eq, InsertionMap.lookup_put]
  by_cases h : other = name
  · rw [if_pos h, if_pos (congrArg text h)]
  · rw [if_neg h, if_neg fun heq ↦ h (text_injective heq)]

theorem filter_put (k : Units) (v : JsValue) (members : List (Units × JsValue)) :
    (InsertionMap.put k v members).filter (fun m ↦ m.1 ≠ k) = members.filter fun m ↦ m.1 ≠ k := by
  induction members with
  | nil => simp [InsertionMap.put]
  | cons m members ih =>
    obtain ⟨j, w⟩ := m
    by_cases h : j = k
    · simp [InsertionMap.put, h]
    · simpa [InsertionMap.put, h] using ih

theorem canonicalDescriptorBytes_setProperty (signature : JsValue) (members : List (Units × JsValue)) :
    canonicalDescriptorBytes ns (setProperty "signature" signature (.object members)) =
      canonicalDescriptorBytes ns (.object members) := by
  simp only [canonicalDescriptorBytes, setProperty, membersOf, without, filter_put]

theorem verifyUnder_eq {descriptor : JsValue} {registry : Registry pf} {publisherId fingerprint signedAt : JsValue}
    {value : Units} {record : KeyRecord} (hfound : registry.findActiveKey publisherId fingerprint = .ok (some record))
    (hcheck : checkSignature pf ns descriptor record value = .ok true) :
    verifyUnder pf ns descriptor registry publisherId fingerprint value signedAt =
      .ok (.verified publisherId fingerprint (orNull record.trustLevel) signedAt) := by
  unfold verifyUnder
  rw [hfound]
  change (match checkSignature pf ns descriptor record value with | .error _ => _ | .ok false => _ | .ok true => _) = _
  rw [hcheck]
  rfl

theorem verifyModelDescriptor_eq {descriptor signature : JsValue} {registry : Registry pf} {value : Units}
    (hsignature : orNull (property "signature" descriptor) = signature)
    (hvalue : stringOf (property "value" signature) = some value)
    (hfingerprint : truthy (property "publicKeyFingerprint" signature) = true)
    (hfits : algorithmFits pf (property "algorithm" signature) = .ok true)
    (hnamed : truthy (property "publisher" descriptor) = true) :
    verifyModelDescriptor pf ns descriptor (some registry) =
      verifyUnder pf ns descriptor registry (orNull (property "publisher" descriptor))
        (orNull (property "publicKeyFingerprint" signature)) value (orNull (property "signedAt" signature)) := by
  unfold verifyModelDescriptor
  rw [hsignature]
  dsimp only
  rw [hvalue, hfingerprint, hfits]
  change (if (!truthy (property "publisher" descriptor)) = true then _ else verifyUnder pf ns descriptor _ _ _ _ _) = _
  rw [hnamed]
  rfl

theorem verified_of_signed (hlawful : pf.Lawful) {descriptor : JsValue} {registry : Option (Registry pf)} {key : pf.SecretKey}
    {bytes : Bytes} {signedAt : JsValue} (hactive : ActiveKey pf registry (property "publisher" descriptor) (pf.publicKey key))
    (hbytes : canonicalDescriptorBytes ns descriptor = .ok bytes)
    (hsignature : property "signature" descriptor = some (signatureOf pf key bytes signedAt)) :
    Verified pf ns descriptor registry := by
  obtain ⟨hnamed, reg, fingerprint, record, rfl, hfound, hkey⟩ := hactive
  obtain rfl := reg.byFingerprint _ _ _ _ hfound hkey
  have hne : publicKeyFingerprint pf (pf.publicKey key) ≠ [] := by
    intro h
    have hhex : (hex (pf.sha256 (pf.spki (pf.publicKey key)))) = "" := text_injective h
    have hlength := hex_length (pf.sha256 (pf.spki (pf.publicKey key)))
    rw [hhex] at hlength
    exact hlawful.digest _ (List.eq_nil_of_length_eq_zero (by simpa using hlength.symm))
  have hor : orNull (property "signature" descriptor) = signatureOf pf key bytes signedAt := by rw [hsignature]; rfl
  have hvalue : property "value" (signatureOf pf key bytes signedAt) = some (.string (pf.toBase64 (pf.sign key bytes))) := by
    rw [signatureOf, property_cons, property_cons]; rfl
  have hfingerprint : property "publicKeyFingerprint" (signatureOf pf key bytes signedAt) =
      some (.string (publicKeyFingerprint pf (pf.publicKey key))) := by
    rw [signatureOf, property_cons, property_cons, property_cons]; rfl
  have halgorithm : property "algorithm" (signatureOf pf key bytes signedAt) = some (.string (text "ed25519")) := by
    rw [signatureOf, property_cons]; rfl
  have hfits : algorithmFits pf (some (.string (text "ed25519"))) = .ok true := by
    rw [algorithmFits, if_pos (by decide)]
    simp [orNull, asString, Except.map, hlawful.lower]
  have hcheck : checkSignature pf ns descriptor record (pf.toBase64 (pf.sign key bytes)) = .ok true := by
    rw [checkSignature_ok]
    refine ⟨bytes, _, hbytes, hkey, ?_⟩
    rw [hlawful.fromBase64_toBase64]
    exact hlawful.verifies key bytes
  have htruthy : truthy (property "publicKeyFingerprint" (signatureOf pf key bytes signedAt)) = true := by
    rw [hfingerprint]
    exact decide_eq_true hne
  have hverify := @verifyModelDescriptor_eq pf ns _ _ reg _ hor (by rw [hvalue]; rfl) htruthy
    (by rw [halgorithm]; exact hfits) hnamed
  rw [hfingerprint] at hverify
  exact ⟨_, _, _, _, hverify.trans (verifyUnder_eq hfound hcheck)⟩

end

section

variable (pf : Platform) (ns : Numbers)

/-- A JSON object whose numbers have texts of their own. -/
structure Descriptor where
  members : List (Units × JsValue)
  distinct : (Json.object members).Distinct
  legible : (Json.object members).EachNumber (Legible ns)

variable {ns} in
def Descriptor.value (d : Descriptor ns) : JsValue := .object d.members

variable {ns} in
def Descriptor.carrying (d : Descriptor ns) (signature : JsValue) : JsValue := setProperty "signature" signature d.value

def AgreeBut (names : List String) (descriptor other : JsValue) : Prop :=
  ∀ key, (∀ name ∈ names, key ≠ text name) →
    Option.Rel (Same value) (InsertionMap.lookup key (membersOf descriptor)) (InsertionMap.lookup key (membersOf other))

/-- A call of `signModelDescriptor` that came to its end. -/
structure Signing where
  descriptor : Descriptor ns
  privateKeyPem : String
  signedAt : Option JsValue
  now : Units
  signed : JsValue
  returned : signModelDescriptor pf ns descriptor.value privateKeyPem signedAt now = .ok signed

/-- Who has the keys of the registry signs descriptors only, and nobody else comes up with a signature that verifies
under one of them. -/
structure World where
  registry : Option (Registry pf)
  signings : Set (Signing pf ns)
  signatures : Set Bytes
  made : ∀ c ∈ signings, ∀ value, valueOf c.signed = some value → pf.fromBase64 value ∈ signatures
  unforgeable : ∀ publisher key, ActiveKey pf registry publisher key → ∀ bytes, ∀ signature ∈ signatures,
    pf.verify key bytes signature = .ok true → ∃ c ∈ signings,
      (∃ privateKey, pf.createPrivateKey c.privateKeyPem = .ok privateKey ∧ pf.publicKey privateKey = key) ∧
      canonicalDescriptorBytes ns c.descriptor.value = .ok bytes

end

section

variable {pf : Platform} {ns : Numbers}

theorem signModelDescriptor_ok {descriptor signed : JsValue} {privateKeyPem : String} {signedAt : Option JsValue} {now : Units} :
    signModelDescriptor pf ns descriptor privateKeyPem signedAt now = .ok signed ↔
      ∃ key bytes, pf.createPrivateKey privateKeyPem = .ok key ∧ canonicalDescriptorBytes ns descriptor = .ok bytes ∧
        setProperty "signature" (signatureOf pf key bytes
          (if orNull signedAt matches .null then .string now else orNull signedAt)) descriptor = signed := by
  simp only [signModelDescriptor, bind_ok, pure, Except.pure, Except.ok.injEq, exists_and_left]

theorem lookup_rest (d : Descriptor ns) (key : Units) :
    InsertionMap.lookup key (membersOf (without "authenticity" (without "signature" d.value))) =
      if key ≠ text "signature" ∧ key ≠ text "authenticity" then InsertionMap.lookup key d.members else none := by
  simp only [Descriptor.value, without, membersOf]
  rw [lookup_filter fun k ↦ decide (k ≠ text "authenticity"), lookup_filter fun k ↦ decide (k ≠ text "signature")]
  by_cases hs : key = text "signature"
  · simp [hs]
  · by_cases ha : key = text "authenticity"
    · simp [ha]
    · simp [hs, ha]

theorem rest_distinct (d : Descriptor ns) : (without "authenticity" (without "signature" d.value)).Distinct := by
  have hd := (distinct_object _).mp d.distinct
  simp only [Descriptor.value, without, distinct_object]
  exact ⟨hd.1.sublist ((List.filter_sublist.trans List.filter_sublist).map _),
    fun m hm ↦ hd.2 m (List.mem_of_mem_filter (List.mem_of_mem_filter hm))⟩

theorem rest_each {P : Leaf → Prop} {d : Descriptor ns} (h : d.value.EachNumber P) :
    (without "authenticity" (without "signature" d.value)).EachNumber P := by
  rw [Descriptor.value, eachNumber_object] at h
  simp only [Descriptor.value, without, eachNumber_object]
  exact fun m hm ↦ h m (List.mem_of_mem_filter (List.mem_of_mem_filter hm))

theorem rest_same_iff {d e : Descriptor ns} :
    Same value (without "authenticity" (without "signature" d.value)) (without "authenticity" (without "signature" e.value)) ↔
      AgreeBut ["signature", "authenticity"] d.value e.value := by
  have hd := ((distinct_object _).mp (rest_distinct d)).1
  have he := ((distinct_object _).mp (rest_distinct e)).1
  refine (same_object_iff hd he).trans (forall_congr' fun key ↦ ?_)
  have hld := lookup_rest d key
  have hle := lookup_rest e key
  simp only [Descriptor.value, without, membersOf] at hld hle
  rw [hld, hle]
  by_cases h : key ≠ text "signature" ∧ key ≠ text "authenticity"
  · rw [if_pos h, if_pos h]
    simp [h.1, h.2, Descriptor.value, membersOf]
  · rw [if_neg h, if_neg h]
    constructor
    · intro _ hall
      exact absurd ⟨hall _ (by simp), hall _ (by simp)⟩ h
    · intro _
      exact .none

theorem canonicalDescriptorBytes_iff {d e : Descriptor ns} {bytes : Bytes}
    (hd : canonicalDescriptorBytes ns d.value = .ok bytes) :
    canonicalDescriptorBytes ns e.value = .ok bytes ↔ AgreeBut ["signature", "authenticity"] d.value e.value := by
  obtain ⟨text, htext, hbytes⟩ := map_ok.mp hd
  have hfinite := finite_of_canonicalJson ns htext
  have hplain : Plain (without "authenticity" (without "signature" d.value)) := ⟨rest_distinct d, hfinite⟩
  rw [← rest_same_iff]
  have hdetermines (hfe) := canonicalJson_determines ns hplain ⟨rest_distinct e, hfe⟩ (rest_each d.legible) (rest_each e.legible)
  constructor
  · intro he
    obtain ⟨text', htext', hbytes'⟩ := map_ok.mp he
    have heq := String.ofList_injective (utf8_injective (hbytes.trans hbytes'.symm))
    rw [← (hdetermines (finite_of_canonicalJson ns htext')).1, htext, htext', heq]
  · intro hsame
    have hfe : (without "authenticity" (without "signature" e.value)).EachNumber isFinite := by
      have hnorm := (same_iff_norm unitRank_injective hplain.distinct (rest_distinct e)).mp hsame
      have hvalues : (norm unitRank value (without "authenticity" (without "signature" e.value))).EachNumber isFinite := by
        rw [← hnorm]
        exact norm_eachNumber (fun _ ↦ isFinite_value) hfinite
      refine eachNumber_of_norm ?_ hvalues
      intro leaf h
      cases leaf <;> trivial
    have heq := ((hdetermines hfe).1.mpr hsame).symm.trans htext
    rw [canonicalDescriptorBytes, canonicalJsonBytes, heq]
    exact congrArg Except.ok hbytes

theorem canonicalDescriptorBytes_finite {d : Descriptor ns} (h : d.value.EachNumber isFinite) :
    ∃ bytes, canonicalDescriptorBytes ns d.value = .ok bytes := by
  have htext := canonicalJson_eq ns (rest_each h)
  rw [canonicalDescriptorBytes, canonicalJsonBytes, htext]
  exact ⟨_, rfl⟩

theorem agreeBut_carrying {d e : Descriptor ns} {signature : JsValue} :
    AgreeBut ["signature"] e.value (d.carrying signature) ↔ AgreeBut ["signature"] e.value d.value := by
  refine forall_congr' fun key ↦ forall_congr' fun hkey ↦ ?_
  have hne : text "signature" ≠ key := fun h ↦ hkey _ (by simp) h.symm
  rw [Descriptor.carrying, setProperty, membersOf, InsertionMap.lookup_put, if_neg hne]

theorem agreeBut_signature_iff {d e : Descriptor ns} : AgreeBut ["signature"] e.value d.value ↔
    AgreeBut ["signature", "authenticity"] e.value d.value ∧
      Option.Rel (Same value) (property "authenticity" e.value) (property "authenticity" d.value) := by
  have hne : text "authenticity" ≠ text "signature" := by decide
  rw [Descriptor.value, Descriptor.value, property_eq, property_eq]
  constructor
  · intro h
    exact ⟨fun key hkey ↦ h key fun name hname ↦ hkey name (by simp_all), h _ (by simpa using hne)⟩
  · rintro ⟨h, ha⟩ key hkey
    by_cases heq : key = text "authenticity"
    · subst heq
      exact ha
    · exact h key (by simpa [heq] using hkey)

theorem carrying_property {d : Descriptor ns} {signature : JsValue} {name : String} (h : "signature" ≠ name) :
    property name (d.carrying signature) = property name d.value := by
  rw [Descriptor.carrying, Descriptor.value, property_setProperty, if_neg h]

namespace World

variable (W : World pf ns) (d : Descriptor ns)

/-- The owner of a key that is active for the publisher of the descriptor made the call. -/
def SignedFor (c : Signing pf ns) : Prop :=
  c ∈ W.signings ∧ ∃ key, pf.createPrivateKey c.privateKeyPem = .ok key ∧
    ActiveKey pf W.registry (property "publisher" d.value) (pf.publicKey key)

/-- Whatever signature it carries: a descriptor that is verified is one that the publisher signed. -/
def OnlySigned : Prop :=
  ∀ signature, (∀ v, valueOf (d.carrying signature) = some v → pf.fromBase64 v ∈ W.signatures) →
    Verified pf ns (d.carrying signature) W.registry →
    ∃ c, W.SignedFor d c ∧ AgreeBut ["signature"] c.descriptor.value (d.carrying signature)

def SignedPasses : Prop :=
  ∀ privateKeyPem signedAt now key, pf.createPrivateKey privateKeyPem = .ok key →
    ActiveKey pf W.registry (property "publisher" d.value) (pf.publicKey key) → d.value.EachNumber isFinite →
    ∃ signed, signModelDescriptor pf ns d.value privateKeyPem signedAt now = .ok signed ∧ Verified pf ns signed W.registry

variable {W d}

theorem signedPasses (hlawful : pf.Lawful) : W.SignedPasses d := by
  intro privateKeyPem signedAt now key hkey hactive hfinite
  obtain ⟨bytes, hbytes⟩ := canonicalDescriptorBytes_finite hfinite
  refine ⟨_, signModelDescriptor_ok.mpr ⟨key, bytes, hkey, hbytes, rfl⟩, ?_⟩
  apply @verified_of_signed pf ns hlawful _ _ key bytes
  · rw [Descriptor.value, property_setProperty]
    exact hactive
  · rw [Descriptor.value, canonicalDescriptorBytes_setProperty]
    exact hbytes
  · rw [Descriptor.value, property_setProperty, if_pos rfl]

end World

end

section Sample

def mirror : Platform where
  SecretKey := Unit
  PublicKey := Unit
  createPrivateKey _ := .ok ()
  createPublicKey _ := .ok ()
  publicKey _ := ()
  spki _ := []
  sha256 _ := [0]
  sign _ message := message
  verify _ message signature := .ok (message = signature)
  toBase64 bytes := bytes.map UInt8.toUInt16
  fromBase64 us := us.map UInt16.toUInt8
  shown _ := .error "Cannot convert object to primitive value"
  toLowerCase := id

theorem mirror_lawful : mirror.Lawful where
  verifies _ message := congrArg Except.ok (decide_eq_true rfl)
  fromBase64_toBase64 bytes := by
    change (bytes.map UInt8.toUInt16).map UInt16.toUInt8 = bytes
    rw [List.map_map]
    exact (List.map_congr_left fun b _ ↦ UInt8.toUInt8_toUInt16 b).trans (List.map_id bytes)
  digest _ := List.cons_ne_nil 0 []
  lower := rfl

def onlyKey : Registry mirror where
  findActiveKey
    | _, .string fingerprint =>
      .ok (if fingerprint = publicKeyFingerprint mirror () then some ⟨"acme.pem", none⟩ else none)
    | _, _ => .ok none
  byFingerprint publisherId fingerprint record key hfound hkey := by
    cases fingerprint with
    | string s =>
      by_cases hs : s = publicKeyFingerprint mirror ()
      · exact congrArg Json.string hs
      · simp [hs] at hfound
    | _ => cases hfound

/-- `{"publisher":"acme"}` -/
def acme : Descriptor zeroAndOne where
  members := [(text "publisher", .string (text "acme"))]
  distinct := by simp [distinct_object]
  legible := by simp [eachNumber_object]

/-- `{"publisher":"acme","authenticity":"VERIFIED"}` -/
def endorsed : Descriptor zeroAndOne where
  members := [(text "publisher", .string (text "acme")), (text "authenticity", .string (text "VERIFIED"))]
  distinct := by
    have hne : text "publisher" ≠ text "authenticity" := by decide
    simp [distinct_object, hne]
  legible := by simp [eachNumber_object]

def acmeBytes : Bytes := ((canonicalDescriptorBytes zeroAndOne acme.value).toOption).getD []

theorem canonicalDescriptorBytes_acme : canonicalDescriptorBytes zeroAndOne acme.value = .ok acmeBytes := by
  have hfinite : acme.value.EachNumber isFinite := by simp [Descriptor.value, acme, eachNumber_object]
  obtain ⟨bytes, hbytes⟩ := canonicalDescriptorBytes_finite hfinite
  rw [acmeBytes, hbytes]
  rfl

def acmeSigning : Signing mirror zeroAndOne where
  descriptor := acme
  privateKeyPem := "acme"
  signedAt := none
  now := []
  signed := setProperty "signature" (signatureOf mirror () acmeBytes (.string [])) acme.value
  returned := signModelDescriptor_ok.mpr ⟨(), acmeBytes, rfl, canonicalDescriptorBytes_acme, rfl⟩

def acmeWorld : World mirror zeroAndOne where
  registry := some onlyKey
  signings := {acmeSigning}
  signatures := {acmeBytes}
  made c hc v hv := by
    obtain rfl := Set.mem_singleton_iff.mp hc
    have hvalue : valueOf acmeSigning.signed = some (mirror.toBase64 acmeBytes) := by
      have hsignature : property "signature" acmeSigning.signed =
          some (signatureOf mirror () acmeBytes (.string [])) := (property_setProperty _ _ _ _).trans (if_pos rfl)
      rw [valueOf, hsignature]
      rfl
    rw [← Option.some.inj (hvalue.symm.trans hv)]
    exact mirror_lawful.fromBase64_toBase64 acmeBytes
  unforgeable publisher key hactive bytes signature hsignature hverifies := by
    refine ⟨acmeSigning, rfl, ⟨(), rfl, rfl⟩, ?_⟩
    have heq : bytes = signature := of_decide_eq_true (Except.ok.inj hverifies)
    rw [heq, Set.mem_singleton_iff.mp hsignature]
    exact canonicalDescriptorBytes_acme

end Sample

theorem onlyKey_active {publisher : Option JsValue} (h : truthy publisher) : ActiveKey mirror (some onlyKey) publisher () :=
  ⟨h, onlyKey, .string (publicKeyFingerprint mirror ()), ⟨"acme.pem", none⟩, rfl, congrArg Except.ok (if_pos rfl), rfl⟩

end Noesar.Acquisition
