import Noesar.Streams.Reading

namespace Noesar.Streams.Websocket

open Lib Lib.Framing

/-- Points are taken off the end, where the last of them is first, until their bytes fit. -/
def popUntil (limit : ℕ) : List Char → List Char
  | [] => []
  | point :: points =>
    if limit < (Utf8.encode (point :: points).reverse).length then popUntil limit points else (point :: points).reverse

def capReason (reason : List Char) : Bytes :=
  if 123 < (Utf8.encode reason).length then Utf8.encode (popUntil 123 reason.reverse) else Utf8.encode reason

def encodeClose (code : ℕ) (reason : List Char) : Except Thrown Bytes := do
  let header ← writeUInt 2 code
  encodeFrame .close (header ++ capReason reason) true

def isReserved (code : ℕ) : Bool :=
  code < 1000 || code = 1004 || code = 1005 || code = 1006 || (1016 ≤ code && code ≤ 2999)

def decodeClose (payload : Bytes) : Except WebSocketProtocolError (ℕ × List Char) :=
  if payload.length = 0 then .ok (CloseCode.normal, [])
  else if payload.length = 1 then .error (violation "a close payload of one byte is a truncated status code")
  else do
    let code := BigEndian.ofBytes (payload.take 2)
    require (¬isReserved code) (violation s!"close code {code} may not be sent")
    let reason ← demand (utf8Decode (payload.drop 2)) ⟨CloseCode.invalidPayload, "a close reason must be valid UTF-8"⟩
    return (code, reason)

def Fits (limit : ℕ) (reason points : List Char) : Prop := points <+: reason ∧ (Utf8.encode points).length ≤ limit

structure Longest (limit : ℕ) (reason points : List Char) : Prop where
  fits : Fits limit reason points
  most : ∀ others, Fits limit reason others → others <+: points

variable {limit code : ℕ} {reason points : List Char}

theorem longest_self (h : (Utf8.encode reason).length ≤ limit) : Longest limit reason reason :=
  ⟨⟨List.prefix_rfl, h⟩, fun _ hothers ↦ hothers.1⟩

theorem Longest.of_front {point : Char} (hlong : limit < (Utf8.encode (reason ++ [point])).length)
    (h : Longest limit reason points) : Longest limit (reason ++ [point]) points := by
  refine ⟨⟨h.fits.1.trans (List.prefix_append reason [point]), h.fits.2⟩, fun others hothers ↦ ?_⟩
  rcases List.prefix_concat_iff.mp hothers.1 with rfl | hfront
  · exact absurd hothers.2 (Nat.not_le.mpr hlong)
  · exact h.most others ⟨hfront, hothers.2⟩

theorem longest_popUntil (limit : ℕ) (points : List Char) : Longest limit points.reverse (popUntil limit points) := by
  induction points with
  | nil => exact longest_self (Nat.zero_le limit)
  | cons point points ih =>
    rw [popUntil]
    split
    next hlong =>
      rw [List.reverse_cons] at hlong ⊢
      exact ih.of_front hlong
    next hshort => exact longest_self (Nat.not_lt.mp hshort)

theorem capReason_longest (reason : List Char) : ∃ points, capReason reason = Utf8.encode points ∧ Longest 123 reason points := by
  rw [capReason]
  split
  · have hlongest := longest_popUntil 123 reason.reverse
    rw [List.reverse_reverse] at hlongest
    exact ⟨_, rfl, hlongest⟩
  next hshort => exact ⟨reason, rfl, longest_self (Nat.not_lt.mp hshort)⟩

theorem Longest.unique {others : List Char} (h : Longest limit reason points) (h' : Longest limit reason others) :
    points = others :=
  (h'.most points h.fits).eq_of_length (Nat.le_antisymm (h'.most points h.fits).length_le (h.most others h'.fits).length_le)

theorem Longest.head (h : Longest limit reason points) {point : Char} (hpoint : (String.utf8EncodeChar point).length ≤ limit)
    (hreason : reason.head? = some point) : points.head? = some point := by
  obtain ⟨rest, rfl⟩ := List.head?_eq_some_iff.mp hreason
  have hone : Fits limit (point :: rest) [point] := ⟨⟨rest, rfl⟩, by rwa [Utf8.encode, List.flatMap_singleton]⟩
  obtain ⟨rest', rfl⟩ := h.most [point] hone
  rfl

theorem Longest.head_of (h : Longest limit reason points) {point : Char} (hpoints : points.head? = some point) :
    reason.head? = some point := by
  obtain ⟨rest, rfl⟩ := h.fits.1
  rw [List.head?_append, hpoints]
  rfl

def Sendable (code : ℕ) : Prop := code < 65536 ∧ isReserved code = false

theorem decodeClose_bytes (hcode : Sendable code) (points : List Char) :
    decodeClose (BigEndian.bytes 2 code ++ Utf8.encode points) =
      .ok (code, if points.head? = some '\uFEFF' then points.tail else points) := by
  have hlength : (BigEndian.bytes 2 code ++ Utf8.encode points).length = 2 + (Utf8.encode points).length := by
    rw [List.length_append, BigEndian.bytes_length]
  have hread : BigEndian.ofBytes (BigEndian.bytes 2 code) = code := BigEndian.ofBytes_bytes hcode.1
  rw [decodeClose, if_neg (by omega), if_neg (by omega), List.take_left' (BigEndian.bytes_length 2 code),
    List.drop_left' (BigEndian.bytes_length 2 code), hread, utf8Decode_encode]
  have hsendable : ¬isReserved code = true := Bool.eq_false_iff.mp hcode.2
  simp only [require_ok.mpr hsendable, bind, Except.bind]
  rfl

/-- A close frame is encoded, and what it comes to is its code and the most of its reason that fits. -/
def Survives (code : ℕ) (reason : List Char) : Prop :=
  ∃ payload points, encodeClose code reason = .ok (0x88 :: UInt8.ofNat payload.length :: payload) ∧ payload.length ≤ 125 ∧
    Longest 123 reason points ∧ decodeClose payload = .ok (code, points)

theorem encodeClose_bytes (hcode : code < 65536) (reason : List Char) : ∃ points, Longest 123 reason points ∧
    (BigEndian.bytes 2 code ++ Utf8.encode points).length ≤ 125 ∧
    encodeClose code reason = .ok (0x88 :: UInt8.ofNat (BigEndian.bytes 2 code ++ Utf8.encode points).length ::
      (BigEndian.bytes 2 code ++ Utf8.encode points)) := by
  obtain ⟨points, hpoints, hlongest⟩ := capReason_longest reason
  have hlength : (BigEndian.bytes 2 code ++ Utf8.encode points).length ≤ 125 := by
    rw [List.length_append, BigEndian.bytes_length]
    have hfits := hlongest.fits.2
    omega
  have hwritten : writeUInt 2 code = .ok (BigEndian.bytes 2 code) := if_pos hcode
  have hshort : ¬((Opcode.close.isControl : Prop) ∧ 125 < (BigEndian.bytes 2 code ++ Utf8.encode points).length) :=
    fun h ↦ absurd hlength (Nat.not_le.mpr h.2)
  refine ⟨points, hlongest, hlength, ?_⟩
  rw [encodeClose, hwritten, hpoints]
  simp only [bind, Except.bind, encodeFrame, require_ok.mpr hshort, encodeLength, if_pos (Nat.lt_succ_of_le hlength)]
  rfl

theorem survives_of_ne_mark (hcode : Sendable code) (hmark : reason.head? ≠ some '\uFEFF') : Survives code reason := by
  obtain ⟨points, hlongest, hlength, hencoded⟩ := encodeClose_bytes hcode.1 reason
  refine ⟨_, points, hencoded, hlength, hlongest, ?_⟩
  rw [decodeClose_bytes hcode points, if_neg (mt hlongest.head_of hmark)]

theorem not_survives_of_mark (hcode : Sendable code) (hmark : reason.head? = some '\uFEFF') : ¬Survives code reason := by
  rintro ⟨payload, others, hpayload, -, hothers, hdecode⟩
  obtain ⟨points, hlongest, hlength, hencoded⟩ := encodeClose_bytes hcode.1 reason
  rw [hencoded] at hpayload
  obtain ⟨-, rfl⟩ := List.cons.inj (List.cons.inj (Except.ok.inj hpayload)).2
  obtain rfl := hlongest.unique hothers
  have hfirst := hlongest.head (by decide) hmark
  obtain ⟨rest, rfl⟩ := List.head?_eq_some_iff.mp hfirst
  rw [decodeClose_bytes hcode, if_pos hfirst] at hdecode
  have hlost := congrArg List.length (Prod.mk.inj (Except.ok.inj hdecode)).2
  rw [List.tail_cons, List.length_cons] at hlost
  omega

/-- A reason survives its way unless it begins with a mark of the byte order. -/
theorem close_survives_iff (hcode : Sendable code) : Survives code reason ↔ reason.head? ≠ some '\uFEFF' := by
  constructor
  · intro hsurvives hmark
    exact not_survives_of_mark hcode hmark hsurvives
  · exact survives_of_ne_mark hcode

section Sample

theorem sendable_normal : Sendable 1000 := ⟨by decide, rfl⟩

/-- 62 points of three bytes each, of which 41 fit. -/
theorem close_survives_iff_euros : Survives 1000 (List.replicate 62 '€') :=
  (close_survives_iff sendable_normal).mpr (by decide)

theorem close_loses_mark : ¬Survives 1000 ['\uFEFF', 'b', 'y', 'e'] ∧
    encodeClose 1000 ['\uFEFF', 'b', 'y', 'e'] = .ok [0x88, 8, 0x03, 0xE8, 0xEF, 0xBB, 0xBF, 0x62, 0x79, 0x65] ∧
    decodeClose [0x03, 0xE8, 0xEF, 0xBB, 0xBF, 0x62, 0x79, 0x65] = .ok (1000, ['b', 'y', 'e']) :=
  ⟨not_survives_of_mark sendable_normal rfl, by decide, by decide⟩

end Sample

end Noesar.Streams.Websocket
