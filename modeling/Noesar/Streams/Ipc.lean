import Noesar.Lib.Framing
import Noesar.Lib.Fallible
import Noesar.Authority.Envelope
import Noesar.Reference.Values

namespace Noesar.Streams.Ipc

open Lib Lib.Framing Lib.Incremental Lib.Json Canonical

/-- What differs between the two programs: how a value is encoded and read, how long a frame may be, and what is said
where four bytes have no room for its length. -/
structure Side (α : Type) where
  encode : α → Except String Bytes
  decode : Bytes → Except String α
  maxFrameBytes : ℕ
  tooLarge : String

section

variable {α : Type} (side : Side α)

def Side.encodeFrame (value : α) : Except String Bytes := do
  let payload ← side.encode value
  require (payload.length ≠ 0 ∧ payload.length ≤ side.maxFrameBytes) "authority IPC frame size is invalid"
  require (payload.length < 2 ^ 32) side.tooLarge
  return BigEndian.bytes 4 payload.length ++ payload

def Side.readFrame : Pull UInt8 String α := do
  let length ← BigEndian.pull 4
  Pull.lift (require (length ≠ 0 ∧ length ≤ side.maxFrameBytes) "authority IPC frame length is invalid")
  let payload ← Pull.take length
  Pull.lift (side.decode payload)

def Side.readValue (_ : Unit) : Pull UInt8 String (Unit × Option α) := do
  let value ← side.readFrame
  return ((), some value)

def Side.pushAll (chunks : List Bytes) : List α × Except String (Unit × Bytes) :=
  feed (Pull.next side.readValue) ((), []) chunks

def finish (buffer : Bytes) : Except String Unit :=
  require (buffer.length = 0) "authority IPC stream ended with a partial frame"

def Side.receive (chunks : List Bytes) : List α × Except String Unit :=
  ((side.pushAll chunks).1, (side.pushAll chunks).2 >>= fun held ↦ finish held.2)

end

def invalidJson : String := "authority IPC frame contains invalid JSON"

def notObject : String := "authority IPC frame must contain an object"

def isObject {σ ν : Type} : Json σ ν → Bool
  | .object _ => true
  | _ => false

/-- `encodeAuthorityFrame` and `AuthorityFrameDecoder` -/
def controlPlane (ns : Numbers) : Side JsValue where
  encode := canonicalJsonBytes ns
  decode payload := do
    let value ← demand (parse (Canonical.reader ns) (Utf8.decode payload)) invalidJson
    require (isObject value) notObject
    return value
  maxFrameBytes := 1024 * 1024
  tooLarge := "The value of \"value\" is out of range."

/-- `encode_frame` and `FrameDecoder` -/
def transport (serde : Serde) : Side (Json String SerdeNumber) where
  encode value := .ok (toVec value)
  decode payload := do
    let value ← demand ((Reference.decodeUtf8 payload).bind (parse serde.reader)) invalidJson
    require (isObject value) notObject
    return value
  maxFrameBytes := 1024 * 1024
  tooLarge := "authority IPC frame is too large"

section

variable {α : Type} {side : Side α}

theorem steady_readFrame : side.readFrame.Steady :=
  (BigEndian.steady_pull 4).bind fun length ↦ (Pull.steady_lift _).bind fun _ ↦
    (Pull.steady_take length).bind fun payload ↦ Pull.steady_lift (side.decode payload)

theorem steady_side : Incremental.Steady (Pull.next side.readValue) :=
  Pull.steady_next (fun _ ↦ steady_readFrame.bind fun _ ↦ Pull.steady_pure _) fun _ ↦ rfl

def frame (payload : Bytes) : Bytes := BigEndian.bytes 4 payload.length ++ payload

structure Side.Carries (side : Side α) (payload : Bytes) : Prop where
  some : payload.length ≠ 0
  within : payload.length ≤ side.maxFrameBytes
  small : payload.length < 2 ^ 32

theorem encodeFrame_ok {value : α} {payload : Bytes} (hencode : side.encode value = .ok payload)
    (h : side.Carries payload) : side.encodeFrame value = .ok (frame payload) := by
  simp only [Side.encodeFrame, hencode, bind, Except.bind, require_ok.mpr (And.intro h.some h.within),
    require_ok.mpr h.small]
  rfl

theorem readFrame_frame {payload : Bytes} (h : side.Carries payload) (rest : Bytes) :
    side.readFrame.run (frame payload ++ rest) = (side.decode payload).map fun value ↦ some (value, rest) := by
  rw [frame, List.append_assoc, Side.readFrame, Pull.bind_taken (BigEndian.pull_bytes h.small _),
    Pull.bind_lift (require_ok.mpr ⟨h.some, h.within⟩), Pull.bind_taken (Pull.take_append rfl rest)]
  rfl

theorem next_frame {payload : Bytes} {value : α} (h : side.Carries payload) (hdecode : side.decode payload = .ok value)
    (rest : Bytes) : Pull.next side.readValue () (frame payload ++ rest) = .taken () rest (some value) := by
  have hread := readFrame_frame h rest
  rw [hdecode] at hread
  rw [Pull.next_taken_iff, Side.readValue, Pull.bind_taken hread, Pull.pure_run]

theorem next_frame_error {payload : Bytes} {e : String} (h : side.Carries payload) (hdecode : side.decode payload = .error e)
    (rest : Bytes) : Pull.next side.readValue () (frame payload ++ rest) = .refused e := by
  have hread := readFrame_frame h rest
  rw [hdecode] at hread
  rw [Pull.next_refused_iff, Side.readValue, Pull.bind_refused hread]

theorem next_length {n : ℕ} (hn : n = 0 ∨ side.maxFrameBytes < n) (hsmall : n < 2 ^ 32) :
    Pull.next side.readValue () (BigEndian.bytes 4 n) = .refused "authority IPC frame length is invalid" := by
  have hpull : (BigEndian.pull 4 : Pull UInt8 String ℕ).run (BigEndian.bytes 4 n ++ []) = _ :=
    BigEndian.pull_bytes hsmall []
  have hbad : ¬(n ≠ 0 ∧ n ≤ side.maxFrameBytes) := by omega
  rw [List.append_nil] at hpull
  rw [Pull.next_refused_iff, Side.readValue]
  apply Pull.bind_refused
  rw [Side.readFrame, Pull.bind_taken hpull]
  apply Pull.bind_refused
  rw [require, if_neg hbad]
  rfl

theorem drained_frames {payloads : List Bytes} (hcarries : ∀ p ∈ payloads, side.Carries p) {tail : Bytes}
    (htail : Pull.next side.readValue () tail = .short) {values : List α} {r : Unit × Bytes} :
    drained (Pull.next side.readValue) () (payloads.flatMap frame ++ tail) = (values, .ok r) ↔
      r = ((), tail) ∧ List.Forall₂ (fun p value ↦ side.decode p = .ok value) payloads values := by
  induction payloads generalizing values with
  | nil =>
    rw [List.flatMap_nil, List.nil_append, drained_short htail, List.forall₂_nil_left_iff, Prod.mk.injEq, Except.ok.injEq,
      and_comm, eq_comm, @eq_comm _ []]
  | cons p payloads ih =>
    have hp := hcarries p List.mem_cons_self
    have hrest := @ih fun q hq ↦ hcarries q (List.mem_cons_of_mem p hq)
    rw [List.flatMap_cons, List.append_assoc, List.forall₂_cons_left_iff]
    cases hdecode : side.decode p with
    | error =>
      rw [drained_refused (next_frame_error hp hdecode _)]
      simp
    | ok value =>
      rw [drained_taken steady_side (next_frame hp hdecode _), Prod.mk.injEq]
      constructor
      · rintro ⟨rfl, hstop⟩
        obtain ⟨hr, hall⟩ := hrest.mp (Prod.ext rfl hstop)
        exact ⟨hr, value, _, rfl, hall, rfl⟩
      · rintro ⟨hr, value', values, hvalue, hall, rfl⟩
        cases hvalue
        have hdrained := hrest.mpr ⟨hr, hall⟩
        rw [hdrained]
        exact ⟨rfl, rfl⟩

end

end Noesar.Streams.Ipc
