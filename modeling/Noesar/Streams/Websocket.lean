import Noesar.Lib.Framing
import Noesar.Lib.Fallible
import Noesar.Lib.Incremental
import Noesar.Lib.Utf8

namespace Noesar.Streams.Websocket

open Lib Lib.Framing Lib.Incremental

inductive Opcode
  | continuation
  | text
  | binary
  | close
  | ping
  | pong
  deriving DecidableEq, Repr

def Opcode.code : Opcode → UInt8
  | continuation => 0x0
  | text => 0x1
  | binary => 0x2
  | close => 0x8
  | ping => 0x9
  | pong => 0xa

def Opcode.ofCode (code : UInt8) : Option Opcode :=
  [continuation, text, binary, close, ping, pong].find? (·.code = code)

def Opcode.isControl (opcode : Opcode) : Bool := 0x8 ≤ opcode.code

namespace CloseCode

def normal : ℕ := 1000

def protocolError : ℕ := 1002

def invalidPayload : ℕ := 1007

def tooBig : ℕ := 1009

def internal : ℕ := 1011

end CloseCode

structure WebSocketProtocolError where
  closeCode : ℕ
  message : String
  deriving DecidableEq, Repr

/-- What a call may throw: an error of the protocol, or that of a number that its field has no room for. -/
inductive Thrown
  | protocol (error : WebSocketProtocolError)
  | outOfRange
  deriving DecidableEq, Repr

def violation (message : String) : WebSocketProtocolError := ⟨CloseCode.protocolError, message⟩

structure Frame where
  fin : Bool
  opcode : Opcode
  payload : Bytes
  deriving DecidableEq, Repr

structure Message where
  opcode : Opcode
  payload : Bytes
  deriving DecidableEq, Repr

structure FrameReader where
  maxMessageBytes : ℕ := 1024 * 1024
  requireMask : Bool := true

/-- What a reader holds of a message that is still fragmented. -/
structure Fragments where
  fragments : List Bytes := []
  fragmentOpcode : Option Opcode := none
  fragmentBytes : ℕ := 0
  deriving DecidableEq

def firstByte (fin : Bool) (opcode : Opcode) : UInt8 := (if fin then 0x80 else 0x00) ||| (opcode.code &&& 0x0f)

def writeUInt (width n : ℕ) : Except Thrown Bytes :=
  if n < 256 ^ width then .ok (BigEndian.bytes width n) else .error .outOfRange

def encodeLength (length : ℕ) : Except Thrown Bytes :=
  if length < 126 then .ok [UInt8.ofNat length]
  else if length < 65536 then (writeUInt 2 length).map (126 :: ·)
  else do
    let low ← writeUInt 4 length
    return 127 :: (BigEndian.bytes 4 0 ++ low)

def encodeFrame (opcode : Opcode) (payload : Bytes) (fin : Bool) : Except Thrown Bytes := do
  require (¬(opcode.isControl ∧ 125 < payload.length))
    (.protocol ⟨CloseCode.internal, "a control frame may not exceed 125 bytes"⟩)
  let length ← encodeLength payload.length
  return firstByte fin opcode :: (length ++ payload)

/-- A decoder that takes nothing but UTF-8, and that takes a mark of the byte order at its front away. -/
def utf8Decode (bytes : Bytes) : Option (List Char) :=
  let points := Utf8.decode bytes
  if Utf8.encode points = bytes then some (if points.head? = some '\uFEFF' then points.tail else points) else none

abbrev Reading (α : Type) : Type := Pull UInt8 WebSocketProtocolError α

def checkHeader (reader : FrameReader) (first second : UInt8) : Except WebSocketProtocolError Opcode := do
  require (first &&& 0x70 = 0) (violation "reserved bits must be zero")
  let code := first &&& 0x0f
  let opcode ← demand (Opcode.ofCode code) (violation (String.ofList ("unknown opcode 0x".toList ++ [hexDigit code.toNat])))
  require (¬(opcode.isControl ∧ first &&& 0x80 = 0)) (violation "a control frame may not be fragmented")
  require (¬(opcode.isControl ∧ 125 < (second &&& 0x7f).toNat)) (violation "a control frame may not exceed 125 bytes")
  require (¬(reader.requireMask ∧ second &&& 0x80 = 0)) (violation "client frames must be masked")
  return opcode

def readLength (length : ℕ) : Reading ℕ :=
  if length = 126 then BigEndian.pull 2
  else if length = 127 then do
    let high ← BigEndian.pull 4
    let low ← BigEndian.pull 4
    Pull.lift (require (high &&& 0x80000000 = 0) (violation "the high bit of a 64-bit length must be zero"))
    Pull.lift (require (high = 0) ⟨CloseCode.tooBig, "frame longer than this endpoint accepts"⟩)
    return low
  else return length

def unmask (mask payload : Bytes) : Bytes := payload.mapIdx fun i b ↦ b ^^^ mask.getD (i &&& 3) 0

def readFrame (reader : FrameReader) : Reading Frame := do
  let first ← Pull.take 1
  let second ← Pull.take 1
  let opcode ← Pull.lift (checkHeader reader (first.headD 0) (second.headD 0))
  let length ← readLength (second.headD 0 &&& 0x7f).toNat
  -- the length that is declared is looked at before any of the payload is there
  Pull.lift (require (length ≤ reader.maxMessageBytes)
    ⟨CloseCode.tooBig, s!"frame of {length} bytes exceeds the {reader.maxMessageBytes}-byte limit"⟩)
  if second.headD 0 &&& 0x80 = 0 then do
    let payload ← Pull.take length
    return ⟨first.headD 0 &&& 0x80 ≠ 0, opcode, payload⟩
  else do
    let mask ← Pull.take 4
    let payload ← Pull.take length
    return ⟨first.headD 0 &&& 0x80 ≠ 0, opcode, unmask mask payload⟩

def finish (opcode : Opcode) (payload : Bytes) : Except WebSocketProtocolError Message := do
  require (opcode = .text → (utf8Decode payload).isSome) ⟨CloseCode.invalidPayload, "a text frame must be valid UTF-8"⟩
  return ⟨opcode, payload⟩

/-- The message that is fragmented when a frame of data has come in, if there is one. -/
def continued (held : Option Opcode) (frame : Frame) : Except WebSocketProtocolError (Option Opcode) :=
  match frame.opcode, held with
  | .continuation, none => .error (violation "continuation frame with nothing to continue")
  | .continuation, some opcode => .ok (some opcode)
  | _, some _ => .error (violation "a new data frame arrived while a message was still fragmented")
  | opcode, none => .ok (if frame.fin then none else some opcode)

def assemble (reader : FrameReader) (held : Fragments) (frame : Frame) :
    Except WebSocketProtocolError (Fragments × Option Message) :=
  if frame.opcode.isControl then .ok (held, some ⟨frame.opcode, frame.payload⟩)
  else do
    match ← continued held.fragmentOpcode frame with
    -- a frame that is not the last of its message has begun one
    | none =>
      let message ← finish frame.opcode frame.payload
      return (held, some message)
    | some opcode =>
      let fragments := held.fragments ++ [frame.payload]
      let fragmentBytes := held.fragmentBytes + frame.payload.length
      require (fragmentBytes ≤ reader.maxMessageBytes)
        ⟨CloseCode.tooBig, s!"message exceeds the {reader.maxMessageBytes}-byte limit"⟩
      if frame.fin then
        let message ← finish opcode fragments.flatten
        return ({}, some message)
      else return (⟨fragments, some opcode, fragmentBytes⟩, none)

def readMessage (reader : FrameReader) (held : Fragments) : Reading (Fragments × Option Message) := do
  let frame ← readFrame reader
  Pull.lift (assemble reader held frame)

def pushAll (reader : FrameReader) (chunks : List Bytes) :
    List Message × Except WebSocketProtocolError (Fragments × Bytes) :=
  feed (Pull.next (readMessage reader)) ({}, []) chunks

end Noesar.Streams.Websocket
