import Mathlib
import Noesar.Streams.Websocket

namespace Noesar.Streams.Websocket

open Lib Lib.Framing Lib.Incremental

theorem steady_readLength (length : ℕ) : (readLength length).Steady := by
  refine .ite (BigEndian.steady_pull 2) (.ite ?_ (Pull.steady_pure length))
  refine (BigEndian.steady_pull 4).bind fun high ↦ (BigEndian.steady_pull 4).bind fun low ↦ ?_
  exact (Pull.steady_lift _).bind fun _ ↦ (Pull.steady_lift _).bind fun _ ↦ Pull.steady_pure low

theorem steady_readFrame (reader : FrameReader) : (readFrame reader).Steady := by
  refine (Pull.steady_take 1).bind fun first ↦ (Pull.steady_take 1).bind fun second ↦ ?_
  refine (Pull.steady_lift _).bind fun opcode ↦ (steady_readLength _).bind fun length ↦ ?_
  refine (Pull.steady_lift _).bind fun _ ↦ .ite ?_ ?_
  · exact (Pull.steady_take length).bind fun payload ↦ Pull.steady_pure _
  · exact (Pull.steady_take 4).bind fun mask ↦ (Pull.steady_take length).bind fun payload ↦ Pull.steady_pure _

theorem steady_readMessage (reader : FrameReader) (held : Fragments) : (readMessage reader held).Steady :=
  (steady_readFrame reader).bind fun _ ↦ Pull.steady_lift _

theorem steady_reader (reader : FrameReader) : Incremental.Steady (Pull.next (readMessage reader)) :=
  Pull.steady_next (steady_readMessage reader) fun _ ↦ rfl

theorem firstByte_plain (fin : Bool) (opcode : Opcode) : firstByte fin opcode &&& 0x70 = 0 := by
  cases fin <;> cases opcode <;> decide

theorem ofCode_firstByte (fin : Bool) (opcode : Opcode) : Opcode.ofCode (firstByte fin opcode &&& 0x0f) = some opcode := by
  cases fin <;> cases opcode <;> decide

theorem firstByte_fin (fin : Bool) (opcode : Opcode) : decide (firstByte fin opcode &&& 0x80 ≠ 0) = fin := by
  cases fin <;> cases opcode <;> decide

inductive Form
  | short
  | medium
  | long
  deriving DecidableEq

namespace Form

def room : Form → ℕ
  | short => 126
  | medium => 2 ^ 16
  | long => 2 ^ 63

def code (length : ℕ) : Form → ℕ
  | short => length
  | medium => 126
  | long => 127

def bytes (length : ℕ) : Form → Bytes
  | short => []
  | medium => BigEndian.bytes 2 length
  | long => BigEndian.bytes 8 length

theorem code_lt {form : Form} {length : ℕ} (h : length < form.room) : form.code length < 128 := by
  cases form with
  | short => exact Nat.lt_trans h (by decide)
  | medium => exact (by decide : 126 < 128)
  | long => exact (by decide : 127 < 128)

end Form

def secondByte (masked : Bool) (code : ℕ) : UInt8 := (if masked then 0x80 else 0x00) ||| UInt8.ofNat code

theorem secondByte_code (masked : Bool) {code : ℕ} (h : code < 128) : (secondByte masked code &&& 0x7f).toNat = code := by
  have hall : ∀ n : Fin 128, (secondByte masked n &&& 0x7f).toNat = n := by cases masked <;> decide
  exact hall ⟨code, h⟩

theorem secondByte_masked (masked : Bool) {code : ℕ} (h : code < 128) :
    secondByte masked code &&& 0x80 = 0 ↔ masked = false := by
  have hall : ∀ n : Fin 128, secondByte masked n &&& 0x80 = 0 ↔ masked = false := by cases masked <;> decide
  exact hall ⟨code, h⟩

theorem readLength_bytes {form : Form} {length : ℕ} (hroom : length < form.room) (h : length < 2 ^ 32) (rest : Bytes) :
    (readLength (form.code length)).run (form.bytes length ++ rest) = .ok (some (length, rest)) := by
  cases form with
  | short =>
    have hlt : length < 126 := hroom
    rw [Form.code, Form.bytes, readLength, if_neg (by omega), if_neg (by omega)]
    rfl
  | medium => exact BigEndian.pull_bytes hroom rest
  | long =>
    have hhigh : length / 256 ^ 4 = 0 := Nat.div_eq_of_lt h
    rw [Form.code, Form.bytes, readLength, if_neg (by decide), if_pos rfl, BigEndian.bytes_add 4 4, hhigh,
      List.append_assoc, Pull.bind_taken (BigEndian.pull_bytes (by decide) _), Pull.bind_taken (BigEndian.pull_bytes h rest)]
    rfl

theorem readLength_huge {length : ℕ} (hroom : length < 2 ^ 63) (h : 2 ^ 32 ≤ length) (rest : Bytes) :
    (readLength 127).run (BigEndian.bytes 8 length ++ rest) =
      .error ⟨CloseCode.tooBig, "frame longer than this endpoint accepts"⟩ := by
  have hhigh : length / 256 ^ 4 < 2 ^ 31 := Nat.div_lt_of_lt_mul hroom
  have hword : length / 256 ^ 4 ≠ 0 := (Nat.div_pos h (by decide)).ne'
  have hsign : length / 256 ^ 4 &&& 0x80000000 = 0 := by
    rw [show 0x80000000 = 2 ^ 31 from rfl, Nat.and_two_pow, Nat.testBit_lt_two_pow hhigh, Bool.toNat_false, Nat.zero_mul]
  rw [readLength, if_neg (by decide), if_pos rfl, BigEndian.bytes_add 4 4, List.append_assoc,
    Pull.bind_taken (BigEndian.pull_bytes (Nat.lt_trans hhigh (by decide)) _),
    Pull.bind_taken (BigEndian.pull_front (BigEndian.bytes_length 4 length) rest), Pull.bind_lift (require_ok.mpr hsign)]
  apply Pull.bind_refused
  rw [require, if_neg hword]
  rfl

structure Key where
  bytes : Bytes
  four : bytes.length = 4

/-- A frame on its way, with the form of its length and the key of its mask, if it has one. -/
structure Sent where
  frame : Frame
  form : Form
  key : Option Key
  room : frame.payload.length < form.room
  whole : frame.opcode.isControl → frame.fin ∧ form = .short

def maskedWith : Option Key → Bytes → Bytes
  | none, payload => payload
  | some key, payload => key.bytes ++ unmask key.bytes payload

def Sent.bytes (sent : Sent) : Bytes :=
  firstByte sent.frame.fin sent.frame.opcode :: secondByte sent.key.isSome (sent.form.code sent.frame.payload.length) ::
    (sent.form.bytes sent.frame.payload.length ++ maskedWith sent.key sent.frame.payload)

theorem unmask_unmask (mask payload : Bytes) : unmask mask (unmask mask payload) = payload := by
  rw [unmask, unmask, List.mapIdx_mapIdx]
  apply List.ext_getElem
  · rw [List.length_mapIdx]
  · intro i _ _
    rw [List.getElem_mapIdx, Function.comp, UInt8.xor_assoc, UInt8.xor_self, UInt8.xor_zero]

theorem unmask_length (mask payload : Bytes) : (unmask mask payload).length = payload.length := List.length_mapIdx

section

variable {reader : FrameReader} {sent : Sent}

structure Suits (reader : FrameReader) (sent : Sent) : Prop where
  masked : reader.requireMask → sent.key.isSome
  within : sent.frame.payload.length ≤ reader.maxMessageBytes
  small : sent.frame.payload.length < 2 ^ 32

theorem checkHeader_ok {first second : UInt8} {opcode : Opcode} : checkHeader reader first second = .ok opcode ↔
    first &&& 0x70 = 0 ∧ Opcode.ofCode (first &&& 0x0f) = some opcode ∧ ¬(opcode.isControl ∧ first &&& 0x80 = 0) ∧
      ¬(opcode.isControl ∧ 125 < (second &&& 0x7f).toNat) ∧ ¬(reader.requireMask ∧ second &&& 0x80 = 0) := by
  simp only [checkHeader, bind_ok, exists_unit, require_ok, demand_ok, pure, Except.pure, Except.ok.injEq]
  constructor
  · rintro ⟨hplain, _, hcode, hwhole, hshort, hmask, rfl⟩
    exact ⟨hplain, hcode, hwhole, hshort, hmask⟩
  · rintro ⟨hplain, hcode, hwhole, hshort, hmask⟩
    exact ⟨hplain, opcode, hcode, hwhole, hshort, hmask, rfl⟩

theorem checkHeader_sent (hmasked : reader.requireMask → sent.key.isSome) :
    checkHeader reader (firstByte sent.frame.fin sent.frame.opcode)
      (secondByte sent.key.isSome (sent.form.code sent.frame.payload.length)) = .ok sent.frame.opcode := by
  have hcode := Form.code_lt sent.room
  have hfin := firstByte_fin sent.frame.fin sent.frame.opcode
  rw [checkHeader_ok, secondByte_code _ hcode, secondByte_masked _ hcode]
  refine ⟨firstByte_plain _ _, ofCode_firstByte _ _, ?_, ?_, ?_⟩
  · rintro ⟨hcontrol, hlast⟩
    rw [decide_eq_false (not_not.mpr hlast), (sent.whole hcontrol).1] at hfin
    cases hfin
  · rintro ⟨hcontrol, hlong⟩
    have hroom := sent.room
    rw [(sent.whole hcontrol).2] at hlong hroom
    exact absurd hroom (Nat.not_lt.mpr hlong)
  · rintro ⟨hrequired, hbare⟩
    rw [hmasked hrequired] at hbare
    cases hbare

theorem take_one (b : UInt8) (rest : Bytes) : (Pull.take 1 : Reading Bytes).run (b :: rest) = .ok (some ([b], rest)) :=
  Pull.take_append List.length_singleton rest

theorem readFrame_sent (h : Suits reader sent) (rest : Bytes) :
    (readFrame reader).run (sent.bytes ++ rest) = .ok (some (sent.frame, rest)) := by
  have hcode := Form.code_lt sent.room
  have hsecond := secondByte_masked sent.key.isSome hcode
  rw [Sent.bytes, List.cons_append, List.cons_append, List.append_assoc, readFrame,
    Pull.bind_taken (take_one _ _), Pull.bind_taken (take_one _ _), List.headD_cons, List.headD_cons,
    Pull.bind_lift (checkHeader_sent h.masked), secondByte_code _ hcode,
    Pull.bind_taken (readLength_bytes sent.room h.small _), Pull.bind_lift (require_ok.mpr h.within)]
  cases hkey : sent.key with
  | none =>
    rw [hkey] at hsecond
    rw [if_pos (hsecond.mpr rfl), maskedWith, Pull.bind_taken (Pull.take_append rfl rest), Pull.pure_run, firstByte_fin]
  | some key =>
    rw [hkey] at hsecond
    rw [if_neg (mt hsecond.mp nofun), maskedWith, List.append_assoc, Pull.bind_taken (Pull.take_append key.four _),
      Pull.bind_taken (Pull.take_append (unmask_length key.bytes _) rest), Pull.pure_run, firstByte_fin, unmask_unmask]

theorem readFrame_huge (hmasked : reader.requireMask → sent.key.isSome) (hlong : sent.form = .long)
    (hhuge : 2 ^ 32 ≤ sent.frame.payload.length) (rest : Bytes) : (readFrame reader).run (sent.bytes ++ rest) =
      .error ⟨CloseCode.tooBig, "frame longer than this endpoint accepts"⟩ := by
  have hcode := Form.code_lt sent.room
  have hroom := sent.room
  rw [hlong] at hcode hroom
  rw [Sent.bytes, List.cons_append, List.cons_append, List.append_assoc, readFrame,
    Pull.bind_taken (take_one _ _), Pull.bind_taken (take_one _ _), List.headD_cons, List.headD_cons,
    Pull.bind_lift (checkHeader_sent hmasked), hlong, secondByte_code _ hcode]
  exact Pull.bind_refused (readLength_huge hroom hhuge _)

theorem readFrame_length {bs left : Bytes} {frame : Frame} (h : (readFrame reader).run bs = .ok (some (frame, left))) :
    frame.payload.length ≤ reader.maxMessageBytes := by
  simp only [readFrame, Pull.bind_taken_iff, Pull.lift_taken_iff] at h
  obtain ⟨first, _, -, second, _, -, opcode, _, -, length, _, -, _, _, ⟨hwithin, -⟩, hpayload⟩ := h
  rw [require_ok] at hwithin
  split at hpayload
  · obtain ⟨payload, _, htake, hframe⟩ := Pull.bind_taken_iff.mp hpayload
    cases hframe
    rwa [(Pull.take_taken htake).1]
  · obtain ⟨mask, _, -, hrest⟩ := Pull.bind_taken_iff.mp hpayload
    obtain ⟨payload, _, htake, hframe⟩ := Pull.bind_taken_iff.mp hrest
    cases hframe
    rwa [unmask_length, (Pull.take_taken htake).1]

end

theorem utf8Decode_encode (points : List Char) :
    utf8Decode (Utf8.encode points) = some (if points.head? = some '\uFEFF' then points.tail else points) := by
  have hdecode : Utf8.decode (Utf8.encode points) = points := by
    have happend := Utf8.decode_encode_append points []
    rwa [List.append_nil, show Utf8.decode [] = [] from rfl, List.append_nil] at happend
  rw [utf8Decode, hdecode, if_pos rfl]

inductive Assembles (reader : FrameReader) : Fragments → List Frame → List Message → Fragments → Prop
  | nil (held : Fragments) : Assembles reader held [] [] held
  | cons {held held' held'' : Fragments} {frame : Frame} {frames : List Frame} {message : Option Message}
      {messages : List Message} (h : assemble reader held frame = .ok (held', message))
      (hrest : Assembles reader held' frames messages held'') :
      Assembles reader held (frame :: frames) (message.toList ++ messages) held''

section

variable {reader : FrameReader} {held held' held'' : Fragments} {frames more : List Frame} {messages later : List Message}

theorem Assembles.append (h : Assembles reader held frames messages held')
    (hmore : Assembles reader held' more later held'') :
    Assembles reader held (frames ++ more) (messages ++ later) held'' := by
  induction h with
  | nil => exact hmore
  | cons h _ ih =>
    rw [List.append_assoc]
    exact .cons h (ih hmore)

theorem next_sent {sent : Sent} {message : Option Message} (h : Suits reader sent)
    (hframe : assemble reader held sent.frame = .ok (held', message)) (rest : Bytes) :
    Pull.next (readMessage reader) held (sent.bytes ++ rest) = .taken held' rest message := by
  rw [Pull.next_taken_iff, readMessage, Pull.bind_taken (readFrame_sent h rest), Pull.lift_taken_iff]
  exact ⟨hframe, rfl⟩

theorem Assembles.drained (h : Assembles reader held frames messages held') {sent : List Sent}
    (hsent : sent.map Sent.frame = frames) (hsuits : ∀ s ∈ sent, Suits reader s) :
    drained (Pull.next (readMessage reader)) held (sent.flatMap Sent.bytes) = (messages, .ok (held', [])) := by
  induction h generalizing sent with
  | nil =>
    rw [List.map_eq_nil_iff.mp hsent]
    exact drained_short (Pull.next_short_iff.mpr rfl)
  | cons hframe _ ih =>
    obtain ⟨s, sent, rfl, rfl, hrest⟩ := List.map_eq_cons_iff.mp hsent
    have htaken := next_sent (hsuits s List.mem_cons_self) hframe (sent.flatMap Sent.bytes)
    rw [List.flatMap_cons, drained_taken (steady_reader reader) htaken,
      ih hrest fun s' hs' ↦ hsuits s' (List.mem_cons_of_mem s hs')]

end

/-- A fragment, and what goes before it of frames of control. -/
structure Part where
  controls : List Message
  payload : Bytes

/-- What a sender says: a frame of control, or a message in one frame or in more. -/
inductive Said
  | control (message : Message)
  | data (opcode : Opcode) (first : Bytes) (more : List Part)

def single (message : Message) : Frame := ⟨true, message.opcode, message.payload⟩

def continuations : List Part → List Frame
  | [] => []
  | part :: more => part.controls.map single ++ ⟨more.isEmpty, .continuation, part.payload⟩ :: continuations more

namespace Said

def frames : Said → List Frame
  | control message => [single message]
  | data opcode first more => ⟨more.isEmpty, opcode, first⟩ :: continuations more

def messages : Said → List Message
  | control message => [message]
  | data opcode first more => more.flatMap Part.controls ++ [⟨opcode, first ++ more.flatMap Part.payload⟩]

end Said

def Controls (message : Message) : Prop := message.opcode.isControl ∧ message.payload.length ≤ 125

def Said.Proper (maxMessageBytes : ℕ) : Said → Prop
  | control message => Controls message
  | data opcode first more =>
    (first ++ more.flatMap Part.payload).length ≤ maxMessageBytes ∧
      (opcode = .text ∧ (∃ points, first ++ more.flatMap Part.payload = Utf8.encode points) ∨ opcode = .binary) ∧
      ∀ part ∈ more, ∀ message ∈ part.controls, Controls message

section

variable {reader : FrameReader} {held : Fragments} {message : Message} {opcode : Opcode} {first : Bytes} {more : List Part}

theorem assembles_control (h : Controls message) : Assembles reader held [single message] [message] held := by
  have hpass : assemble reader held (single message) = .ok (held, some message) := by
    rw [assemble, if_pos (show (single message).opcode.isControl from h.1)]
    rfl
  exact .cons hpass (.nil held)

theorem assembles_controls {messages : List Message} (h : ∀ message ∈ messages, Controls message) :
    Assembles reader held (messages.map single) messages held := by
  induction messages with
  | nil => exact .nil held
  | cons message messages ih =>
    have hrest := ih fun m hm ↦ h m (List.mem_cons_of_mem message hm)
    exact (assembles_control (h message List.mem_cons_self)).append hrest

def holding (opcode : Opcode) (fragments : List Bytes) : Fragments := ⟨fragments, some opcode, fragments.flatten.length⟩

variable {payload : Bytes} {fragments : List Bytes} {maxMessageBytes : ℕ}

theorem finish_ok (h : opcode = .text ∧ (∃ points, payload = Utf8.encode points) ∨ opcode = .binary) :
    finish opcode payload = .ok ⟨opcode, payload⟩ := by
  have hvalid : opcode = .text → (utf8Decode payload).isSome := by
    rintro rfl
    obtain ⟨-, points, rfl⟩ | h := h
    · rw [utf8Decode_encode, Option.isSome_some]
    · cases h
  rw [finish, require, if_pos hvalid]
  rfl

theorem assemble_middle (hlength : fragments.flatten.length + payload.length ≤ reader.maxMessageBytes) :
    assemble reader (holding opcode fragments) ⟨false, .continuation, payload⟩ =
      .ok (holding opcode (fragments ++ [payload]), none) := by
  have hbytes : (fragments ++ [payload]).flatten.length = fragments.flatten.length + payload.length := by
    rw [List.flatten_append, List.flatten_singleton, List.length_append]
  rw [assemble, if_neg nofun, holding, holding, hbytes]
  simp only [continued, bind, Except.bind, require_ok.mpr hlength]
  rfl

theorem assemble_last (hlength : fragments.flatten.length + payload.length ≤ reader.maxMessageBytes)
    (hkind : opcode = .text ∧ (∃ points, fragments.flatten ++ payload = Utf8.encode points) ∨ opcode = .binary) :
    assemble reader (holding opcode fragments) ⟨true, .continuation, payload⟩ =
      .ok ({}, some ⟨opcode, fragments.flatten ++ payload⟩) := by
  have hflat : (fragments ++ [payload]).flatten = fragments.flatten ++ payload := by
    rw [List.flatten_append, List.flatten_singleton]
  rw [assemble, if_neg nofun, holding]
  simp only [continued, bind, Except.bind, require_ok.mpr hlength, hflat, finish_ok hkind]
  rfl

theorem assemble_first (hkind : opcode = .text ∨ opcode = .binary) (hlength : first.length ≤ reader.maxMessageBytes) :
    assemble reader {} ⟨false, opcode, first⟩ = .ok (holding opcode [first], none) := by
  have hbytes : [first].flatten.length = first.length := by rw [List.flatten_singleton]
  have hheld : continued none ⟨false, opcode, first⟩ = .ok (some opcode) := by
    obtain rfl | rfl := hkind <;> rfl
  have hdata : opcode.isControl = false := by
    obtain rfl | rfl := hkind <;> rfl
  rw [assemble, if_neg (by rw [hdata]; exact Bool.false_ne_true), holding, hbytes, hheld]
  simp only [bind, Except.bind, Nat.zero_add, require_ok.mpr hlength]
  rfl

theorem assemble_whole (hkind : opcode = .text ∧ (∃ points, first = Utf8.encode points) ∨ opcode = .binary) :
    assemble reader {} ⟨true, opcode, first⟩ = .ok ({}, some ⟨opcode, first⟩) := by
  have hheld : continued none ⟨true, opcode, first⟩ = .ok none := by
    obtain ⟨rfl, -⟩ | rfl := hkind <;> rfl
  have hdata : opcode.isControl = false := by
    obtain ⟨rfl, -⟩ | rfl := hkind <;> rfl
  rw [assemble, if_neg (by rw [hdata]; exact Bool.false_ne_true), hheld]
  simp only [bind, Except.bind, finish_ok hkind]
  rfl

theorem assembles_continuations (hmore : more ≠ [])
    (hlength : (fragments.flatten ++ more.flatMap Part.payload).length ≤ reader.maxMessageBytes)
    (hkind : opcode = .text ∧ (∃ points, fragments.flatten ++ more.flatMap Part.payload = Utf8.encode points) ∨
      opcode = .binary) (hcontrols : ∀ part ∈ more, ∀ message ∈ part.controls, Controls message) :
    Assembles reader (holding opcode fragments) (continuations more)
      (more.flatMap Part.controls ++ [⟨opcode, fragments.flatten ++ more.flatMap Part.payload⟩]) {} := by
  induction more generalizing fragments with
  | nil => exact absurd rfl hmore
  | cons part more ih =>
    have hbefore : Assembles reader (holding opcode fragments) (part.controls.map single) part.controls _ :=
      assembles_controls (hcontrols part List.mem_cons_self)
    rw [List.flatMap_cons, List.append_assoc]
    refine hbefore.append ?_
    rw [List.flatMap_cons, ← List.append_assoc] at hlength hkind ⊢
    have hpart : fragments.flatten.length + part.payload.length ≤ reader.maxMessageBytes := by
      rw [List.length_append, List.length_append] at hlength
      omega
    cases more with
    | nil =>
      rw [List.flatMap_nil, List.append_nil] at hkind
      rw [List.flatMap_nil, List.flatMap_nil, List.append_nil]
      exact .cons (assemble_last hpart hkind) (.nil {})
    | cons next more =>
      have hflat : (fragments ++ [part.payload]).flatten = fragments.flatten ++ part.payload := by
        rw [List.flatten_append, List.flatten_singleton]
      rw [← hflat] at hlength hkind ⊢
      exact .cons (assemble_middle hpart)
        (ih (List.cons_ne_nil next more) hlength hkind fun p hp ↦ hcontrols p (List.mem_cons_of_mem part hp))

theorem assembles_said {said : Said} (h : said.Proper reader.maxMessageBytes) :
    Assembles reader {} said.frames said.messages {} := by
  cases said with
  | control => exact assembles_control h
  | data opcode first more =>
    obtain ⟨hlength, hkind, hcontrols⟩ := h
    cases more with
    | nil =>
      rw [List.flatMap_nil, List.append_nil] at hkind
      rw [Said.messages, List.flatMap_nil, List.flatMap_nil, List.append_nil]
      exact .cons (assemble_whole hkind) (.nil {})
    | cons part more =>
      have hdata : opcode = .text ∨ opcode = .binary := hkind.imp_left And.left
      have hfirst : first.length ≤ reader.maxMessageBytes := by
        rw [List.length_append] at hlength
        omega
      have hone : [first].flatten = first := List.flatten_singleton
      rw [← hone] at hlength hkind
      have hrest := assembles_continuations (List.cons_ne_nil part more) hlength hkind hcontrols
      rw [hone] at hrest
      exact .cons (assemble_first hdata hfirst) hrest

theorem assembles_all {said : List Said} (h : ∀ s ∈ said, s.Proper reader.maxMessageBytes) :
    Assembles reader {} (said.flatMap Said.frames) (said.flatMap Said.messages) {} := by
  induction said with
  | nil => exact .nil {}
  | cons s said ih =>
    have hrest := ih fun s' hs' ↦ h s' (List.mem_cons_of_mem s hs')
    exact (assembles_said (h s List.mem_cons_self)).append hrest

/-- A frame is not longer than a message may be, and one of control is whole and short. -/
structure Fair (maxMessageBytes : ℕ) (frame : Frame) : Prop where
  within : frame.payload.length ≤ maxMessageBytes
  whole : frame.opcode.isControl → frame.fin ∧ frame.payload.length ≤ 125

theorem fair_single (hmax : 125 ≤ maxMessageBytes) (h : Controls message) :
    Fair maxMessageBytes (single message) :=
  ⟨Nat.le_trans h.2 hmax, fun _ ↦ ⟨rfl, h.2⟩⟩

theorem fair_continuations (hmax : 125 ≤ maxMessageBytes)
    (hlength : (more.flatMap Part.payload).length ≤ maxMessageBytes)
    (hcontrols : ∀ part ∈ more, ∀ message ∈ part.controls, Controls message) :
    ∀ frame ∈ continuations more, Fair maxMessageBytes frame := by
  induction more with
  | nil => exact nofun
  | cons part more ih =>
    rw [List.flatMap_cons, List.length_append] at hlength
    intro frame hframe
    rcases List.mem_append.mp hframe with hbefore | hthere
    · obtain ⟨message, hmessage, rfl⟩ := List.mem_map.mp hbefore
      exact fair_single hmax (hcontrols part List.mem_cons_self message hmessage)
    · rcases List.mem_cons.mp hthere with rfl | hafter
      · exact ⟨by dsimp only; omega, nofun⟩
      · exact ih (by omega) (fun p hp ↦ hcontrols p (List.mem_cons_of_mem part hp)) frame hafter

theorem fair_said (hmax : 125 ≤ maxMessageBytes) {said : Said} (h : said.Proper maxMessageBytes) :
    ∀ frame ∈ said.frames, Fair maxMessageBytes frame := by
  cases said with
  | control =>
    intro frame hframe
    rw [List.mem_singleton.mp hframe]
    exact fair_single hmax h
  | data opcode =>
    obtain ⟨hlength, hkind, hcontrols⟩ := h
    have hdata : opcode.isControl = false := by
      obtain ⟨rfl, -⟩ | rfl := hkind <;> rfl
    rw [List.length_append] at hlength
    intro frame hframe
    rcases List.mem_cons.mp hframe with rfl | hafter
    · exact ⟨by dsimp only; omega, fun hcontrol ↦ absurd (hdata.symm.trans hcontrol) nofun⟩
    · exact fair_continuations hmax (by omega) hcontrols frame hafter

theorem fair_all (hmax : 125 ≤ maxMessageBytes) {said : List Said} (h : ∀ s ∈ said, s.Proper maxMessageBytes) :
    ∀ frame ∈ said.flatMap Said.frames, Fair maxMessageBytes frame := by
  intro frame hframe
  obtain ⟨s, hs, hmem⟩ := List.mem_flatMap.mp hframe
  exact fair_said hmax (h s hs) frame hmem

end

section

variable {reader : FrameReader} {said : List Said} {chunks : List Bytes}

theorem pushAll_said {sent : List Sent} (hsaid : ∀ s ∈ said, s.Proper reader.maxMessageBytes)
    (hsent : sent.map Sent.frame = said.flatMap Said.frames) (hsuits : ∀ s ∈ sent, Suits reader s)
    (hchunks : chunks.flatten = sent.flatMap Sent.bytes) :
    pushAll reader chunks = (said.flatMap Said.messages, .ok ({}, [])) := by
  refine (feed_ok_iff (steady_reader reader) (Pull.next_short_iff.mpr rfl)).mpr ?_
  rw [List.nil_append, hchunks]
  exact (assembles_all hsaid).drained hsent hsuits

def Form.least (length : ℕ) : Form := if length < 126 then short else if length < 65536 then medium else long

theorem Form.room_least {length : ℕ} (h : length < 2 ^ 32) : length < (Form.least length).room := by
  unfold least
  split
  · assumption
  · split
    · assumption
    · exact Nat.lt_trans h (by decide)

def plain (frame : Frame) (hwhole : frame.opcode.isControl → frame.fin ∧ frame.payload.length ≤ 125)
    (hsmall : frame.payload.length < 2 ^ 32) : Sent where
  frame := frame
  form := .least frame.payload.length
  key := none
  room := Form.room_least hsmall
  whole hcontrol := ⟨(hwhole hcontrol).1, if_pos (Nat.lt_succ_of_le (hwhole hcontrol).2)⟩

theorem encodeLength_least {length : ℕ} (h : length < 2 ^ 32) : encodeLength length =
    .ok (secondByte false ((Form.least length).code length) :: (Form.least length).bytes length) := by
  have hzero (n : ℕ) : secondByte false n = UInt8.ofNat n := UInt8.zero_or
  rw [hzero, encodeLength, Form.least]
  split
  · rfl
  · split
    next hmedium =>
      have hwritten : writeUInt 2 length = .ok (BigEndian.bytes 2 length) := if_pos hmedium
      rw [hwritten]
      rfl
    next =>
      have hwritten : writeUInt 4 length = .ok (BigEndian.bytes 4 length) := if_pos h
      have hhigh : length / 256 ^ 4 = 0 := Nat.div_eq_of_lt h
      rw [hwritten, Form.bytes, BigEndian.bytes_add 4 4, hhigh]
      rfl

theorem encodeFrame_plain {frame : Frame} (hwhole : frame.opcode.isControl → frame.fin ∧ frame.payload.length ≤ 125)
    (hsmall : frame.payload.length < 2 ^ 32) :
    encodeFrame frame.opcode frame.payload frame.fin = .ok (plain frame hwhole hsmall).bytes := by
  have hshort : ¬(frame.opcode.isControl ∧ 125 < frame.payload.length) :=
    fun h ↦ absurd (hwhole h.1).2 (Nat.not_le.mpr h.2)
  simp only [encodeFrame, require_ok.mpr hshort, encodeLength_least hsmall, bind, Except.bind]
  rfl

theorem encodeFrames_plain {frames : List Frame}
    (hwhole : ∀ frame ∈ frames, frame.opcode.isControl → frame.fin ∧ frame.payload.length ≤ 125)
    (hsmall : ∀ frame ∈ frames, frame.payload.length < 2 ^ 32) :
    ∃ sent : List Sent, sent.map Sent.frame = frames ∧ (∀ s ∈ sent, s.frame ∈ frames ∧ s.key = none) ∧
      frames.mapM (fun frame ↦ encodeFrame frame.opcode frame.payload frame.fin) = .ok (sent.map Sent.bytes) := by
  induction frames with
  | nil => exact ⟨[], rfl, nofun, rfl⟩
  | cons frame frames ih =>
    obtain ⟨sent, hframes, hsent, hcodes⟩ := ih (fun f hf ↦ hwhole f (List.mem_cons_of_mem frame hf))
      fun f hf ↦ hsmall f (List.mem_cons_of_mem frame hf)
    have hcode := encodeFrame_plain (hwhole frame List.mem_cons_self) (hsmall frame List.mem_cons_self)
    refine ⟨plain frame (hwhole frame List.mem_cons_self) (hsmall frame List.mem_cons_self) :: sent, ?_, ?_, ?_⟩
    · rw [List.map_cons, hframes]
      rfl
    · intro s hs
      rcases List.mem_cons.mp hs with rfl | hs
      · exact ⟨List.mem_cons_self, rfl⟩
      · exact ⟨List.mem_cons_of_mem frame (hsent s hs).1, (hsent s hs).2⟩
    · rw [List.mapM_cons, hcode, hcodes]
      rfl

def Fragments.Counted (held : Fragments) : Prop := held.fragmentBytes = held.fragments.flatten.length

theorem assemble_within {held held' : Fragments} {frame : Frame} {message : Option Message}
    (hframe : frame.payload.length ≤ reader.maxMessageBytes) (hheld : held.Counted)
    (h : assemble reader held frame = .ok (held', message)) :
    held'.Counted ∧ ∀ m ∈ message, m.payload.length ≤ reader.maxMessageBytes := by
  have hfinish {opcode : Opcode} {payload : Bytes} {m : Message} (hm : finish opcode payload = .ok m) : m.payload = payload := by
    obtain ⟨-, -, hmessage⟩ := bind_ok.mp hm
    cases hmessage
    rfl
  rw [assemble] at h
  split at h
  · cases h
    exact ⟨hheld, fun m hm ↦ by cases hm; exact hframe⟩
  · obtain ⟨begun, -, h⟩ := bind_ok.mp h
    cases begun with
    | none =>
      obtain ⟨m, hm, h⟩ := bind_ok.mp h
      cases h
      exact ⟨hheld, fun m' hm' ↦ by cases hm'; rwa [hfinish hm]⟩
    | some =>
      obtain ⟨_, hwithin, h⟩ := bind_ok.mp h
      have hcount : held.fragmentBytes + frame.payload.length = (held.fragments ++ [frame.payload]).flatten.length := by
        rw [List.flatten_append, List.flatten_singleton, List.length_append, hheld]
      rw [require_ok, hcount] at hwithin
      split at h
      · obtain ⟨m, hm, h⟩ := bind_ok.mp h
        cases h
        exact ⟨rfl, fun m' hm' ↦ by cases hm'; rwa [hfinish hm]⟩
      · cases h
        exact ⟨hcount, nofun⟩

theorem pushAll_within : ∀ m ∈ (pushAll reader chunks).1, m.payload.length ≤ reader.maxMessageBytes := by
  have hfront := feed_prefix (steady_reader reader) (r := ({}, [])) (Pull.next_short_iff.mpr rfl) chunks
  have hstep (held : Fragments) (bs : Bytes) (held' : Fragments) (left : Bytes) (message : Option Message)
      (hheld : held.Counted) (htaken : Pull.next (readMessage reader) held bs = .taken held' left message) :
      held'.Counted ∧ ∀ m ∈ message, m.payload.length ≤ reader.maxMessageBytes := by
    obtain ⟨frame, _, hread, hassemble⟩ := Pull.bind_taken_iff.mp (Pull.next_taken_iff.mp htaken)
    exact assemble_within (readFrame_length hread) hheld (Pull.lift_taken_iff.mp hassemble).1
  have hstart : Fragments.Counted {} := rfl
  intro m hm
  exact drained_forall (steady_reader reader) hstep hstart m (hfront.subset hm)

/-- Whatever is said is delivered, however it is fragmented, masked and cut, where every frame has less than 2^32 bytes;
and nothing that is delivered is too long. -/
theorem messages_recovered (reader : FrameReader) (hreader : 125 ≤ reader.maxMessageBytes) :
    (∀ (said : List Said) (sent : List Sent) (chunks : List Bytes), (∀ s ∈ said, s.Proper reader.maxMessageBytes) →
      sent.map Sent.frame = said.flatMap Said.frames → (∀ s ∈ sent, reader.requireMask → s.key.isSome) →
      (∀ s ∈ sent, s.frame.payload.length < 2 ^ 32) → chunks.flatten = sent.flatMap Sent.bytes →
      pushAll reader chunks = (said.flatMap Said.messages, .ok ({}, []))) ∧
    (reader.requireMask = false → ∀ said : List Said, (∀ s ∈ said, s.Proper reader.maxMessageBytes) →
      (∀ frame ∈ said.flatMap Said.frames, frame.payload.length < 2 ^ 32) →
      ∃ pieces, (said.flatMap Said.frames).mapM (fun frame ↦ encodeFrame frame.opcode frame.payload frame.fin) = .ok pieces ∧
        ∀ chunks : List Bytes, chunks.flatten = pieces.flatten →
          pushAll reader chunks = (said.flatMap Said.messages, .ok ({}, []))) ∧
    ∀ chunks, ∀ m ∈ (pushAll reader chunks).1, m.payload.length ≤ reader.maxMessageBytes := by
  refine ⟨fun said sent chunks hsaid hsent hmasked hsmall hchunks ↦ ?_, fun hbare said hsaid hsmall ↦ ?_,
    fun chunks ↦ pushAll_within⟩
  · refine pushAll_said hsaid hsent (fun s hs ↦ ⟨hmasked s hs, ?_, hsmall s hs⟩) hchunks
    have hframe : s.frame ∈ said.flatMap Said.frames := hsent ▸ List.mem_map_of_mem hs
    exact (fair_all hreader hsaid s.frame hframe).within
  · have hfair := fair_all hreader hsaid
    obtain ⟨sent, hframes, hsent, hcodes⟩ := encodeFrames_plain (fun frame hframe ↦ (hfair frame hframe).whole) hsmall
    refine ⟨_, hcodes, fun chunks hchunks ↦ pushAll_said hsaid hframes (fun s hs ↦ ⟨?_, ?_, ?_⟩) ?_⟩
    · exact fun hrequired ↦ absurd (hbare.symm.trans hrequired) nofun
    · exact (hfair s.frame (hsent s hs).1).within
    · exact hsmall s.frame (hsent s hs).1
    · rw [hchunks, List.flatMap_def]

end

section Sample

def sampleKey : Key := ⟨[0x11, 0x22, 0x33, 0x44], rfl⟩

def sampleSaid : List Said :=
  [.data .text [0x68] [⟨[⟨.ping, [0x01]⟩], [0xC3]⟩, ⟨[], [0xA9]⟩], .control ⟨.close, []⟩]

def sampleSent : List Sent :=
  [⟨⟨false, .text, [0x68]⟩, .short, some sampleKey, by decide, nofun⟩,
    ⟨⟨true, .ping, [0x01]⟩, .short, some sampleKey, by decide, fun _ ↦ ⟨rfl, rfl⟩⟩,
    ⟨⟨false, .continuation, [0xC3]⟩, .medium, some sampleKey, by decide, nofun⟩,
    ⟨⟨true, .continuation, [0xA9]⟩, .long, some sampleKey, by decide, nofun⟩,
    ⟨⟨true, .close, []⟩, .short, some sampleKey, by decide, fun _ ↦ ⟨rfl, rfl⟩⟩]

theorem sampleSaid_proper : ∀ s ∈ sampleSaid, s.Proper (1024 * 1024) := by
  simp only [sampleSaid, List.forall_mem_cons, List.not_mem_nil, false_implies, implies_true, and_true]
  refine ⟨⟨by decide, .inl ⟨rfl, ['h', 'é'], by decide⟩, ?_⟩, rfl, by decide⟩
  simp [Controls, Opcode.isControl, Opcode.code]

theorem messages_recovered_byte_by_byte : pushAll {} ((sampleSent.flatMap Sent.bytes).map ([·])) =
    ([⟨.ping, [0x01]⟩, ⟨.text, [0x68, 0xC3, 0xA9]⟩, ⟨.close, []⟩], .ok ({}, [])) :=
  (messages_recovered {} (by decide)).1 sampleSaid sampleSent _ sampleSaid_proper rfl (by decide) (by decide)
    (by rw [← List.flatMap_def, List.flatMap_singleton'])

def longMessage (n : ℕ) (h : n < 2 ^ 63) : Sent :=
  ⟨⟨true, .binary, List.replicate n 0⟩, .long, some sampleKey, by rwa [List.length_replicate], nofun⟩

theorem pushAll_longMessage {n : ℕ} (h : n < 2 ^ 63) (hhuge : 2 ^ 32 ≤ n) (reader : FrameReader) :
    (pushAll reader [(longMessage n h).bytes]).1 = [] := by
  have hlength : 2 ^ 32 ≤ (longMessage n h).frame.payload.length := by rwa [longMessage, List.length_replicate]
  have hrefused := readFrame_huge (fun (_ : reader.requireMask = true) ↦ rfl) rfl hlength []
  rw [List.append_nil] at hrefused
  have hlook : Pull.next (readMessage reader) {} ([] ++ (longMessage n h).bytes) = .refused _ :=
    Pull.next_refused_iff.mpr (Pull.bind_refused hrefused)
  rw [pushAll, feed_whole (drained_refused hlook)]

theorem longMessage_said {n : ℕ} (h : n < 2 ^ 63) : Said.Proper n (.data .binary (longMessage n h).frame.payload []) := by
  refine ⟨?_, .inr rfl, nofun⟩
  rw [List.flatMap_nil, List.append_nil, longMessage, List.length_replicate]

theorem messages_recovered_not_huge : ¬∀ (reader : FrameReader) (said : List Said) (sent : List Sent) (chunks : List Bytes),
    125 ≤ reader.maxMessageBytes → (∀ s ∈ said, s.Proper reader.maxMessageBytes) →
    sent.map Sent.frame = said.flatMap Said.frames → (∀ s ∈ sent, reader.requireMask → s.key.isSome) →
    chunks.flatten = sent.flatMap Sent.bytes →
    pushAll reader chunks = (said.flatMap Said.messages, .ok ({}, [])) := by
  intro h
  have hlt : 2 ^ 32 < 2 ^ 63 := by decide
  have hall := h ⟨2 ^ 32, true⟩ [.data .binary (longMessage _ hlt).frame.payload []] [longMessage _ hlt]
    [(longMessage _ hlt).bytes] (by decide) (List.forall_mem_singleton.mpr (longMessage_said hlt)) rfl
    (List.forall_mem_singleton.mpr fun _ ↦ rfl) rfl
  have hnone := pushAll_longMessage hlt le_rfl ⟨2 ^ 32, true⟩
  rw [hall] at hnone
  cases hnone

end Sample

end Noesar.Streams.Websocket
