import Noesar.Authority.Agreement
import Noesar.Streams.Ipc
import Noesar.Streams.Reading

namespace Noesar.Streams.Ipc

open Lib Lib.Utf16 Lib.Framing Lib.Incremental Lib.Json Lib.Decimal Canonical

section

variable {α : Type} (side : Side α) (same : α → α → Prop) (values : List α)

/-- However the frames of some values are cut, the values are delivered, and the end of the stream is an error exactly
where it stands inside a frame. -/
def Crosses : Prop :=
  ∃ frames, values.mapM side.encodeFrame = .ok frames ∧
    (∀ chunks : List Bytes, chunks.flatten = frames.flatten →
      ∃ got, side.receive chunks = (got, .ok ()) ∧ List.Forall₂ same got values) ∧
    ∀ (k : ℕ) (front back : Bytes), frames[k]? = some (front ++ back) → front ≠ [] → back ≠ [] →
      ∀ chunks : List Bytes, chunks.flatten = (frames.take k).flatten ++ front →
        ∃ got, side.receive chunks = (got, .error "authority IPC stream ended with a partial frame") ∧
          List.Forall₂ same got (values.take k)

end

section

variable {α : Type} {side : Side α} {same : α → α → Prop} {values got : List α} {chunks payloads : List Bytes} {tail : Bytes}

theorem receive_frames (hcarries : ∀ p ∈ payloads, side.Carries p) (htail : Pull.next side.readValue () tail = .short)
    (hgot : List.Forall₂ (fun p value ↦ side.decode p = .ok value) payloads got)
    (hchunks : chunks.flatten = payloads.flatMap frame ++ tail) : side.receive chunks = (got, finish tail) := by
  have hdrained := (drained_frames hcarries htail).mpr ⟨rfl, hgot⟩
  rw [← hchunks] at hdrained
  have hpushed : side.pushAll chunks = (got, .ok ((), tail)) :=
    (feed_ok_iff steady_side (r := ((), [])) (Pull.next_short_iff.mpr rfl)).mpr hdrained
  rw [Side.receive, hpushed]
  rfl

theorem receive_ok (h : side.receive chunks = (got, .ok ())) :
    drained (Pull.next side.readValue) () chunks.flatten = (got, .ok ((), [])) := by
  obtain ⟨hgot, hend⟩ := Prod.mk.inj h
  obtain ⟨⟨_, held⟩, hheld, hfinish⟩ := bind_ok.mp hend
  rw [finish, require_ok, List.length_eq_zero_iff] at hfinish
  cases hfinish
  exact (feed_ok_iff steady_side (r := ((), [])) (Pull.next_short_iff.mpr rfl)).mp (Prod.ext hgot hheld)

variable {payload : α → Bytes}

theorem frames_of_payloads (hencode : ∀ v ∈ values, side.encode v = .ok (payload v))
    (hcarries : ∀ v ∈ values, side.Carries (payload v)) :
    values.mapM side.encodeFrame = .ok ((values.map payload).map frame) := by
  rw [List.map_map]
  exact mapM_ok fun v hv ↦ encodeFrame_ok (hencode v hv) (hcarries v hv)

theorem all_read_iff : (∃ got, List.Forall₂ (fun p value ↦ side.decode p = .ok value) (values.map payload) got ∧
    List.Forall₂ same got values) ↔ ∀ v ∈ values, ∃ u, side.decode (payload v) = .ok u ∧ same u v := by
  induction values with
  | nil => exact ⟨fun _ ↦ nofun, fun _ ↦ ⟨[], .nil, .nil⟩⟩
  | cons v values ih =>
    rw [List.forall_mem_cons, ← ih]
    constructor
    · rintro ⟨_, hread, hsame⟩
      obtain ⟨u, got, hu, hreads, rfl⟩ := List.forall₂_cons_left_iff.mp hread
      obtain ⟨huv, hsames⟩ := List.forall₂_cons.mp hsame
      exact ⟨⟨u, hu, huv⟩, got, hreads, hsames⟩
    · rintro ⟨⟨u, hu, huv⟩, got, hreads, hsames⟩
      exact ⟨u :: got, .cons hu hreads, .cons huv hsames⟩

theorem crosses_iff (hencode : ∀ v ∈ values, side.encode v = .ok (payload v))
    (hcarries : ∀ v ∈ values, side.Carries (payload v)) :
    Crosses side same values ↔ ∀ v ∈ values, ∃ u, side.decode (payload v) = .ok u ∧ same u v := by
  have hframes := frames_of_payloads hencode hcarries
  have hpayloads : ∀ p ∈ values.map payload, side.Carries p := List.forall_mem_map.mpr hcarries
  have hflat (ps : List Bytes) : (ps.map frame).flatten = ps.flatMap frame := List.flatMap_def.symm
  have hstart : Pull.next side.readValue () [] = .short := Pull.next_short_iff.mpr rfl
  constructor
  · rintro ⟨frames, hframes', hall, -⟩
    cases hframes.symm.trans hframes'
    obtain ⟨got, hgot, hsame⟩ := hall [((values.map payload).map frame).flatten] List.flatten_singleton
    have hdrained := receive_ok hgot
    rw [List.flatten_singleton, hflat, ← List.append_nil ((values.map payload).flatMap frame)] at hdrained
    exact all_read_iff.mp ⟨got, ((drained_frames hpayloads hstart).mp hdrained).2, hsame⟩
  · intro hread
    obtain ⟨got, hgot, hsame⟩ := all_read_iff.mpr hread
    refine ⟨_, hframes, fun chunks hchunks ↦ ⟨got, ?_, hsame⟩, fun k front back hframe hfront hback chunks hchunks ↦ ?_⟩
    · rw [hflat, ← List.append_nil ((values.map payload).flatMap frame)] at hchunks
      exact receive_frames hpayloads hstart hgot hchunks
    · rw [List.getElem?_map, Option.map_eq_some_iff] at hframe
      obtain ⟨p, hp, hcut⟩ := hframe
      rw [List.getElem?_map, Option.map_eq_some_iff] at hp
      obtain ⟨v, hv, rfl⟩ := hp
      have hmem : v ∈ values := List.mem_of_getElem? hv
      obtain ⟨u, hu, -⟩ := hread v hmem
      have htaken := next_frame (hcarries v hmem) hu []
      rw [List.append_nil, hcut] at htaken
      have hshort := steady_side.cut htaken hback
      obtain ⟨got', hgot', hsame'⟩ := all_read_iff.mpr fun w hw ↦ hread w (List.mem_of_mem_take hw)
      rw [← List.map_take, ← List.map_take, hflat] at hchunks
      have hreceived := receive_frames (fun q hq ↦ ?_) hshort hgot' hchunks
      · refine ⟨got', hreceived.trans ?_, hsame'⟩
        rw [finish, require, if_neg (mt List.length_eq_zero_iff.mp hfront)]
      · obtain ⟨w, hw, rfl⟩ := List.mem_map.mp hq
        exact hcarries w (List.mem_of_mem_take hw)

end

section

variable {σ ν μ : Type}

theorem isObject_iff {v : Json σ ν} : isObject v ↔ ∃ members, v = .object members := by
  cases v <;> simp [isObject]

theorem isObject_norm {rank : σ → List ℕ} {g : ν → μ} (v : Json σ ν) : isObject (norm rank g v) = isObject v := by
  cases v with
  | array => rw [norm_array]; rfl
  | object => rw [norm_object]; rfl
  | _ => rfl

theorem isObject_of_same {g : ν → μ} {v u : Json σ ν} (h : Same g u v) (hv : isObject v) : isObject u := by
  obtain ⟨members, rfl⟩ := isObject_iff.mp hv
  cases u with
  | object => rfl
  | array =>
    obtain ⟨_, heq, -⟩ := same_array.mp h
    cases heq
  | number =>
    obtain ⟨_, heq, -⟩ := h
    cases heq
  | _ => cases h

theorem utf8_print_object {w : Json.Writer σ ν} {v : Json σ ν} (h : isObject v) : (utf8 (String.ofList (print w v))).length ≠ 0 := by
  obtain ⟨members, rfl⟩ := isObject_iff.mp h
  rw [Utf8.utf8_ofList, print_object, Utf8.encode, List.flatMap_cons, List.length_append]
  have hone : (String.utf8EncodeChar '{').length = 1 := by decide
  omega

theorem decode_utf8 (cs : List Char) : Utf8.decode (utf8 (String.ofList cs)) = cs := by
  have happend := Utf8.decode_encode_append cs []
  rw [List.append_nil, show Utf8.decode [] = [] from rfl, List.append_nil] at happend
  rw [Utf8.utf8_ofList, happend]

end

section ControlPlane

variable {ns : Numbers} {v : JsValue} {values : List JsValue}

def encoded (ns : Numbers) (v : JsValue) : Bytes := utf8 (String.ofList (print (writer ns) (norm unitRank value v)))

theorem canonicalJsonBytes_encoded (h : Plain v) : canonicalJsonBytes ns v = .ok (encoded ns v) := by
  rw [canonicalJsonBytes, canonicalJson_eq ns h.finite]
  rfl

theorem decode_encoded (h : Plain v) (hlegible : v.EachNumber (Legible ns)) (hobject : isObject v) :
    (controlPlane ns).decode (encoded ns v) = .ok (norm unitRank value v) := by
  have hparse : demand (parse (Canonical.reader ns) (Utf8.decode (encoded ns v))) invalidJson = .ok (norm unitRank value v) := by
    rw [encoded, decode_utf8, parse_norm h hlegible]
    rfl
  have hchecked : isObject (norm unitRank value v) := by rwa [isObject_norm]
  simp only [controlPlane, hparse, bind, Except.bind, require_ok.mpr hchecked]
  rfl

theorem controlPlane_crosses (hplain : ∀ v ∈ values, Plain v) (hlegible : ∀ v ∈ values, v.EachNumber (Legible ns))
    (hobject : ∀ v ∈ values, isObject v)
    (hsize : ∀ v ∈ values, ∀ bytes, canonicalJsonBytes ns v = .ok bytes → bytes.length ≤ 1024 * 1024) :
    Crosses (controlPlane ns) (Same value) values := by
  have hencode : ∀ v ∈ values, (controlPlane ns).encode v = .ok (encoded ns v) :=
    fun v hv ↦ canonicalJsonBytes_encoded (hplain v hv)
  refine (crosses_iff hencode fun v hv ↦ ?_).mpr fun v hv ↦ ?_
  · have hwithin := hsize v hv _ (hencode v hv)
    exact ⟨utf8_print_object ((isObject_norm v).trans (hobject v hv)), hwithin, Nat.lt_of_le_of_lt hwithin (by decide)⟩
  · exact ⟨_, decode_encoded (hplain v hv) (hlegible v hv) (hobject v hv), norm_same (hplain v hv)⟩

end ControlPlane

section Transport

variable {serde : Serde} {v : Json String SerdeNumber} {values : List (Json String SerdeNumber)} {n : SerdeNumber}

/-- A number that a value of the crate may hold: 64 bits, or a float, whose text has a point or an exponent. -/
def Held : SerdeNumber → Prop
  | .integer z => -2 ^ 63 ≤ z ∧ z < 2 ^ 64
  | .float text => Numeric text ∧ ('.' ∈ text ∨ 'e' ∈ text)

def Exact (serde : Serde) (n : SerdeNumber) : Prop := ∀ text, n = .float text → serde.float text = some text

theorem number_toDigits {m : ℕ} (h : m < 2 ^ 64) : serde.number (Nat.toDigits 10 m) = some (.integer m) := by
  unfold Serde.number
  split
  next cs hcs =>
    have hmem : '-' ∈ Nat.toDigits 10 m := hcs ▸ List.mem_cons_self
    cases isDigit_of_mem hmem
  next =>
    rw [readDigits_toDigits]
    exact if_pos h

theorem number_integer {z : ℤ} (h : Held (.integer z)) : serde.number (SerdeNumber.integer z).text = some (.integer z) := by
  obtain ⟨hlow, hhigh⟩ := h
  obtain ⟨m, rfl | rfl⟩ := z.eq_nat_or_neg
  · rw [SerdeNumber.text, toString_natCast]
    exact number_toDigits (by omega)
  · rcases Nat.eq_zero_or_pos m with rfl | hpos
    · exact number_toDigits (m := 0) (by decide)
    · rw [SerdeNumber.text, toString_neg hpos, Serde.number, readDigits_toDigits]
      exact if_neg (by omega)

theorem readDigits_float {text : List Char} (h : '.' ∈ text ∨ 'e' ∈ text) : readDigits text = none := by
  rcases h with h | h
  · exact readDigits_none h rfl
  · exact readDigits_none h rfl

theorem number_float {text : List Char} (h : Held (.float text)) : serde.number text = (serde.float text).map .float := by
  unfold Serde.number
  split
  next cs =>
    have hrest : '.' ∈ cs ∨ 'e' ∈ cs := by simpa using h.2
    rw [readDigits_float hrest]
  next => rw [readDigits_float h.2]

theorem number_text_iff (h : Held n) : serde.number n.text = some n ↔ Exact serde n := by
  cases n with
  | integer => exact ⟨fun _ ↦ nofun, fun _ ↦ number_integer h⟩
  | float text =>
    rw [SerdeNumber.text, number_float h, Option.map_eq_some_iff]
    constructor
    · rintro ⟨text', htext, heq⟩ _ hsame
      cases heq
      cases hsame
      exact htext
    · intro hexact
      exact ⟨text, hexact text rfl, rfl⟩

theorem numeric_held (h : Held n) : Numeric n.text := by
  cases n with
  | integer z => exact numeric_toString z
  | float => exact h.1

def serdeWriter : Json.Writer String SerdeNumber := ⟨fun s ↦ encode s.toList, SerdeNumber.text⟩

def lenient (serde : Serde) : Reader String SerdeNumber :=
  { serde.reader with number := fun cs ↦ some ((serde.number cs).getD (.integer 0)) }

theorem lenient_extends : (lenient serde).Extends serde.reader := by
  refine ⟨rfl, rfl, fun cs n hn ↦ ?_⟩
  have hread : serde.number cs = some n := hn
  exact congrArg (fun m ↦ some (Option.getD m (.integer 0))) hread

def leniently (serde : Serde) (n : SerdeNumber) : SerdeNumber := (serde.number n.text).getD (.integer 0)

theorem understands_lenient : Understands serdeWriter (lenient serde) id (leniently serde) Held where
  string := read_encode
  number _ _ := rfl
  numeral _ h := numeric_held h

theorem understands_exact : Understands serdeWriter serde.reader id id fun n ↦ Held n ∧ Exact serde n where
  string := read_encode
  number _ h := (number_text_iff h.1).mpr h.2
  numeral _ h := numeric_held h.1

theorem leniently_eq_iff (h : Held n) : leniently serde n = n ↔ Exact serde n := by
  rw [← number_text_iff h, leniently]
  cases hread : serde.number n.text with
  | some => simp
  | none =>
    simp only [Option.getD_none, reduceCtorEq, iff_false]
    rintro rfl
    rw [number_integer h] at hread
    cases hread

theorem parse_writeValue_iff (hdistinct : v.Distinct) (hheld : v.EachNumber Held) :
    (∃ u, parse serde.reader (writeValue v) = some u ∧ Same id u v) ↔ v.depth ≤ 127 ∧ v.EachNumber (Exact serde) := by
  have hnorm : (norm byteRank id v).Distinct := norm_distinct hdistinct
  have hnumbers : (norm byteRank id v).EachNumber Held := norm_eachNumber (fun _ h ↦ h) hheld
  have hwrite : writeValue v = print serdeWriter (norm byteRank id v) := writeValue_eq v
  rw [hwrite]
  constructor
  · rintro ⟨u, hparse, hsame⟩
    have hlenient := lenient_extends.parse hparse
    have hshallow : v.depth ≤ 127 := by
      by_contra hdeep
      have hdepth : (norm byteRank id v).depth = v.depth := norm_depth v
      rw [← hdepth] at hdeep
      rw [parse_too_deep understands_lenient _ (distinct_map hnorm _) hnumbers rfl (not_le.mp hdeep)] at hlenient
      cases hlenient
    refine ⟨hshallow, ?_⟩
    have hlimit : ∀ limit, (lenient serde).limit = some limit → (norm byteRank id v).depth ≤ limit := by
      rintro _ ⟨⟩
      rwa [norm_depth]
    rw [parse_print understands_lenient _ (distinct_map hnorm _) hnumbers hlimit] at hlenient
    cases hlenient
    rw [← norm_eq_map, same_iff_norm byteRank_injective (norm_distinct hdistinct) hdistinct, norm_norm,
      norm_eq_iff byteRank_injective byteRank_injective hdistinct] at hsame
    exact (hheld.and hsame.2).imp fun n h ↦ (leniently_eq_iff h.1).mp h.2
  · rintro ⟨hshallow, hexact⟩
    have hreadable : (norm byteRank id v).EachNumber fun n ↦ Held n ∧ Exact serde n :=
      norm_eachNumber (fun _ h ↦ h) (hheld.and hexact)
    have hlimit : ∀ limit, serde.reader.limit = some limit → (norm byteRank id v).depth ≤ limit := by
      rintro _ ⟨⟩
      rwa [norm_depth]
    refine ⟨_, parse_print understands_exact _ (distinct_map hnorm _) hreadable hlimit, ?_⟩
    rw [map_id, same_iff_norm byteRank_injective hnorm hdistinct, norm_norm]
    rfl

theorem transport_decode_iff (hobject : isObject v) : (∃ u, (transport serde).decode (toVec v) = .ok u ∧ Same id u v) ↔
    ∃ u, parse serde.reader (writeValue v) = some u ∧ Same id u v := by
  have hbytes : (Reference.decodeUtf8 (toVec v)).bind (parse serde.reader) = parse serde.reader (writeValue v) := by
    rw [toVec, Reference.decodeUtf8_utf8, Option.bind_some]
  have hdecode {u : Json String SerdeNumber} :
      (transport serde).decode (toVec v) = .ok u ↔ parse serde.reader (writeValue v) = some u ∧ isObject u := by
    simp only [transport, bind_ok, hbytes, demand_ok, require_ok, exists_unit, pure, Except.pure, Except.ok.injEq]
    constructor
    · rintro ⟨u', hparse, hobject, rfl⟩
      exact ⟨hparse, hobject⟩
    · rintro ⟨hparse, hobject⟩
      exact ⟨u, hparse, hobject, rfl⟩
  constructor
  · rintro ⟨u, hu, hsame⟩
    exact ⟨u, (hdecode.mp hu).1, hsame⟩
  · rintro ⟨u, hu, hsame⟩
    exact ⟨u, hdecode.mpr ⟨hu, isObject_of_same hsame hobject⟩, hsame⟩

theorem transport_crosses_iff (hdistinct : ∀ v ∈ values, v.Distinct) (hheld : ∀ v ∈ values, v.EachNumber Held)
    (hobject : ∀ v ∈ values, isObject v) (hsize : ∀ v ∈ values, (toVec v).length ≤ 1024 * 1024) :
    Crosses (transport serde) (Same id) values ↔ ∀ v ∈ values, v.depth ≤ 127 ∧ v.EachNumber (Exact serde) := by
  have hcarries : ∀ v ∈ values, (transport serde).Carries (toVec v) := by
    intro v hv
    refine ⟨?_, hsize v hv, Nat.lt_of_le_of_lt (hsize v hv) (by decide)⟩
    rw [toVec, writeValue_eq]
    exact utf8_print_object ((isObject_norm v).trans (hobject v hv))
  rw [crosses_iff (fun v _ ↦ rfl) hcarries]
  refine forall_congr' fun v ↦ forall_congr' fun hv ↦ ?_
  rw [transport_decode_iff (hobject v hv), parse_writeValue_iff (hdistinct v hv) (hheld v hv)]

end Transport

section

variable {α : Type} {side : Side α}

/-- Where a stream might have ended, a length that no frame has is refused, with nothing or with whatever behind it. -/
def RefusesEarly (side : Side α) : Prop :=
  ∀ (before chunks : List Bytes) (n : ℕ) (rest : Bytes), (side.receive before).2 = .ok () →
    n = 0 ∨ side.maxFrameBytes < n → n < 2 ^ 32 → chunks.flatten = before.flatten ++ (BigEndian.bytes 4 n ++ rest) →
    (side.receive chunks).2 = .error "authority IPC frame length is invalid"

theorem refusesEarly : RefusesEarly side := by
  intro before chunks n rest hbefore hn hsmall hchunks
  have hdrained := receive_ok (Prod.ext rfl hbefore : side.receive before = (_, .ok ()))
  have hrefused := drained_refused (steady_side.refused (next_length hn hsmall) rest)
  have hstop : (side.pushAll chunks).2 = (drained (Pull.next side.readValue) () chunks.flatten).2 :=
    (feed_eq steady_side (r := ((), [])) (Pull.next_short_iff.mpr rfl) chunks).1
  rw [hchunks, drained_append steady_side, hdrained] at hstop
  simp only [List.nil_append, hrefused] at hstop
  rw [Side.receive, hstop]
  rfl

end

/-- Frames cross between two control planes always, and between two of the crate's exactly when no value is nested too
deep and all floats are read as they are. -/
theorem frames_cross_iff (ns : Numbers) (serde : Serde) {values : List JsValue} (hplain : ∀ v ∈ values, Plain v)
    (hlegible : ∀ v ∈ values, v.EachNumber (Legible ns)) (hobject : ∀ v ∈ values, isObject v)
    (hsize : ∀ v ∈ values, ∀ bytes, canonicalJsonBytes ns v = .ok bytes → bytes.length ≤ 1024 * 1024)
    {values' : List (Json String SerdeNumber)} (hdistinct : ∀ v ∈ values', v.Distinct)
    (hheld : ∀ v ∈ values', v.EachNumber Held) (hobject' : ∀ v ∈ values', isObject v)
    (hsize' : ∀ v ∈ values', (toVec v).length ≤ 1024 * 1024) :
    (Crosses (controlPlane ns) (Same value) values ∧ RefusesEarly (controlPlane ns)) ∧
        Crosses (transport serde) (Same id) values' ∧ RefusesEarly (transport serde) ↔
      ∀ v ∈ values', v.depth ≤ 127 ∧ v.EachNumber (Exact serde) := by
  rw [← transport_crosses_iff hdistinct hheld hobject' hsize']
  constructor
  · rintro ⟨-, hcrosses, -⟩
    exact hcrosses
  · intro hcrosses
    exact ⟨⟨controlPlane_crosses hplain hlegible hobject hsize, refusesEarly⟩, hcrosses, refusesEarly⟩

section Sample

open Authority

/-- `{"a":[true]}`, by its key -/
def oneMember {σ ν : Type} (key : σ) : Json σ ν := .object [(key, .array [.bool true])]

theorem oneMember_distinct {σ ν : Type} (key : σ) : (oneMember key : Json σ ν).Distinct := by
  rw [oneMember, distinct_object, List.forall_mem_singleton, distinct_array]
  exact ⟨List.nodup_singleton key, List.forall_mem_singleton.mpr trivial⟩

theorem oneMember_eachNumber {σ ν : Type} (P : ν → Prop) (key : σ) : (oneMember key : Json σ ν).EachNumber P := by
  rw [oneMember, eachNumber_object, List.forall_mem_singleton, eachNumber_array]
  exact List.forall_mem_singleton.mpr trivial

def nested : ℕ → Json String SerdeNumber
  | 0 => .null
  | levels + 1 => .array [nested levels]

def tooDeep : Json String SerdeNumber := .object [("a", nested 127)]

theorem nested_distinct (levels : ℕ) : (nested levels).Distinct := by
  induction levels with
  | zero => trivial
  | succ levels ih =>
    rw [nested, distinct_array]
    exact List.forall_mem_singleton.mpr ih

theorem nested_held (levels : ℕ) : (nested levels).EachNumber Held := by
  induction levels with
  | zero => trivial
  | succ levels ih =>
    rw [nested, eachNumber_array]
    exact List.forall_mem_singleton.mpr ih

theorem frames_cross_iff_one_member :
    (Crosses (controlPlane zeroAndOne) (Same value) [oneMember (encode ['a'])] ∧ RefusesEarly (controlPlane zeroAndOne)) ∧
      Crosses (transport noFloats) (Same id) [oneMember "a"] ∧ RefusesEarly (transport noFloats) := by
  have hbytes : canonicalJsonBytes zeroAndOne (oneMember (encode ['a'])) = .ok (utf8 "\x7b\"a\":[true]\x7d") := by rfl
  apply (frames_cross_iff zeroAndOne noFloats
    (List.forall_mem_singleton.mpr ⟨oneMember_distinct _, oneMember_eachNumber _ _⟩)
    (List.forall_mem_singleton.mpr (oneMember_eachNumber _ _)) (List.forall_mem_singleton.mpr rfl) ?_
    (List.forall_mem_singleton.mpr (oneMember_distinct _)) (List.forall_mem_singleton.mpr (oneMember_eachNumber _ _))
    (List.forall_mem_singleton.mpr rfl) (List.forall_mem_singleton.mpr (by decide +kernel))).mpr
  · exact List.forall_mem_singleton.mpr ⟨by decide +kernel, oneMember_eachNumber _ _⟩
  · rw [List.forall_mem_singleton, hbytes]
    rintro _ ⟨⟩
    decide +kernel

theorem tooDeep_does_not_cross : tooDeep.Distinct ∧ tooDeep.EachNumber Held ∧ isObject tooDeep ∧
    (toVec tooDeep).length ≤ 1024 * 1024 ∧ ¬Crosses (transport noFloats) (Same id) [tooDeep] := by
  have hdistinct : tooDeep.Distinct := by
    simp [tooDeep, distinct_object, nested_distinct]
  have hheld : tooDeep.EachNumber Held := by
    simp [tooDeep, eachNumber_object, nested_held]
  have hsize : (toVec tooDeep).length ≤ 1024 * 1024 := by decide +kernel
  refine ⟨hdistinct, hheld, rfl, hsize, fun h ↦ ?_⟩
  have hshallow := (transport_crosses_iff (List.forall_mem_singleton.mpr hdistinct) (List.forall_mem_singleton.mpr hheld)
    (List.forall_mem_singleton.mpr rfl) (List.forall_mem_singleton.mpr hsize)).mp h tooDeep List.mem_cons_self
  exact absurd hshallow.1 (by decide +kernel)

end Sample

end Noesar.Streams.Ipc

namespace Noesar.Streams

open Lib Lib.Framing Lib.Incremental Canonical Websocket Ipc

/-- Each of the readers delivers the same of a stream and reports the same, however the stream is cut, exactly where
nothing is refused behind what completed a value. -/
theorem delivery_uniform_iff (reader : FrameReader) (ns : Numbers) (serde : Serde) (stream : Bytes) :
    (Uniform (Pull.next (readMessage reader)) ({}, []) stream ↔ ¬Spoiled (Pull.next (readMessage reader)) {} stream) ∧
    (Uniform (Pull.next (controlPlane ns).readValue) ((), []) stream ↔
      ¬Spoiled (Pull.next (controlPlane ns).readValue) () stream) ∧
    (Uniform (Pull.next (transport serde).readValue) ((), []) stream ↔
      ¬Spoiled (Pull.next (transport serde).readValue) () stream) :=
  ⟨uniform_iff (steady_reader reader), uniform_iff steady_side, uniform_iff steady_side⟩

section Sample

/-- A text that says `hi`, with a mask of zeros. -/
def hi : Bytes := [0x81, 0x82, 0, 0, 0, 0, 0x68, 0x69]

def reserved : Bytes := [0xC1, 0x80]

theorem whole_hi_lost : (Websocket.pushAll {} [hi ++ reserved]).1 = [] ∧
    (Websocket.pushAll {} [hi, reserved]).1 = [⟨.text, [0x68, 0x69]⟩] ∧
    ¬Uniform (Pull.next (readMessage {})) ({}, []) (hi ++ reserved) := by
  have hwhole : (Websocket.pushAll {} [hi ++ reserved]).1 = [] := by decide
  have hparts : (Websocket.pushAll {} [hi, reserved]).1 = [⟨.text, [0x68, 0x69]⟩] := by decide
  refine ⟨hwhole, hparts, fun huniform ↦ ?_⟩
  have hsame := (huniform [hi ++ reserved] [hi, reserved] rfl rfl).1
  rw [← Websocket.pushAll, ← Websocket.pushAll, hwhole, hparts] at hsame
  cases hsame

end Sample

end Noesar.Streams
