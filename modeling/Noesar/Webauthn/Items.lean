import Noesar.Webauthn.Verifier

namespace Noesar.Webauthn

open Lib Lib.Framing Lib.Cbor
open Lib.Cbor.Item (spell row EachNumber EachText fold_array fold_map forall_mem_row row_length tail_lt_length tailAll_le)

def simpleValue : Simple → Value
  | .false => .boolean false
  | .true => .boolean true
  | .null => .null

def valueOf : Item → Value :=
  Item.fold ⟨fun negative _ n ↦ .number (if negative then -1 - n else n),
    fun text _ content ↦ if text then .string (Utf8.decode content) else .buffer content,
    fun _ values ↦ .array values, fun _ entries ↦ .map (entries.foldl (fun map e ↦ mapSet e.1 e.2 map) []),
    fun _ _ value ↦ value, simpleValue⟩

def Safe : Item → Prop := EachNumber fun _ n ↦ n ≤ maxSafeInteger

def TextsValid : Item → Prop := EachText fun content ↦ ∃ points, content = Utf8.encode points

/-- What is to hold of a buffer: no more than an item at its front is accepted, every item there is decoded to what it
denotes, and the decoder comes to an end without having gone deeper than there are bytes. -/
structure Exact (buffer : Bytes) : Prop where
  accepts : ∀ value, decodeCbor buffer = .ok value →
    ∃ item rest, item.WellFormed ∧ TextsValid item ∧ buffer = spell item ++ rest ∧ value = valueOf item
  decodes : ∀ item rest, item.WellFormed → TextsValid item → Safe item → buffer = spell item ++ rest →
    decodeCbor buffer = .ok (valueOf item)
  ends : ∀ depth, buffer.length ≤ depth → decodeCborAt depth buffer 0 ≠ .error .exhausted

def CutInString (buffer : Bytes) : Prop :=
  ∃ item missing, item.WellFormed ∧ Safe item ∧ missing ≠ [] ∧ missing.length ≤ item.tail ∧ buffer ++ missing = spell item

section

variable (negative text : Bool) (w : Width) (n : ℕ) (content : Bytes) (items : List Item) (entries : List (Item × Item))
  (item : Item) (s : Simple)

theorem valueOf_array : valueOf (.array w items) = .array (items.map valueOf) := by
  rw [valueOf, fold_array]

def setRow : List (Value × Value) → List Value → List (Value × Value)
  | map, key :: value :: values => setRow (mapSet key value map) values
  | map, _ => map

theorem setRow_row (map : List (Value × Value)) : setRow map ((row entries).map valueOf) =
    (entries.map fun e ↦ (valueOf e.1, valueOf e.2)).foldl (fun map e ↦ mapSet e.1 e.2 map) map := by
  induction entries generalizing map with
  | nil => rfl
  | cons e entries ih => exact ih _

theorem valueOf_map : valueOf (.map w entries) = .map (setRow [] ((row entries).map valueOf)) := by
  rw [setRow_row, valueOf, fold_map]

end

/-! ### Bytes in a buffer -/

/-- Some bytes stand at an offset of a buffer, but for so many of the last of them that are missing at its end. -/
def Stands (buffer : Bytes) (offset : ℕ) (bytes : Bytes) (short : ℕ) : Prop :=
  ∃ missing rest, buffer.drop offset ++ missing = bytes ++ rest ∧ missing.length = short ∧ (short = 0 ∨ rest = [])

section

variable {buffer bytes front back : Bytes} {offset short : ℕ}

theorem stands_zero : Stands buffer offset bytes 0 ↔ bytes <+: buffer.drop offset := by
  constructor
  · rintro ⟨missing, rest, heq, hmissing, -⟩
    rw [List.eq_nil_of_length_eq_zero hmissing, List.append_nil] at heq
    exact ⟨rest, heq.symm⟩
  · rintro ⟨rest, heq⟩
    exact ⟨[], rest, by rw [List.append_nil, heq], rfl, .inl rfl⟩

theorem Stands.length (h : Stands buffer offset bytes short) (hoffset : offset ≤ buffer.length) (hshort : 0 < short) :
    buffer.length < offset + bytes.length := by
  obtain ⟨missing, rest, heq, hmissing, hrest⟩ := h
  have hlength := congrArg List.length heq
  rw [hrest.resolve_left (by omega), List.append_nil, List.length_append, List.length_drop] at hlength
  omega

theorem Stands.append (hfront : Stands buffer offset front 0) (hback : Stands buffer (offset + front.length) back short) :
    Stands buffer offset (front ++ back) short := by
  obtain ⟨rest, hfront⟩ := stands_zero.mp hfront
  obtain ⟨missing, rest', hback, hmissing, hrest⟩ := hback
  rw [← List.drop_drop, ← hfront, List.drop_left] at hback
  exact ⟨missing, rest', by rw [← hfront, List.append_assoc, hback, List.append_assoc], hmissing, hrest⟩

theorem Stands.split (h : Stands buffer offset (front ++ back) short) (hshort : short ≤ back.length) :
    Stands buffer offset front 0 ∧ Stands buffer (offset + front.length) back short := by
  obtain ⟨missing, rest, heq, hmissing, hrest⟩ := h
  have hlength := congrArg List.length heq
  rw [List.length_append, List.length_append, List.length_append] at hlength
  have hfront : front <+: buffer.drop offset := by
    refine List.prefix_of_prefix_length_le ⟨back ++ rest, ?_⟩ (List.prefix_append _ missing) ?_
    · rw [heq, List.append_assoc]
    · rcases hrest with rfl | rfl
      · omega
      · rw [List.length_nil] at hlength
        omega
  refine ⟨stands_zero.mpr hfront, missing, rest, ?_, hmissing, hrest⟩
  obtain ⟨behind, hbehind⟩ := hfront
  rw [← hbehind, List.append_assoc, List.append_assoc] at heq
  rw [← List.drop_drop, ← hbehind, List.drop_left]
  exact List.append_cancel_left heq

theorem subarray_eq (buffer : Bytes) (start length : ℕ) :
    subarray buffer start (start + length) = (buffer.drop start).take length := by
  rw [subarray, List.drop_take, Nat.add_sub_cancel_left]

theorem Stands.subarray_eq (h : Stands buffer offset bytes 0) : subarray buffer offset (offset + bytes.length) = bytes := by
  obtain ⟨rest, hrest⟩ := stands_zero.mp h
  rw [Webauthn.subarray_eq, ← hrest, List.take_left]

end

/-! ### Heads -/

section

variable {buffer : Bytes} {offset major n : ℕ} {w : Width} {short : ℕ}

theorem first_split {info : ℕ} (hinfo : info < 32) : (major * 32 + info) &&& 0x1f = info ∧ (major * 32 + info) >>> 5 = major := by
  have hmask : (major * 32 + info) &&& 0x1f = (major * 32 + info) % 32 := Nat.and_two_pow_sub_one_eq_mod _ 5
  rw [hmask, Nat.shiftRight_eq_div_pow]
  omega

theorem join_first (b : UInt8) : UInt8.ofNat ((b.toNat >>> 5) * 32 + (b.toNat &&& 0x1f)) = b := by
  have hmask : b.toNat &&& 0x1f = b.toNat % 32 := Nat.and_two_pow_sub_one_eq_mod _ 5
  rw [hmask, Nat.shiftRight_eq_div_pow, Nat.div_add_mod', UInt8.ofNat_toNat]

/-- A head stands at an offset, and its number is one that the decoder takes. -/
structure Opens (buffer : Bytes) (offset major : ℕ) (w : Width) (n : ℕ) : Prop where
  holds : w.Holds n
  safe : n ≤ maxSafeInteger
  stands : Stands buffer offset (head major w n) 0

theorem Opens.lt (h : Opens buffer offset major w n) : offset < buffer.length := by
  obtain ⟨rest, hrest⟩ := stands_zero.mp h.stands
  have hlength := congrArg List.length hrest
  rw [List.length_append, head_length, List.length_drop] at hlength
  omega

theorem Opens.first (h : Opens buffer offset major w n) (hmajor : major < 8) :
    (buffer.getD offset 0).toNat = major * 32 + w.info n := by
  obtain ⟨rest, hrest⟩ := stands_zero.mp h.stands
  have hget : buffer[offset]? = some (UInt8.ofNat (major * 32 + w.info n)) := by
    rw [← Nat.add_zero offset, ← List.getElem?_drop, ← hrest]
    rfl
  rw [List.getD_eq_getElem?_getD, hget, Option.getD_some, first_toNat hmajor h.holds]

theorem Opens.additionalInfo (h : Opens buffer offset major w n) (hmajor : major < 8) :
    (buffer.getD offset 0).toNat &&& 0x1f = w.info n := by
  rw [h.first hmajor]
  exact (first_split (Nat.lt_trans (Width.info_lt h.holds) (by decide))).1

theorem Opens.majorType (h : Opens buffer offset major w n) (hmajor : major < 8) :
    (buffer.getD offset 0).toNat >>> 5 = major := by
  rw [h.first hmajor]
  exact (first_split (Nat.lt_trans (Width.info_lt h.holds) (by decide))).2

theorem readUInt_ok {width : ℕ} : readUInt width buffer offset = .ok n ↔
    n < 256 ^ width ∧ BigEndian.bytes width n <+: buffer.drop offset := by
  rw [readUInt, demand_ok, Option.map_eq_some_iff]
  constructor
  · rintro ⟨⟨_, rest⟩, hread, rfl⟩
    obtain ⟨hlt, hrest⟩ := BigEndian.read_eq_some_iff.mp hread
    exact ⟨hlt, rest, hrest.symm⟩
  · rintro ⟨hlt, rest, hrest⟩
    exact ⟨(n, rest), BigEndian.read_eq_some_iff.mpr ⟨hlt, hrest.symm⟩, rfl⟩

theorem le_maxSafeInteger {m : ℕ} (hm : m ≤ 4) (hn : n < 256 ^ m) : n ≤ maxSafeInteger :=
  (hn.le.trans (Nat.pow_le_pow_right (by decide) hm)).trans (by decide)

theorem readLength_behind {next i : ℕ} (hw : w ≠ .inline) : readLength buffer offset (w.info i) = .ok (n, next) ↔
    n ≤ maxSafeInteger ∧ readUInt w.bytes buffer offset = .ok n ∧ next = offset + w.bytes := by
  have hshort {m : ℕ} (hm : m ≤ 4) : ((readUInt m buffer offset).map fun length ↦ (length, offset + m)) = .ok (n, next) ↔
      n ≤ maxSafeInteger ∧ readUInt m buffer offset = .ok n ∧ next = offset + m := by
    rw [map_ok]
    constructor
    · rintro ⟨_, hread, h⟩
      cases h
      exact ⟨le_maxSafeInteger hm (readUInt_ok.mp hread).1, hread, rfl⟩
    · rintro ⟨-, hread, rfl⟩
      exact ⟨n, hread, rfl⟩
  cases w with
  | inline => exact absurd rfl hw
  | one | two | four => exact hshort (by decide)
  | eight =>
    have hbig : readLength buffer offset 27 = (do
      let big ← readUInt 8 buffer offset
      require (¬maxSafeInteger < big) (.error "CBOR length exceeds the safe integer range.")
      return (big, offset + 8)) := rfl
    rw [Width.info, hbig]
    simp only [bind_ok, exists_unit, require_ok, Nat.not_lt]
    constructor
    · rintro ⟨big, hread, hsafe, h⟩
      cases h
      exact ⟨hsafe, hread, rfl⟩
    · rintro ⟨hsafe, hread, rfl⟩
      exact ⟨n, hread, hsafe, rfl⟩

theorem readLength_width {info next : ℕ} (h : readLength buffer offset info = .ok (n, next)) (hinfo : ¬info < 24) :
    ∃ w : Width, w ≠ .inline ∧ info = w.info n := by
  have hcases : info = 24 ∨ info = 25 ∨ info = 26 ∨ info = 27 ∨ 27 < info := by omega
  rcases hcases with rfl | rfl | rfl | rfl | hlarge
  · exact ⟨.one, by decide, rfl⟩
  · exact ⟨.two, by decide, rfl⟩
  · exact ⟨.four, by decide, rfl⟩
  · exact ⟨.eight, by decide, rfl⟩
  · rw [readLength, if_neg hinfo, if_neg (by omega), if_neg (by omega), if_neg (by omega), if_neg (by omega)] at h
    cases h

theorem readLength_ok {info next : ℕ} : readLength buffer offset info = .ok (n, next) ↔
    ∃ w : Width, w.Holds n ∧ n ≤ maxSafeInteger ∧ info = w.info n ∧ BigEndian.bytes w.bytes n <+: buffer.drop offset ∧
      next = offset + w.bytes := by
  constructor
  · intro h
    by_cases hinfo : info < 24
    · rw [readLength, if_pos hinfo] at h
      cases h
      exact ⟨.inline, hinfo, hinfo.le.trans (by decide), rfl, List.nil_prefix, rfl⟩
    · obtain ⟨w, hw, rfl⟩ := readLength_width h hinfo
      obtain ⟨hsafe, hread, hnext⟩ := (readLength_behind hw).mp h
      obtain ⟨hlt, hbytes⟩ := readUInt_ok.mp hread
      exact ⟨w, (Width.holds_iff hw).mpr hlt, hsafe, rfl, hbytes, hnext⟩
  · rintro ⟨w, hholds, hsafe, rfl, hbytes, rfl⟩
    by_cases hw : w = .inline
    · subst hw
      exact if_pos hholds
    · exact (readLength_behind hw).mpr ⟨hsafe, readUInt_ok.mpr ⟨(Width.holds_iff hw).mp hholds, hbytes⟩, rfl⟩

theorem opens_of_readLength {next : ℕ} (hoffset : offset < buffer.length)
    (h : readLength buffer (offset + 1) ((buffer.getD offset 0).toNat &&& 0x1f) = .ok (n, next)) :
    ∃ w : Width, Opens buffer offset ((buffer.getD offset 0).toNat >>> 5) w n ∧ next = offset + 1 + w.bytes := by
  obtain ⟨w, hholds, hsafe, hinfo, ⟨rest, hrest⟩, hnext⟩ := readLength_ok.mp h
  refine ⟨w, ⟨hholds, hsafe, stands_zero.mpr ⟨rest, ?_⟩⟩, hnext⟩
  rw [head, ← hinfo, join_first, List.cons_append, hrest, List.getD_eq_getElem?_getD,
    List.getElem?_eq_getElem hoffset, Option.getD_some, List.getElem_cons_drop]

theorem Opens.readLength (h : Opens buffer offset major w n) :
    readLength buffer (offset + 1) (w.info n) = .ok (n, offset + 1 + w.bytes) := by
  obtain ⟨rest, hrest⟩ := stands_zero.mp h.stands
  refine readLength_ok.mpr ⟨w, h.holds, h.safe, rfl, ⟨rest, ?_⟩, rfl⟩
  rw [← List.drop_drop, ← hrest]
  rfl

end

/-! ### Loops -/

section

variable (decodeAt : ℕ → Except Thrown (Decoded Value))

theorem decodeItems_onto (items : List Value) (count pos : ℕ) : decodeItems decodeAt items count pos =
    (decodeItems decodeAt [] count pos).map fun decoded ↦ ⟨items ++ decoded.value, decoded.offset⟩ := by
  induction count generalizing items pos with
  | zero => rw [decodeItems, decodeItems, Except.map, List.append_nil]
  | succ count ih =>
    rw [decodeItems, decodeItems]
    cases decodeAt pos with
    | error => rfl
    | ok decoded =>
      dsimp only [bind, Except.bind]
      rw [ih, ih ([] ++ [decoded.value])]
      cases decodeItems decodeAt [] count decoded.offset with
      | error => rfl
      | ok => simp only [Except.map, List.append_assoc, List.nil_append]

theorem decodeEntries_eq (map : List (Value × Value)) (count pos : ℕ) : decodeEntries decodeAt map count pos =
    (decodeItems decodeAt [] (2 * count) pos).map fun decoded ↦ ⟨setRow map decoded.value, decoded.offset⟩ := by
  induction count generalizing map pos with
  | zero => rfl
  | succ count ih =>
    rw [Nat.mul_succ, decodeEntries, decodeItems]
    cases decodeAt pos with
    | error => rfl
    | ok key =>
      simp only [bind, Except.bind, decodeItems]
      cases decodeAt key.offset with
      | error => rfl
      | ok value =>
        dsimp only
        rw [ih, decodeItems_onto decodeAt ([] ++ [key.value] ++ [value.value])]
        cases decodeItems decodeAt [] (2 * count) value.offset with
        | error | ok => rfl

end

/-! ### What is decoded -/

section

variable {depth : ℕ} {buffer : Bytes} {offset major n : ℕ} {w : Width}

/-- Where an item stands, or all of it but the end of its last string, something is decoded, and what it denotes where
it is whole. -/
def Decodes (depth : ℕ) (buffer : Bytes) (item : Item) : Prop :=
  ∀ offset short, Stands buffer offset (spell item) short → short ≤ item.tail → buffer.length ≤ offset + depth →
    ∃ value, decodeCborAt depth buffer offset = .ok ⟨value, offset + (spell item).length⟩ ∧ (short = 0 → value = valueOf item)

theorem decodes_all {items : List Item} (hitems : ∀ i ∈ items, Decodes depth buffer i) (pos short : ℕ)
    (hstands : Stands buffer pos (spellAll items) short) (hshort : short ≤ tailAll items) (hdepth : buffer.length ≤ pos + depth) :
    ∃ values, decodeItems (decodeCborAt depth buffer) [] items.length pos = .ok ⟨values, pos + (spellAll items).length⟩ ∧
      (short = 0 → values = items.map valueOf) := by
  induction items generalizing pos with
  | nil => exact ⟨[], rfl, fun _ ↦ rfl⟩
  | cons i items ih =>
    rw [List.forall_mem_cons] at hitems
    rw [spellAll_cons] at hstands ⊢
    rw [List.length_append, ← Nat.add_assoc, List.length_cons, decodeItems]
    cases items with
    | nil =>
      rw [spellAll_nil, List.append_nil] at hstands
      obtain ⟨value, hvalue, hwhole⟩ := hitems.1 pos short hstands hshort hdepth
      rw [hvalue]
      exact ⟨[value], rfl, fun h ↦ by rw [hwhole h]; rfl⟩
    | cons j items =>
      rw [tailAll_cons _ i (List.cons_ne_nil j items)] at hshort
      have hroom : short ≤ (spellAll (j :: items)).length := hshort.trans (tailAll_le fun i _ ↦ tail_lt_length i)
      obtain ⟨hfirst, hbehind⟩ := hstands.split hroom
      obtain ⟨value, hvalue, hwhole⟩ := hitems.1 pos 0 hfirst (Nat.zero_le _) hdepth
      obtain ⟨values, hvalues, hrest⟩ := ih hitems.2 (pos + (spell i).length) hbehind hshort (by omega)
      rw [hvalue]
      dsimp only [bind, Except.bind]
      rw [decodeItems_onto, hvalues]
      exact ⟨value :: values, rfl, fun h ↦ by rw [hwhole rfl, hrest h]; rfl⟩

theorem opens_of_stands {body : Bytes} {short : ℕ} (hholds : w.Holds n) (hsafe : n ≤ maxSafeInteger)
    (hstands : Stands buffer offset (head major w n ++ body) short) (hshort : short ≤ body.length) :
    Opens buffer offset major w n ∧ Stands buffer (offset + 1 + w.bytes) body short := by
  obtain ⟨hhead, hbody⟩ := hstands.split hshort
  rw [head_length, ← Nat.add_assoc] at hbody
  exact ⟨⟨hholds, hsafe, hhead⟩, hbody⟩

theorem Opens.deep (h : Opens buffer offset major w n) (hdepth : buffer.length ≤ offset + depth) :
    ∃ below, depth = below + 1 ∧ buffer.length ≤ offset + 1 + w.bytes + below := by
  have hlt := h.lt
  exact ⟨depth - 1, by omega, by omega⟩

theorem decodes_integer (negative : Bool) (hholds : w.Holds n) (hsafe : n ≤ maxSafeInteger) :
    Decodes depth buffer (.integer negative w n) := by
  intro offset short hstands hshort hdepth
  rw [tail_integer, Nat.le_zero] at hshort
  subst hshort
  rw [spell_integer] at hstands ⊢
  have hopens : Opens buffer offset negative.toNat w n := ⟨hholds, hsafe, hstands⟩
  obtain ⟨below, rfl, -⟩ := hopens.deep hdepth
  rw [head_length, ← Nat.add_assoc, decodeCborAt, if_neg (Nat.not_le.mpr hopens.lt)]
  cases negative with
  | false =>
    simp only [hopens.additionalInfo (by decide), hopens.majorType (by decide), hopens.readLength, Bool.toNat_false]
    exact ⟨.number n, rfl, fun _ ↦ rfl⟩
  | true =>
    simp only [hopens.additionalInfo (by decide), hopens.majorType (by decide), hopens.readLength, Bool.toNat_true]
    exact ⟨.number (-1 - n), rfl, fun _ ↦ rfl⟩

theorem decodes_string (text : Bool) {content : Bytes} (hholds : w.Holds content.length)
    (hsafe : content.length ≤ maxSafeInteger) : Decodes depth buffer (.string text w content) := by
  intro offset short hstands hshort hdepth
  rw [tail_string] at hshort
  rw [spell_string] at hstands ⊢
  obtain ⟨hopens, hbody⟩ := opens_of_stands hholds hsafe hstands hshort
  obtain ⟨below, rfl, -⟩ := hopens.deep hdepth
  rw [List.length_append, head_length, ← Nat.add_assoc, ← Nat.add_assoc, decodeCborAt, if_neg (Nat.not_le.mpr hopens.lt)]
  cases text with
  | false =>
    simp only [hopens.additionalInfo (by decide), hopens.majorType (by decide), hopens.readLength, Bool.toNat_false]
    refine ⟨_, rfl, ?_⟩
    rintro rfl
    rw [hbody.subarray_eq]
    rfl
  | true =>
    simp only [hopens.additionalInfo (by decide), hopens.majorType (by decide), hopens.readLength, Bool.toNat_true]
    refine ⟨_, rfl, ?_⟩
    rintro rfl
    rw [hbody.subarray_eq]
    rfl

theorem decodes_array {items : List Item} (hholds : w.Holds items.length) (hsafe : items.length ≤ maxSafeInteger)
    (hitems : ∀ depth, ∀ i ∈ items, Decodes depth buffer i) : Decodes depth buffer (.array w items) := by
  intro offset short hstands hshort hdepth
  rw [tail_array] at hshort
  rw [spell_array] at hstands ⊢
  have hroom : short ≤ (spellAll items).length := hshort.trans (tailAll_le fun i _ ↦ tail_lt_length i)
  obtain ⟨hopens, hbody⟩ := opens_of_stands hholds hsafe hstands hroom
  obtain ⟨below, rfl, hbelow⟩ := hopens.deep hdepth
  obtain ⟨values, hvalues, hwhole⟩ := decodes_all (hitems below) _ short hbody hshort hbelow
  rw [List.length_append, head_length, ← Nat.add_assoc, ← Nat.add_assoc, decodeCborAt, if_neg (Nat.not_le.mpr hopens.lt)]
  simp only [hopens.additionalInfo (by decide), hopens.majorType (by decide), hopens.readLength, bind, Except.bind, hvalues]
  exact ⟨.array values, rfl, fun h ↦ by rw [hwhole h, valueOf_array]⟩

theorem decodes_map {entries : List (Item × Item)} (hholds : w.Holds entries.length)
    (hsafe : entries.length ≤ maxSafeInteger) (hentries : ∀ depth, ∀ i ∈ row entries, Decodes depth buffer i) :
    Decodes depth buffer (.map w entries) := by
  intro offset short hstands hshort hdepth
  rw [tail_map] at hshort
  rw [spell_map] at hstands ⊢
  have hroom : short ≤ (spellAll (row entries)).length := hshort.trans (tailAll_le fun i _ ↦ tail_lt_length i)
  obtain ⟨hopens, hbody⟩ := opens_of_stands hholds hsafe hstands hroom
  obtain ⟨below, rfl, hbelow⟩ := hopens.deep hdepth
  obtain ⟨values, hvalues, hwhole⟩ := decodes_all (hentries below) _ short hbody hshort hbelow
  rw [row_length] at hvalues
  rw [List.length_append, head_length, ← Nat.add_assoc, ← Nat.add_assoc, decodeCborAt, if_neg (Nat.not_le.mpr hopens.lt)]
  simp only [hopens.additionalInfo (by decide), hopens.majorType (by decide), hopens.readLength, bind, Except.bind,
    decodeEntries_eq, hvalues, Except.map]
  exact ⟨.map (setRow [] values), rfl, fun h ↦ by rw [hwhole h, valueOf_map]⟩

theorem decodes_tag {item : Item} (hholds : w.Holds n) (hsafe : n ≤ maxSafeInteger)
    (hitem : ∀ depth, Decodes depth buffer item) : Decodes depth buffer (.tag w n item) := by
  intro offset short hstands hshort hdepth
  rw [tail_tag] at hshort
  rw [spell_tag] at hstands ⊢
  obtain ⟨hopens, hbody⟩ := opens_of_stands hholds hsafe hstands (hshort.trans (tail_lt_length item).le)
  obtain ⟨below, rfl, hbelow⟩ := hopens.deep hdepth
  obtain ⟨value, hvalue, hwhole⟩ := hitem below _ short hbody hshort hbelow
  rw [List.length_append, head_length, ← Nat.add_assoc, ← Nat.add_assoc, decodeCborAt, if_neg (Nat.not_le.mpr hopens.lt)]
  simp only [hopens.additionalInfo (by decide), hopens.majorType (by decide), hopens.readLength, bind, Except.bind, hvalue]
  exact ⟨value, rfl, hwhole⟩

theorem decodes_simple (s : Simple) : Decodes depth buffer (.simple s) := by
  intro offset short hstands hshort hdepth
  rw [tail_simple, Nat.le_zero] at hshort
  subst hshort
  rw [spell_simple] at hstands ⊢
  have hopens : Opens buffer offset 7 .inline s.code := ⟨s.code_lt, s.code_lt.le.trans (by decide), hstands⟩
  obtain ⟨below, rfl, -⟩ := hopens.deep hdepth
  rw [decodeCborAt, if_neg (Nat.not_le.mpr hopens.lt)]
  simp only [hopens.additionalInfo (by decide), hopens.majorType (by decide)]
  cases s with
  | false => exact ⟨.boolean false, rfl, fun _ ↦ rfl⟩
  | true => exact ⟨.boolean true, rfl, fun _ ↦ rfl⟩
  | null => exact ⟨.null, rfl, fun _ ↦ rfl⟩

theorem decodes_item (item : Item) (hitem : item.EachNumber fun w n ↦ w.Holds n ∧ n ≤ maxSafeInteger) :
    Decodes depth buffer item := by
  induction item generalizing depth with
  | integer negative => exact decodes_integer negative hitem.1 hitem.2
  | string text => exact decodes_string text hitem.1 hitem.2
  | array w items ih =>
    obtain ⟨⟨hholds, hsafe⟩, hitems⟩ := (eachNumber_array ..).mp hitem
    exact decodes_array hholds hsafe fun depth i hi ↦ ih i hi (hitems i hi)
  | map w entries ih =>
    obtain ⟨⟨hholds, hsafe⟩, hentries⟩ := (eachNumber_map ..).mp hitem
    exact decodes_map hholds hsafe fun depth ↦ forall_mem_row.mpr fun e he ↦
      ⟨(ih e he).1 (hentries e he).1, (ih e he).2 (hentries e he).2⟩
  | tag w n item ih =>
    obtain ⟨⟨hholds, hsafe⟩, hinner⟩ := hitem
    exact decodes_tag hholds hsafe fun depth ↦ ih hinner
  | simple s => exact decodes_simple s

end

/-! ### What was decoded -/

section

variable {depth : ℕ} {buffer : Bytes} {offset major n : ℕ} {w : Width}

theorem decodeCborAt_lt {decoded : Decoded Value} (h : decodeCborAt depth buffer offset = .ok decoded) :
    offset < buffer.length := by
  rw [decodeCborAt.eq_def] at h
  split at h
  · cases h
  · omega

abbrev Taken : Item → Prop := EachNumber fun w n ↦ w.Holds n ∧ n ≤ maxSafeInteger

/-- What was decoded is an item that stands there, or all of it but the end of its last string. -/
def Backed (buffer : Bytes) (offset : ℕ) (decoded : Decoded Value) : Prop :=
  ∃ item short, Taken item ∧ Stands buffer offset (spell item) short ∧ short ≤ item.tail ∧
    decoded.offset = offset + (spell item).length ∧ (short = 0 → decoded.value = valueOf item)

def BackedAll (buffer : Bytes) (offset count : ℕ) (decoded : Decoded (List Value)) : Prop :=
  ∃ items short, items.length = count ∧ (∀ i ∈ items, Taken i) ∧ Stands buffer offset (spellAll items) short ∧
    short ≤ tailAll items ∧ decoded.offset = offset + (spellAll items).length ∧
    (short = 0 → decoded.value = items.map valueOf)

theorem whole_of_next {item : Item} {short : ℕ} {next : Decoded Value} (hoffset : offset < buffer.length)
    (hstands : Stands buffer offset (spell item) short)
    (hnext : decodeCborAt depth buffer (offset + (spell item).length) = .ok next) : short = 0 := by
  by_contra hshort
  have hbehind := hstands.length hoffset.le (Nat.pos_of_ne_zero hshort)
  have hlt := decodeCborAt_lt hnext
  omega

theorem backed_all (hbacked : ∀ offset decoded, decodeCborAt depth buffer offset = .ok decoded → Backed buffer offset decoded)
    {count pos : ℕ} {decoded : Decoded (List Value)} (h : decodeItems (decodeCborAt depth buffer) [] count pos = .ok decoded) :
    BackedAll buffer pos count decoded := by
  induction count generalizing pos decoded with
  | zero =>
    cases h
    exact ⟨[], 0, rfl, fun _ hmem ↦ absurd hmem List.not_mem_nil, stands_zero.mpr List.nil_prefix, Nat.le_refl 0, rfl, fun _ ↦ rfl⟩
  | succ count ih =>
    rw [decodeItems, bind_ok] at h
    obtain ⟨first, hfirst, h⟩ := h
    rw [decodeItems_onto, map_ok] at h
    obtain ⟨rest, hrest, rfl⟩ := h
    obtain ⟨item, short, htaken, hstands, hshort, hoffset, hwhole⟩ := hbacked pos first hfirst
    cases count with
    | zero =>
      cases hrest
      refine ⟨[item], short, rfl, List.forall_mem_singleton.mpr htaken, ?_, hshort, ?_, fun h ↦ ?_⟩
      · rwa [spellAll_cons, spellAll_nil, List.append_nil]
      · rw [spellAll_cons, spellAll_nil]
        simpa only [List.append_nil] using hoffset
      · rw [hwhole h]
        rfl
    | succ =>
      obtain ⟨items, short', hlength, htakens, hbehind, hshort', hstop, hvalues⟩ := ih hrest
      have hnext : ∃ next, decodeCborAt depth buffer first.offset = .ok next := by
        rw [decodeItems, bind_ok] at hrest
        exact hrest.imp fun _ ↦ And.left
      obtain ⟨next, hnext⟩ := hnext
      rw [hoffset] at hnext hbehind hstop
      obtain rfl := whole_of_next (decodeCborAt_lt hfirst) hstands hnext
      have hne : items ≠ [] := List.ne_nil_of_length_eq_add_one hlength
      refine ⟨item :: items, short', by rw [List.length_cons, hlength], List.forall_mem_cons.mpr ⟨htaken, htakens⟩,
        hstands.append hbehind, ?_, ?_, fun h ↦ ?_⟩
      · rwa [tailAll_cons _ item hne]
      · rw [hstop, spellAll_cons, List.length_append, Nat.add_assoc]
      · rw [hwhole rfl, hvalues h]
        rfl

theorem exists_row (items : List Item) (count : ℕ) (h : items.length = 2 * count) :
    ∃ entries, row entries = items ∧ entries.length = count := by
  induction count generalizing items with
  | zero =>
    obtain rfl := List.eq_nil_of_length_eq_zero h
    exact ⟨[], rfl, rfl⟩
  | succ count ih =>
    match items, h with
    | key :: value :: items, h =>
      obtain ⟨entries, rfl, hlength⟩ := ih items (by simp only [List.length_cons] at h; omega)
      exact ⟨(key, value) :: entries, rfl, by rw [List.length_cons, hlength]⟩

theorem Opens.backed (item : Item) {body : Bytes} {value : Value} {short stop : ℕ} (hopens : Opens buffer offset major w n)
    (hspell : spell item = head major w n ++ body) (htaken : Taken item)
    (hbody : Stands buffer (offset + 1 + w.bytes) body short) (hshort : short ≤ item.tail)
    (hstop : stop = offset + 1 + w.bytes + body.length) (hvalue : short = 0 → value = valueOf item) :
    Backed buffer offset ⟨value, stop⟩ := by
  refine ⟨item, short, htaken, ?_, hshort, ?_, hvalue⟩
  · rw [hspell]
    refine hopens.stands.append ?_
    rwa [head_length, ← Nat.add_assoc]
  · rw [hspell, List.length_append, head_length, hstop]
    dsimp only
    omega

theorem opens_simple {s : Simple} (hoffset : offset < buffer.length) (hmajor : (buffer.getD offset 0).toNat >>> 5 = 7)
    (hcode : (buffer.getD offset 0).toNat &&& 0x1f = s.code) : Opens buffer offset 7 .inline s.code := by
  have hread : readLength buffer (offset + 1) ((buffer.getD offset 0).toNat &&& 0x1f) = .ok (s.code, offset + 1) := by
    rw [hcode]
    exact if_pos s.code_lt
  obtain ⟨w, hopens, hnext⟩ := opens_of_readLength hoffset hread
  rw [hmajor] at hopens
  cases w with
  | inline => exact hopens
  | one | two | four | eight => exact absurd hnext (Nat.ne_of_lt (Nat.lt_add_of_pos_right (by decide)))

theorem stands_nil : Stands buffer offset [] 0 := stands_zero.mpr List.nil_prefix

theorem exists_content (hoffset : offset ≤ buffer.length) (length : ℕ) : ∃ content short,
    content.length = length ∧ Stands buffer offset content short ∧ short ≤ length ∧
      (short = 0 → subarray buffer offset (offset + length) = content) := by
  by_cases hwhole : offset + length ≤ buffer.length
  · have htaken : ((buffer.drop offset).take length).length = length := by
      rw [List.length_take, List.length_drop]
      omega
    exact ⟨(buffer.drop offset).take length, 0, htaken, stands_zero.mpr (List.take_prefix _ _), Nat.zero_le _,
      fun _ ↦ subarray_eq buffer offset length⟩
  · refine ⟨buffer.drop offset ++ List.replicate (offset + length - buffer.length) 0, offset + length - buffer.length,
      ?_, ⟨List.replicate _ 0, [], (List.append_nil _).symm, List.length_replicate, .inr rfl⟩, by omega, fun h ↦ by omega⟩
    rw [List.length_append, List.length_drop, List.length_replicate]
    omega

theorem Opens.behind (h : Opens buffer offset major w n) : offset + 1 + w.bytes ≤ buffer.length := by
  obtain ⟨rest, hrest⟩ := stands_zero.mp h.stands
  have hlength := congrArg List.length hrest
  rw [List.length_append, head_length, List.length_drop] at hlength
  omega

theorem backed (depth offset : ℕ) (decoded : Decoded Value) (h : decodeCborAt depth buffer offset = .ok decoded) :
    Backed buffer offset decoded := by
  induction depth generalizing offset decoded with
  | zero =>
    rw [decodeCborAt] at h
    split at h <;> cases h
  | succ depth ih =>
    have hlt := decodeCborAt_lt h
    rw [decodeCborAt, if_neg (Nat.not_le.mpr hlt)] at h
    dsimp only at h
    split at h
    next hmajor =>
      obtain ⟨⟨n, next⟩, hread, h⟩ := bind_ok.mp h
      obtain ⟨w, hopens, rfl⟩ := opens_of_readLength hlt hread
      rw [hmajor] at hopens
      cases h
      exact hopens.backed (.integer false w n) (List.append_nil _).symm ⟨hopens.holds, hopens.safe⟩ stands_nil
        (Nat.le_refl 0) rfl fun _ ↦ rfl
    next hmajor =>
      obtain ⟨⟨n, next⟩, hread, h⟩ := bind_ok.mp h
      obtain ⟨w, hopens, rfl⟩ := opens_of_readLength hlt hread
      rw [hmajor] at hopens
      cases h
      exact hopens.backed (.integer true w n) (List.append_nil _).symm ⟨hopens.holds, hopens.safe⟩ stands_nil
        (Nat.le_refl 0) rfl fun _ ↦ rfl
    next hmajor =>
      obtain ⟨⟨n, next⟩, hread, h⟩ := bind_ok.mp h
      obtain ⟨w, hopens, rfl⟩ := opens_of_readLength hlt hread
      rw [hmajor] at hopens
      obtain ⟨content, short, rfl, hbody, hshort, hwhole⟩ := exists_content hopens.behind n
      cases h
      exact hopens.backed (.string false w content) rfl ⟨hopens.holds, hopens.safe⟩ hbody hshort rfl
        fun h ↦ congrArg Value.buffer (hwhole h)
    next hmajor =>
      obtain ⟨⟨n, next⟩, hread, h⟩ := bind_ok.mp h
      obtain ⟨w, hopens, rfl⟩ := opens_of_readLength hlt hread
      rw [hmajor] at hopens
      obtain ⟨content, short, rfl, hbody, hshort, hwhole⟩ := exists_content hopens.behind n
      cases h
      exact hopens.backed (.string true w content) rfl ⟨hopens.holds, hopens.safe⟩ hbody hshort rfl
        fun h ↦ congrArg (fun bytes ↦ Value.string (Utf8.decode bytes)) (hwhole h)
    next hmajor =>
      obtain ⟨⟨n, next⟩, hread, h⟩ := bind_ok.mp h
      obtain ⟨w, hopens, rfl⟩ := opens_of_readLength hlt hread
      rw [hmajor] at hopens
      obtain ⟨values, hvalues, hdone⟩ := bind_ok.mp h
      obtain ⟨items, short, rfl, htakens, hbody, hshort, hstop, hwhole⟩ := backed_all ih hvalues
      cases hdone
      refine hopens.backed (.array w items) (spell_array w items)
        ((eachNumber_array ..).mpr ⟨⟨hopens.holds, hopens.safe⟩, htakens⟩) hbody ?_ hstop fun h ↦ ?_
      · rwa [tail_array]
      · rw [hwhole h, valueOf_array]
    next hmajor =>
      obtain ⟨⟨n, next⟩, hread, h⟩ := bind_ok.mp h
      obtain ⟨w, hopens, rfl⟩ := opens_of_readLength hlt hread
      rw [hmajor] at hopens
      obtain ⟨entries, hentries, hdone⟩ := bind_ok.mp h
      rw [decodeEntries_eq, map_ok] at hentries
      obtain ⟨values, hvalues, rfl⟩ := hentries
      obtain ⟨items, short, hlength, htakens, hbody, hshort, hstop, hwhole⟩ := backed_all ih hvalues
      obtain ⟨entries, rfl, rfl⟩ := exists_row items n hlength
      cases hdone
      refine hopens.backed (.map w entries) (spell_map w entries)
        ((eachNumber_map ..).mpr ⟨⟨hopens.holds, hopens.safe⟩, forall_mem_row.mp htakens⟩) hbody ?_ hstop fun h ↦ ?_
      · rwa [tail_map]
      · rw [hwhole h, valueOf_map]
    next hmajor =>
      obtain ⟨⟨n, next⟩, hread, h⟩ := bind_ok.mp h
      obtain ⟨w, hopens, rfl⟩ := opens_of_readLength hlt hread
      rw [hmajor] at hopens
      obtain ⟨item, short, htaken, hbody, hshort, hstop, hwhole⟩ := ih _ _ h
      exact hopens.backed (.tag w n item) rfl ⟨⟨hopens.holds, hopens.safe⟩, htaken⟩ hbody hshort hstop hwhole
    next hmajor =>
      have hbacked (s : Simple) (hcode : (buffer.getD offset 0).toNat &&& 0x1f = s.code) :
          Backed buffer offset ⟨simpleValue s, offset + 1⟩ :=
        (opens_simple hlt hmajor hcode).backed (.simple s) (List.append_nil _).symm trivial stands_nil (Nat.le_refl 0) rfl
          fun _ ↦ rfl
      split at h
      next hcode =>
        cases h
        exact hbacked .false hcode
      next =>
        split at h
        next hcode =>
          cases h
          exact hbacked .true hcode
        next =>
          split at h
          next hcode =>
            cases h
            exact hbacked .null hcode
          next => cases h
    next => cases h

end

/-! ### The decoder comes to an end -/

section

variable {α β : Type} {depth : ℕ} {buffer : Bytes}

def Ends (x : Except Thrown α) : Prop := x ≠ .error .exhausted

theorem Ends.bind {x : Except Thrown α} {f : α → Except Thrown β} (hx : Ends x) (hf : ∀ a, x = .ok a → Ends (f a)) :
    Ends (x >>= f) := by
  cases x with
  | error => exact fun h ↦ hx (congrArg Except.error (Except.error.inj h))
  | ok a => exact hf a rfl

theorem Ends.map {x : Except Thrown α} (hx : Ends x) (f : α → β) : Ends (x.map f) := by
  cases x with
  | error => exact fun h ↦ hx (congrArg Except.error (Except.error.inj h))
  | ok => exact nofun

theorem ends_ok (a : α) : Ends (.ok a) := nofun

theorem ends_error (message : String) : Ends (.error (.error message) : Except Thrown α) := nofun

theorem ends_readUInt (width offset : ℕ) : Ends (readUInt width buffer offset) := by
  rw [readUInt]
  cases (BigEndian.read width (buffer.drop offset)).map Prod.fst with
  | none | some => exact nofun

theorem ends_readLength (offset info : ℕ) : Ends (readLength buffer offset info) := by
  rw [readLength]
  split
  · exact ends_ok _
  split
  · exact (ends_readUInt 1 offset).map _
  split
  · exact (ends_readUInt 2 offset).map _
  split
  · exact (ends_readUInt 4 offset).map _
  split
  · refine (ends_readUInt 8 offset).bind fun big _ ↦ Ends.bind ?_ fun _ _ ↦ ends_ok _
    rw [require]
    split
    · exact ends_ok ()
    · exact ends_error _
  · exact ends_error _

theorem next_le {offset info n next : ℕ} (h : readLength buffer offset info = .ok (n, next)) : offset ≤ next := by
  obtain ⟨w, -, -, -, -, rfl⟩ := readLength_ok.mp h
  exact Nat.le_add_right _ _

theorem ends_items (hends : ∀ pos, buffer.length ≤ pos + depth → Ends (decodeCborAt depth buffer pos))
    (items : List Value) (count : ℕ) {pos : ℕ} (hdepth : buffer.length ≤ pos + depth) :
    Ends (decodeItems (decodeCborAt depth buffer) items count pos) := by
  induction count generalizing items pos with
  | zero => exact ends_ok _
  | succ count ih =>
    rw [decodeItems]
    refine (hends pos hdepth).bind fun decoded hdecoded ↦ ?_
    obtain ⟨item, -, -, -, -, hoffset, -⟩ := backed depth pos decoded hdecoded
    exact ih _ (by omega)

theorem ends_decodeCborAt (depth : ℕ) {offset : ℕ} (hdepth : buffer.length ≤ offset + depth) :
    Ends (decodeCborAt depth buffer offset) := by
  induction depth generalizing offset with
  | zero =>
    rw [decodeCborAt.eq_def, if_pos (by omega)]
    exact ends_error _
  | succ depth ih =>
    rw [decodeCborAt]
    split
    · exact ends_error _
    have hinner {next : ℕ} (h : offset + 1 ≤ next) : buffer.length ≤ next + depth := by omega
    dsimp only
    split
    · exact (ends_readLength _ _).bind fun _ _ ↦ ends_ok _
    · exact (ends_readLength _ _).bind fun _ _ ↦ ends_ok _
    · exact (ends_readLength _ _).bind fun _ _ ↦ ends_ok _
    · exact (ends_readLength _ _).bind fun _ _ ↦ ends_ok _
    · refine (ends_readLength _ _).bind fun _ hread ↦ ?_
      exact (ends_items (fun pos ↦ ih) [] _ (hinner (next_le hread))).bind fun _ _ ↦ ends_ok _
    · refine (ends_readLength _ _).bind fun _ hread ↦ Ends.bind ?_ fun _ _ ↦ ends_ok _
      rw [decodeEntries_eq]
      exact (ends_items (fun pos ↦ ih) [] _ (hinner (next_le hread))).map _
    · exact (ends_readLength _ _).bind fun _ hread ↦ ih (hinner (next_le hread))
    · split
      · exact ends_ok _
      split
      · exact ends_ok _
      split
      · exact ends_ok _
      · exact ends_error _
    · exact ends_error _

end

/-! ### What a buffer begins with -/

section

variable {buffer rest : Bytes} {item : Item} {value : Value}

theorem taken (hitem : item.WellFormed) (hsafe : Safe item) : Taken item := hitem.and hsafe

theorem decodeCbor_spell (hitem : item.WellFormed) (hsafe : Safe item) (rest : Bytes) :
    decodeCbor (spell item ++ rest) = .ok (valueOf item) := by
  have hstands : Stands (spell item ++ rest) 0 (spell item) 0 := stands_zero.mpr (List.prefix_append _ rest)
  obtain ⟨value, hvalue, hwhole⟩ := decodes_item item (taken hitem hsafe) 0 0 hstands (Nat.zero_le _) (Nat.zero_add _).ge
  rw [decodeCbor, hvalue, ← hwhole rfl]
  rfl

theorem decodeCbor_cut (h : CutInString buffer) : ∃ value, decodeCbor buffer = .ok value := by
  obtain ⟨item, missing, hitem, hsafe, hmissing, htail, hspell⟩ := h
  have hstands : Stands buffer 0 (spell item) missing.length :=
    ⟨missing, [], by rw [List.drop_zero, List.append_nil, hspell], rfl, .inr rfl⟩
  obtain ⟨value, hvalue, -⟩ := decodes_item item (taken hitem hsafe) 0 _ hstands htail (Nat.zero_add _).ge
  exact ⟨value, by rw [decodeCbor, hvalue]; rfl⟩

theorem decodeCbor_backed (h : decodeCbor buffer = .ok value) : CutInString buffer ∨
    ∃ item rest, item.WellFormed ∧ Safe item ∧ buffer = spell item ++ rest ∧ value = valueOf item := by
  obtain ⟨decoded, hdecoded, rfl⟩ := map_ok.mp h
  obtain ⟨item, short, htaken, ⟨missing, rest, heq, rfl, hrest⟩, hshort, -, hwhole⟩ := backed _ _ _ hdecoded
  rw [List.drop_zero] at heq
  have hitem : item.WellFormed := htaken.mono fun _ _ ↦ And.left
  have hsafe : Safe item := htaken.mono fun _ _ ↦ And.right
  by_cases hmissing : missing = []
  · subst hmissing
    rw [List.append_nil] at heq
    exact .inr ⟨item, rest, hitem, hsafe, heq, hwhole rfl⟩
  · rw [hrest.resolve_left (mt List.eq_nil_of_length_eq_zero hmissing), List.append_nil] at heq
    exact .inl ⟨item, missing, hitem, hsafe, hmissing, hshort, heq⟩

/-- The decoder is exact on a buffer unless the buffer ends within the last string of its item, or begins with an item
that has a text which is not UTF-8. -/
theorem decodeCbor_exact_iff (buffer : Bytes) : Exact buffer ↔ ¬CutInString buffer ∧
    ∀ item rest, item.WellFormed → Safe item → buffer = spell item ++ rest → TextsValid item := by
  constructor
  · intro hexact
    constructor
    · intro hcut
      obtain ⟨value, hvalue⟩ := decodeCbor_cut hcut
      obtain ⟨other, rest, hother, -, rfl, -⟩ := hexact.accepts value hvalue
      obtain ⟨item, missing, hitem, hsafe, hmissing, htail, hspell⟩ := hcut
      rw [List.append_assoc, ← List.append_nil (spell item)] at hspell
      exact hmissing (List.append_eq_nil_iff.mp (Item.spell_inj hother hitem hspell).2).2
    · rintro item rest hitem hsafe rfl
      obtain ⟨other, rest', hother, htexts, hspell, -⟩ := hexact.accepts _ (decodeCbor_spell hitem hsafe rest)
      rwa [(Item.spell_inj hitem hother hspell).1]
  · rintro ⟨hcut, htexts⟩
    refine ⟨fun value hvalue ↦ ?_, ?_, fun depth hdepth ↦ ends_decodeCborAt depth (by rwa [Nat.zero_add])⟩
    · obtain ⟨item, rest, hitem, hsafe, hspell, hvalue⟩ := (decodeCbor_backed hvalue).resolve_left hcut
      exact ⟨item, rest, hitem, htexts item rest hitem hsafe hspell, hspell, hvalue⟩
    · rintro item rest hitem - hsafe rfl
      exact decodeCbor_spell hitem hsafe rest

/-- A byte string of two bytes of which one is there is taken for one of one byte. -/
theorem cut_is_accepted : ¬∀ buffer, Exact buffer := by
  intro h
  obtain ⟨item, rest, hitem, -, hspell, -⟩ := (h [0x42, 0x01]).accepts (.buffer [0x01]) rfl
  have hdeclared : Item.WellFormed (.string false .inline [0x01, 0x00]) := show 2 < 24 by decide
  have hwhole : spell (.string false .inline [0x01, 0x00]) ++ [] = spell item ++ (rest ++ [0x00]) := by
    rw [← List.append_assoc, ← hspell]
    rfl
  obtain ⟨-, hmissing⟩ := Item.spell_inj hdeclared hitem hwhole
  exact absurd hmissing.symm (List.append_ne_nil_of_right_ne_nil rest (List.cons_ne_nil _ _))

end

end Noesar.Webauthn
