import Noesar.Canonical.Encoding
import Noesar.Lib.JsonDistinct

namespace Noesar.Canonical

open Lib Lib.Utf16 Lib.Framing Lib.Json Lib.Decimal

/-- A number of the crate's values: an integer of 64 bits, or a float by its text. -/
inductive SerdeNumber
  | integer (z : ℤ)
  | float (text : List Char)
  deriving DecidableEq

def SerdeNumber.text : SerdeNumber → List Char
  | integer z => (toString z).toList
  | float text => text

/-- An integer that a number of the language holds exactly. -/
structure JsInteger where
  val : ℤ
  exact : round53 val = val
  bounded : |val| < 2 ^ 1024

/-- The floats of the library that the crate reads values with: the text of what a numeral is
read as, which has a point or an exponent and never a plus sign. -/
structure Serde where
  float : List Char → Option (List Char)
  shaped : ∀ cs text, float cs = some text → Numeric text ∧ ('.' ∈ text ∨ 'e' ∈ text) ∧ '+' ∉ text
  reads : ∀ z : JsInteger, (float (integerText z.val)).isSome

def readDigits (cs : List Char) : Option ℕ :=
  if cs ≠ [] ∧ cs.all Char.isDigit ∧ (cs.head? = some '0' → cs = ['0']) then some (Nat.ofDigitChars 10 cs 0) else none

def Serde.number (serde : Serde) : List Char → Option SerdeNumber
  | '-' :: cs => match readDigits cs with
    | some n => if n = 0 ∨ 2 ^ 63 < n then (serde.float ('-' :: cs)).map .float else some (.integer (-n))
    | none => (serde.float ('-' :: cs)).map .float
  | cs => match readDigits cs with
    | some n => if n < 2 ^ 64 then some (.integer n) else (serde.float cs).map .float
    | none => (serde.float cs).map .float

def Serde.reader (serde : Serde) : Reader String SerdeNumber :=
  ⟨fun us ↦ (decode us).map String.ofList, serde.number, some 127⟩

def serdeQuote (s : String) : List Char := '"' :: s.toList.flatMap escape ++ ['"']

def byteRank (s : String) : List ℕ := (utf8 s).map UInt8.toNat

def writeValue : Json String SerdeNumber → List Char :=
  fold ⟨"null".toList, fun b ↦ (if b then "true" else "false").toList, SerdeNumber.text, serdeQuote,
    fun items ↦ '[' :: joined items ++ [']'],
    fun members ↦ '{' :: joined ((sortKeys byteRank members).map fun m ↦ serdeQuote m.1 ++ ':' :: m.2) ++ ['}']⟩

def toVec (v : Json String SerdeNumber) : Bytes := utf8 (String.ofList (writeValue v))

def canonicalJsonBytes (ns : Numbers) (v : JsValue) : Except String Bytes :=
  (canonicalJson ns v).map fun text ↦ utf8 (String.ofList text)

def JsInteger.leaf (z : JsInteger) : Leaf := .finite (.ofRat z.val)

def js (v : Json String JsInteger) : JsValue := v.map (fun s ↦ encode s.toList) JsInteger.leaf

/-- `JSON.stringify` -/
def jsonText (ns : Numbers) (v : Json String JsInteger) : List Char := print (writer ns) (js v)

section

variable {σ τ ν μ ξ : Type}

theorem print_norm_map {rank : τ → List ℕ} {f : σ → τ} {h : ν → μ} {g : μ → ξ} {k : ν → List Char}
    {w : Json.Writer τ ξ} {u : Json.Writer σ (List Char)} (hstring : ∀ s, w.string (f s) = u.string s)
    (hnumber : ∀ n, w.number (g (h n)) = u.number (k n)) (v : Json σ ν) :
    print w (norm rank g (v.map f h)) = print u (norm (fun s ↦ rank (f s)) k v) := by
  induction v with
  | null => rfl
  | bool => rfl
  | number n => exact hnumber n
  | string s => exact congrArg quote (hstring s)
  | array items ih =>
    rw [map_array, norm_array, norm_array, print_array, print_array, List.map_map, List.map_map, List.map_map]
    congr 3
    exact List.map_congr_left ih
  | object members ih =>
    have hsort : sortKeys rank (members.map fun m ↦ (f m.1, norm rank g (m.2.map f h))) =
        (sortKeys (fun s ↦ rank (f s)) members).map fun m ↦ (f m.1, norm rank g (m.2.map f h)) := by
      have hmap := List.map_insertionSort (fun a b : σ × Json σ ν ↦ rank (f a.1) ≤ rank (f b.1))
        (fun a b : τ × Json τ ξ ↦ rank a.1 ≤ rank b.1) (fun m ↦ (f m.1, norm rank g (m.2.map f h))) members
        fun _ _ _ _ ↦ Iff.rfl
      exact hmap.symm
    rw [map_object, norm_object, norm_object, print_object, print_object, List.map_map]
    change '{' :: (joined ((sortKeys rank (members.map fun m ↦ (f m.1, norm rank g (m.2.map f h)))).map _) ++ _) = _
    rw [hsort, sortKeys_map, List.map_map, List.map_map]
    congr 3
    apply List.map_congr_left
    intro m hm
    have hm := (sortKeys_perm members).mem_iff.mp hm
    simp only [Function.comp_apply, hstring, ih m hm]

end

def rawWriter : Json.Writer String (List Char) := ⟨fun s ↦ encode s.toList, id⟩

def rawReader : Reader String (List Char) := ⟨fun us ↦ (decode us).map String.ofList, some, none⟩

theorem read_encode (s : String) : (decode (encode s.toList)).map String.ofList = some s := by
  rw [decode_encode, Option.map_some, String.ofList_toList]

theorem understands_raw : Understands rawWriter rawReader id id Numeric where
  string := read_encode
  number _ _ := rfl
  numeral _ h := h

def keyRank (s : String) : List ℕ := unitRank (encode s.toList)

theorem keyRank_injective : Function.Injective keyRank := by
  intro s t h
  exact String.toList_inj.mp (encode_injective (unitRank_injective h))

theorem byteRank_injective : Function.Injective byteRank := by
  intro s t h
  exact utf8_injective (List.map_injective_iff.mpr (fun _ _ ↦ UInt8.toNat_inj.mp) h)

theorem serdeQuote_eq (s : String) : serdeQuote s = quote (encode s.toList) := by
  rw [serdeQuote, quote, points_encode, List.flatMap_map]
  rfl

theorem writeValue_eq (v : Json String SerdeNumber) :
    writeValue v = print ⟨fun s ↦ encode s.toList, SerdeNumber.text⟩ (norm byteRank id v) := by
  induction v with
  | null => rfl
  | bool => rfl
  | number => rfl
  | string s => exact serdeQuote_eq s
  | array items ih =>
    rw [norm_array, print_array, List.map_map, writeValue, fold_array]
    change '[' :: joined (items.map writeValue) ++ [']'] = _
    rw [List.map_congr_left ih]
    rfl
  | object members ih =>
    rw [norm_object, print_object, writeValue, fold_object]
    change '{' :: joined ((sortKeys byteRank (members.map fun m ↦ (m.1, writeValue m.2))).map _) ++ ['}'] = _
    rw [sortKeys_map, sortKeys_map, List.map_map, List.map_map, List.cons_append]
    congr 3
    apply List.map_congr_left
    intro m hm
    have hm := (sortKeys_perm members).mem_iff.mp hm
    simp only [Function.comp_apply, serdeQuote_eq, ih m hm]

section

variable (fraction : Binary64 → List Char) (read : List Char → Option Leaf) (serde : Serde)

theorem stringify_integer (z : JsInteger) : (platform fraction read).stringify (.ofRat z.val) = integerText z.val := by
  have hval : (Binary64.ofRat z.val).val = z.val := z.exact
  change (if (Binary64.ofRat z.val).val.den = 1 then integerText (Binary64.ofRat z.val).val.num else _) = _
  rw [hval, Rat.den_intCast, if_pos rfl, Rat.num_intCast]

theorem map_eachNumber {σ τ ν μ : Type} {f : σ → τ} {h : ν → μ} {P : μ → Prop} (hP : ∀ n, P (h n)) (v : Json σ ν) :
    (v.map f h).EachNumber P := by
  induction v with
  | null => trivial
  | bool => trivial
  | number n => exact hP n
  | string => trivial
  | array items ih =>
    rw [map_array, eachNumber_array, List.forall_mem_map]
    exact ih
  | object members ih =>
    rw [map_object, eachNumber_object, List.forall_mem_map]
    exact ih

theorem canonicalJson_js (v : Json String JsInteger) : canonicalJson (platform fraction read) (js v) =
    .ok (print rawWriter (norm keyRank (fun z ↦ integerText z.val) v)) := by
  rw [js, canonicalJson_eq _ (map_eachNumber (fun _ ↦ trivial) v)]
  congr 1
  apply print_norm_map
  · intro s
    rfl
  · exact stringify_integer fraction read

theorem writeValue_map (h : JsInteger → SerdeNumber) (v : Json String JsInteger) :
    writeValue (v.map id h) = print rawWriter (norm byteRank (fun z ↦ (h z).text) v) := by
  rw [writeValue_eq]
  apply print_norm_map
  · intro s
    rfl
  · intro n
    rfl

def Serde.ofInteger (z : JsInteger) : SerdeNumber := (serde.number (integerText z.val)).getD (.integer 0)

theorem readDigits_toDigits (n : ℕ) : readDigits (Nat.toDigits 10 n) = some n := by
  have hzero : (Nat.toDigits 10 n).head? = some '0' → Nat.toDigits 10 n = ['0'] := by
    rcases Nat.eq_zero_or_pos n with rfl | hpos
    · intro _
      rfl
    · intro h
      exact absurd h (head_toDigits hpos)
  rw [readDigits, if_pos ⟨Nat.toDigits_ne_nil, List.all_eq_true.mpr fun c hc ↦ isDigit_of_mem hc, hzero⟩,
    Nat.ofDigitChars_ten_toDigits]

theorem readDigits_none {cs : List Char} {c : Char} (hc : c ∈ cs) (h : c.isDigit = false) : readDigits cs = none := by
  rw [readDigits, if_neg]
  rintro ⟨-, hall, -⟩
  rw [List.all_eq_true.mp hall c hc] at h
  cases h

theorem float_ne {cs text : List Char} (h : serde.float cs = some text) (n : ℕ) : text ≠ magnitudeText n := by
  obtain ⟨-, hmark, hplus⟩ := serde.shaped cs text h
  rintro rfl
  rw [magnitudeText] at hmark hplus
  split at hplus
  next hlt =>
    rw [if_pos hlt] at hmark
    rcases hmark with hmark | hmark
    · cases isDigit_of_mem hmark
    · cases isDigit_of_mem hmark
  next hge => exact hplus (plus_mem_scientific (by omega))

theorem float_ne_neg {cs text : List Char} (h : serde.float cs = some text) (n : ℕ) : text ≠ '-' :: magnitudeText n := by
  obtain ⟨-, hmark, hplus⟩ := serde.shaped cs text h
  rintro rfl
  rw [magnitudeText] at hmark hplus
  split at hplus
  next hlt =>
    rw [if_pos hlt] at hmark
    rcases hmark with hmark | hmark
    · rcases List.mem_cons.mp hmark with hmark | hmark
      · cases hmark
      · cases isDigit_of_mem hmark
    · rcases List.mem_cons.mp hmark with hmark | hmark
      · cases hmark
      · cases isDigit_of_mem hmark
  next hge => exact hplus (List.mem_cons_of_mem _ (plus_mem_scientific (by omega)))

theorem magnitudeText_ne_neg (n : ℕ) (cs : List Char) : magnitudeText n ≠ '-' :: cs := by
  intro h
  rw [magnitudeText] at h
  split at h
  · have hmem : '-' ∈ Nat.toDigits 10 (shortest n) := by simp [h]
    cases isDigit_of_mem hmem
  next hge =>
    obtain ⟨d, ds, hleading, htext⟩ := scientific_eq (n := shortest n) (by omega)
    rw [htext, List.cons.injEq] at h
    have hmem : '-' ∈ leading (shortest n) := by simp [hleading, h.1]
    cases mem_leading hmem

theorem readDigits_magnitudeText (n : ℕ) :
    readDigits (magnitudeText n) = if shortest n < 10 ^ 21 then some (shortest n) else none := by
  rw [magnitudeText]
  split
  · exact readDigits_toDigits _
  next hge => exact readDigits_none (plus_mem_scientific (by omega)) rfl

theorem number_magnitudeText {n : ℕ} (hexact : round53 n = n) : serde.number (magnitudeText n) =
    if n < 2 ^ 64 then some (.integer (shortest n)) else (serde.float (magnitudeText n)).map .float := by
  have hlimit := shortest_lt_u64 hexact
  unfold Serde.number
  split
  next cs hcs => exact absurd hcs (magnitudeText_ne_neg n cs)
  next =>
    rw [readDigits_magnitudeText]
    by_cases hlt : n < 2 ^ 64
    · rw [if_pos (show shortest n < 10 ^ 21 by omega), if_pos hlt]
      dsimp only
      rw [if_pos (hlimit.mpr hlt)]
    · rw [if_neg hlt]
      split
      next r hr =>
        split at hr
        · cases hr
          rw [if_neg (fun h ↦ hlt (hlimit.mp h))]
        · cases hr
      · rfl

theorem number_neg_magnitudeText {n : ℕ} (hexact : round53 n = n) (hpos : 0 < n) : serde.number ('-' :: magnitudeText n) =
    if n < 2 ^ 63 then some (.integer (-shortest n)) else (serde.float ('-' :: magnitudeText n)).map .float := by
  have hlimit := shortest_le_i64 hexact
  have hnonzero : shortest n ≠ 0 := by
    intro hzero
    have hround := shortest_rounds hexact
    rw [hzero, Nat.cast_zero, show round53 0 = 0 by simp [round53, roundHalfEven]] at hround
    have : n = 0 := by exact_mod_cast hround.symm
    omega
  rw [Serde.number, readDigits_magnitudeText]
  by_cases hlt : n < 2 ^ 63
  · have hle := hlimit.mpr hlt
    rw [if_pos (show shortest n < 10 ^ 21 by omega), if_pos hlt]
    dsimp only
    rw [if_neg (by omega)]
  · have hgt : 2 ^ 63 < shortest n := not_le.mp fun h ↦ hlt (hlimit.mp h)
    rw [if_neg hlt]
    split
    next r hr =>
      split at hr
      · cases hr
        rw [if_pos (.inr hgt)]
      · cases hr
    · rfl

theorem JsInteger.exact_natAbs (z : JsInteger) : round53 z.val.natAbs = z.val.natAbs := by
  rcases Int.natAbs_eq z.val with h | h
  · have hcast : ((z.val.natAbs : ℤ) : ℚ) = z.val := by rw [← h]
    rw [Int.cast_natCast] at hcast
    rw [hcast]
    exact z.exact
  · have hcast : (z.val.natAbs : ℚ) = -z.val := by
      rw [← Int.cast_natCast, ← Int.cast_neg]
      congr 1
      omega
    rw [hcast]
    exact round53_neg z.exact

theorem ofInteger_text_iff (z : JsInteger) :
    (serde.ofInteger z).text = integerText z.val ↔ -2 ^ 63 < z.val ∧ z.val < 2 ^ 64 := by
  have hexact := z.exact_natAbs
  have hreads := serde.reads z
  rw [Serde.ofInteger]
  rw [integerText] at hreads ⊢
  split
  next hneg =>
    rw [if_pos hneg] at hreads
    obtain ⟨text, htext⟩ := Option.isSome_iff_exists.mp hreads
    rw [number_neg_magnitudeText serde hexact (by omega)]
    split
    next hlt =>
      have hshort := shortest_lt hexact hlt
      have hpos : 0 < shortest z.val.natAbs := by
        rcases Nat.eq_zero_or_pos (shortest z.val.natAbs) with hzero | hpos
        · have hround := shortest_rounds hexact
          rw [hzero, Nat.cast_zero, show round53 0 = 0 by simp [round53, roundHalfEven]] at hround
          have : z.val.natAbs = 0 := by exact_mod_cast hround.symm
          omega
        · exact hpos
      rw [Option.getD_some, SerdeNumber.text, toString_neg hpos, magnitudeText, if_pos (by omega)]
      simp only [true_iff]
      omega
    next hge =>
      rw [htext, Option.map_some, Option.getD_some, SerdeNumber.text]
      constructor
      · intro h
        exact absurd h (float_ne_neg serde htext _)
      · omega
  next hneg =>
    rw [if_neg hneg] at hreads
    obtain ⟨text, htext⟩ := Option.isSome_iff_exists.mp hreads
    rw [number_magnitudeText serde hexact]
    split
    next hlt =>
      have hshort := shortest_lt hexact hlt
      rw [Option.getD_some, SerdeNumber.text, toString_natCast, magnitudeText, if_pos (by omega)]
      simp only [true_iff]
      omega
    next hge =>
      rw [htext, Option.map_some, Option.getD_some, SerdeNumber.text]
      constructor
      · intro h
        exact absurd h (float_ne serde htext _)
      · omega

def textWriter : Json.Writer String JsInteger := ⟨fun s ↦ encode s.toList, fun z ↦ integerText z.val⟩

theorem number_integerText (z : JsInteger) : serde.number (integerText z.val) = some (serde.ofInteger z) := by
  have hsome : (serde.number (integerText z.val)).isSome := by
    have hreads := serde.reads z
    rw [integerText] at hreads ⊢
    split
    next hneg =>
      rw [if_pos hneg] at hreads
      rw [number_neg_magnitudeText serde z.exact_natAbs (by omega)]
      split
      · rfl
      · rw [Option.isSome_map]
        exact hreads
    next hneg =>
      rw [if_neg hneg] at hreads
      rw [number_magnitudeText serde z.exact_natAbs]
      split
      · rfl
      · rw [Option.isSome_map]
        exact hreads
  obtain ⟨n, hn⟩ := Option.isSome_iff_exists.mp hsome
  rw [Serde.ofInteger, hn, Option.getD_some]

theorem understands_serde : Understands textWriter serde.reader id serde.ofInteger fun _ ↦ True where
  string := read_encode
  number z _ := number_integerText serde z
  numeral z _ := numeric_integerText z.val

theorem jsonText_eq (v : Json String JsInteger) : jsonText (platform fraction read) v = print textWriter v := by
  apply print_map
  · intro s
    rfl
  · exact stringify_integer fraction read

/-- The control plane's bytes of a value are the crate's of what the crate reads from its text. -/
def Agrees (v : Json String JsInteger) : Prop :=
  ∃ u, parse serde.reader (jsonText (platform fraction read) v) = some u ∧
    canonicalJsonBytes (platform fraction read) (js v) = .ok (toVec u)

/-- The numbers have 64 bits, the keys are in one order whether by code units or by bytes, and
the nesting is one that the crate reads. -/
structure Interoperable (v : Json String JsInteger) : Prop where
  numbers : v.EachNumber fun z ↦ -2 ^ 63 < z.val ∧ z.val < 2 ^ 64
  keys : v.Ordered keyRank byteRank
  shallow : v.depth ≤ 127

variable {fraction read serde} {v : Json String JsInteger}

theorem parse_jsonText (hv : v.Distinct) (hdepth : v.depth ≤ 127) :
    parse serde.reader (jsonText (platform fraction read) v) = some (v.map id serde.ofInteger) := by
  rw [jsonText_eq]
  apply parse_print (understands_serde serde) v (distinct_map hv _) (eachNumber_of_forall (fun _ ↦ trivial) v)
  intro limit hlimit
  cases hlimit
  exact hdepth

theorem parse_raw {rank : String → List ℕ} {k : JsInteger → List Char} (hk : ∀ z, Numeric (k z)) (hv : v.Distinct) :
    parse rawReader (print rawWriter (norm rank k v)) = some (norm rank k v) := by
  have hdistinct : ((norm rank k v).map id id).Distinct := by
    rw [map_id]
    exact norm_distinct hv
  have hnumbers : (norm rank k v).EachNumber Numeric :=
    norm_eachNumber (P := fun _ ↦ True) (fun z _ ↦ hk z) (eachNumber_of_forall (fun _ ↦ trivial) v)
  rw [parse_print understands_raw _ hdistinct hnumbers (fun _ h ↦ by cases h), map_id]

theorem float_of_number {cs text : List Char} (h : serde.number cs = some (.float text)) :
    ∃ cs, serde.float cs = some text := by
  have hmap {cs : List Char} (h : (serde.float cs).map SerdeNumber.float = some (.float text)) :
      ∃ cs, serde.float cs = some text := by
    obtain ⟨text', htext, heq⟩ := Option.map_eq_some_iff.mp h
    cases heq
    exact ⟨cs, htext⟩
  unfold Serde.number at h
  split at h
  · split at h
    · split at h
      · exact hmap h
      · cases h
    · exact hmap h
  · split at h
    · split at h
      · cases h
      · exact hmap h
    · exact hmap h

theorem numeric_text (z : JsInteger) : Numeric (serde.ofInteger z).text := by
  have hnumber := number_integerText serde z
  generalize serde.ofInteger z = n at hnumber
  cases n with
  | integer k => exact numeric_toString k
  | float text =>
    obtain ⟨cs, hcs⟩ := float_of_number hnumber
    exact (serde.shaped cs text hcs).1

theorem canonicalJsonBytes_eq (hv : v.Distinct) (hnumbers : v.EachNumber fun z ↦ -2 ^ 63 < z.val ∧ z.val < 2 ^ 64)
    (hkeys : v.Ordered keyRank byteRank) :
    canonicalJsonBytes (platform fraction read) (js v) = .ok (toVec (v.map id serde.ofInteger)) := by
  have hnorm : norm keyRank (fun z ↦ integerText z.val) v = norm byteRank (fun z ↦ (serde.ofInteger z).text) v :=
    (norm_eq_iff keyRank_injective byteRank_injective hv).mpr
      ⟨hkeys, hnumbers.imp fun z hz ↦ ((ofInteger_text_iff serde z).mpr hz).symm⟩
  rw [canonicalJsonBytes, canonicalJson_js, toVec, writeValue_map, hnorm]
  rfl

theorem agrees_iff (hv : v.Distinct) : Agrees fraction read serde v ↔ Interoperable v := by
  constructor
  · rintro ⟨u, hparse, hbytes⟩
    have hshallow : v.depth ≤ 127 := by
      by_contra hdeep
      rw [jsonText_eq, parse_too_deep (understands_serde serde) v (distinct_map hv _)
        (eachNumber_of_forall (fun _ ↦ trivial) v) rfl (by omega)] at hparse
      cases hparse
    rw [parse_jsonText hv hshallow] at hparse
    cases hparse
    rw [canonicalJsonBytes, canonicalJson_js, toVec, writeValue_map] at hbytes
    have htext := String.ofList_injective (utf8_injective (Except.ok.inj hbytes))
    have hread := congrArg (parse rawReader) htext
    rw [parse_raw (fun z ↦ numeric_integerText z.val) hv, parse_raw numeric_text hv] at hread
    obtain ⟨hkeys, hnumbers⟩ := (norm_eq_iff keyRank_injective byteRank_injective hv).mp (Option.some.inj hread)
    exact ⟨hnumbers.imp fun z hz ↦ (ofInteger_text_iff serde z).mp hz.symm, hkeys, hshallow⟩
  · rintro ⟨hnumbers, hkeys, hshallow⟩
    exact ⟨_, parse_jsonText hv hshallow, canonicalJsonBytes_eq hv hnumbers hkeys⟩

theorem ofInteger_small {z : JsInteger} (h : |z.val| < 2 ^ 53) : serde.ofInteger z = .integer z.val := by
  have hexact := z.exact_natAbs
  rw [Int.abs_eq_natAbs] at h
  have hlt : z.val.natAbs < 2 ^ 53 := by omega
  have hshort : shortest z.val.natAbs = z.val.natAbs := by
    have hround := shortest_rounds hexact
    rw [round53_natCast (shortest_lt hexact hlt).le] at hround
    exact_mod_cast hround
  rw [Serde.ofInteger, integerText]
  split
  next hneg =>
    rw [number_neg_magnitudeText serde hexact (by omega), if_pos (by omega), Option.getD_some, hshort]
    congr 1
    omega
  next hneg =>
    rw [number_magnitudeText serde hexact, if_pos (by omega), Option.getD_some, hshort]
    congr 1
    omega

end

end Noesar.Canonical
