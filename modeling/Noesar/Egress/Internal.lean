import Noesar.Egress.AddressGuard
import Noesar.Lib.Fallible

namespace Noesar.Egress

open Lib Lib.IpAddress

section Ranges

def number32 (a b c d : ℕ) : ℕ := ((a * 256 + b) * 256 + c) * 256 + d

/-- The blocks of dotted addresses that lie inside: "this network", private, loopback, shared, link-local (where the
metadata services are), private, protocol assignments, private, benchmarking, multicast, reserved. -/
def blocks : List (ℕ × ℕ) :=
  [(number32 0 0 0 0, 8), (number32 10 0 0 0, 8), (number32 127 0 0 0, 8), (number32 100 64 0 0, 10),
    (number32 169 254 0 0, 16), (number32 172 16 0 0, 12), (number32 192 0 0 0, 16), (number32 192 168 0 0, 16),
    (number32 198 18 0 0, 15), (number32 224 0 0 0, 4), (number32 240 0 0 0, 4)]

def Internal4 (o : UInt8 × UInt8 × UInt8 × UInt8) : Prop :=
  ∃ block ∈ blocks, number32 o.1.toNat o.2.1.toNat o.2.2.1.toNat o.2.2.2.toNat / 2 ^ (32 - block.2) =
    block.1 / 2 ^ (32 - block.2)

def InternalGroup (g : ℕ) : Prop := g / 2 ^ 9 = 0xfc00 / 2 ^ 9 ∨ g / 2 ^ 6 = 0xfe80 / 2 ^ 6 ∨ g / 2 ^ 8 = 0xff00 / 2 ^ 8

def mappedGroups (o : UInt8 × UInt8 × UInt8 × UInt8) : List UInt16 :=
  [0, 0, 0, 0, 0, 0xffff, group o.1 o.2.1, group o.2.2.1 o.2.2.2]

def unspecified : List UInt16 := [0, 0, 0, 0, 0, 0, 0, 0]

def loopback : List UInt16 := [0, 0, 0, 0, 0, 0, 0, 1]

def Internal : IpAddress → Prop
  | .v4 a b c d => Internal4 (a, b, c, d)
  | .v6 gs => gs.1 = unspecified ∨ gs.1 = loopback ∨ (∃ g ∈ gs.1.head?, InternalGroup g.toNat) ∨
      ∃ o, gs.1 = mappedGroups o ∧ Internal4 o

/-- A first group that reads like one of those when its leading zeros are left out, and unlike when they are not. -/
def Misread (g : ℕ) : Prop :=
  g = 0xfc ∨ g = 0xfd ∨ g = 0xff ∨ 0xfc0 ≤ g ∧ g ≤ 0xfdf ∨ 0xfe8 ≤ g ∧ g ≤ 0xfeb ∨ 0xff0 ≤ g ∧ g ≤ 0xfff

def Steady : IpAddress → Prop
  | .v4 _ _ _ _ => True
  | .v6 gs => gs.1 ≠ unspecified ∧ gs.1 ≠ loopback ∧ (∀ o, gs.1 = mappedGroups o → ¬Internal4 o) ∧
      ∀ g ∈ gs.1.head?, ¬Misread g.toNat

/-- What is asked of the guard for an address: all its texts are answered alike, and with a refusal where it lies
inside, so that no request connects to it there. -/
structure Recognised (a : IpAddress) : Prop where
  alike : ∀ t t', parse t = some a → parse t' = some a → isInternalAddress t = isInternalAddress t'
  refused : Internal a → ∀ t, parse t = some a → isInternalAddress t = true
  fetched : Internal a → ∀ lookup all hostname reached, guardedFetch lookup all hostname = .ok reached →
    ∀ t ∈ reached, parse t ≠ some a

theorem front {a b c d : ℕ} (hc : c < 256) (hd : d < 256) (k : ℕ) : number32 a b c d / (65536 * k) = (a * 256 + b) / k := by
  have hfront : number32 a b c d / 65536 = a * 256 + b := by
    unfold number32
    omega
  rw [← Nat.div_div_eq_div_mul, hfront]

theorem inBlock_iff {a b c d : ℕ} (hc : c < 256) (hd : d < 256) {bits : ℕ} (hbits : bits ≤ 16) (a' b' : ℕ) :
    number32 a b c d / 2 ^ (32 - bits) = number32 a' b' 0 0 / 2 ^ (32 - bits) ↔
      (a * 256 + b) / 2 ^ (16 - bits) = (a' * 256 + b') / 2 ^ (16 - bits) := by
  have hpow : 2 ^ (32 - bits) = 65536 * 2 ^ (16 - bits) := by
    rw [show 32 - bits = 16 + (16 - bits) by omega, pow_add]
    rfl
  rw [hpow, front hc hd, front (by omega) (by omega)]

theorem internal4_iff (o : UInt8 × UInt8 × UInt8 × UInt8) : Internal4 o ↔ internalParts o.1.toNat o.2.1.toNat = true := by
  obtain ⟨a, b, c, d⟩ := o
  have ha := a.toNat_lt
  have hb := b.toNat_lt
  have hblock {bits : ℕ} (hbits : bits ≤ 16) := inBlock_iff c.toNat_lt d.toNat_lt hbits (a := a.toNat) (b := b.toNat)
  unfold Internal4 blocks internalParts
  dsimp only
  generalize c.toNat = c at *
  generalize d.toNat = d at *
  generalize a.toNat = a at *
  generalize b.toNat = b at *
  simp only [List.exists_mem_cons_iff, List.not_mem_nil, false_and, exists_false, or_false]
  rw [hblock (by decide), hblock (by decide), hblock (by decide), hblock (by decide), hblock (by decide),
    hblock (by decide), hblock (by decide), hblock (by decide), hblock (by decide), hblock (by decide),
    hblock (by decide)]
  have hzero : (a * 256 + b) / 2 ^ (16 - 8) = (0 * 256 + 0) / 2 ^ (16 - 8) ↔ a = 0 := by omega
  have hten : (a * 256 + b) / 2 ^ (16 - 8) = (10 * 256 + 0) / 2 ^ (16 - 8) ↔ a = 10 := by omega
  have hshared : (a * 256 + b) / 2 ^ (16 - 10) = (100 * 256 + 64) / 2 ^ (16 - 10) ↔ (a = 100 ∧ 64 ≤ b) ∧ b ≤ 127 := by omega
  have hloopback : (a * 256 + b) / 2 ^ (16 - 8) = (127 * 256 + 0) / 2 ^ (16 - 8) ↔ a = 127 := by omega
  have hlink : (a * 256 + b) / 2 ^ (16 - 16) = (169 * 256 + 254) / 2 ^ (16 - 16) ↔ a = 169 ∧ b = 254 := by omega
  have hprivate : (a * 256 + b) / 2 ^ (16 - 12) = (172 * 256 + 16) / 2 ^ (16 - 12) ↔ (a = 172 ∧ 16 ≤ b) ∧ b ≤ 31 := by omega
  have hprotocol : (a * 256 + b) / 2 ^ (16 - 16) = (192 * 256 + 0) / 2 ^ (16 - 16) ↔ a = 192 ∧ b = 0 := by omega
  have hhome : (a * 256 + b) / 2 ^ (16 - 16) = (192 * 256 + 168) / 2 ^ (16 - 16) ↔ a = 192 ∧ b = 168 := by omega
  have hbench : (a * 256 + b) / 2 ^ (16 - 15) = (198 * 256 + 18) / 2 ^ (16 - 15) ↔ a = 198 ∧ (b = 18 ∨ b = 19) := by omega
  have hhigh : (a * 256 + b) / 2 ^ (16 - 4) = (224 * 256 + 0) / 2 ^ (16 - 4) ∨
      (a * 256 + b) / 2 ^ (16 - 4) = (240 * 256 + 0) / 2 ^ (16 - 4) ↔ 224 ≤ a := by omega
  rw [hzero, hten, hloopback, hshared, hlink, hprivate, hprotocol, hhome, hbench, hhigh]
  simp only [Bool.or_eq_true, Bool.and_eq_true, decide_eq_true_eq, or_assoc]

end Ranges

section Normal

variable {t : List Char}

theorem not_whiteSpace {c : Char} (h : plain c = true) : Capability.isWhiteSpace c = false := by
  have hrange : c.toNat ∉ [0x9, 0xA, 0xB, 0xC, 0xD, 0x20, 0xA0] ∧ c.toNat < 0x1680 := by
    simp only [plain, Bool.or_eq_true, inZone_iff, decide_eq_true_eq, isAlphanum_iff] at h
    rcases h with (h | rfl | rfl | rfl) | rfl
    · simp only [List.mem_cons, List.not_mem_nil, or_false]
      omega
    all_goals decide
  obtain ⟨hnot, hlt⟩ := hrange
  rw [Capability.isWhiteSpace, Bool.or_eq_false_iff]
  constructor
  · rw [decide_eq_false_iff_not]
    intro hmem
    have hvalue : c.toNat ∈ [0x9, 0xA, 0xB, 0xC, 0xD, 0x20, 0xA0, 0x1680, 0x2028, 0x2029, 0x202F, 0x205F, 0x3000, 0xFEFF] :=
      List.mem_map_of_mem hmem
    simp only [List.mem_cons, List.not_mem_nil, or_false] at hnot hvalue
    omega
  · rw [Bool.and_eq_false_iff]
    left
    rw [decide_eq_false_iff_not, UInt32.le_iff_toNat_le]
    exact fun h ↦ absurd (Nat.lt_of_lt_of_le hlt (Nat.le_trans (by decide) h)) (lt_irrefl _)

theorem dropWhile_eq_self {p : Char → Bool} (h : ∀ c ∈ t, p c = false) : t.dropWhile p = t := by
  cases t with
  | nil => rfl
  | cons c => rw [List.dropWhile_cons_of_neg (by rw [h c List.mem_cons_self]; exact Bool.false_ne_true)]

theorem normalise_of_parse {a : IpAddress} (h : parse t = some a) : normalise t = t.map Char.toLower := by
  have hplain := plain_of_parse h
  have htrim : Updates.trim t = t := by
    rw [Updates.trim, dropWhile_eq_self fun c hc ↦ not_whiteSpace (hplain c hc),
      dropWhile_eq_self fun c hc ↦ not_whiteSpace (hplain c (List.mem_reverse.mp hc)), List.reverse_reverse]
  rw [normalise, htrim]
  refine List.map_congr_left fun c hc ↦ if_neg ?_
  rintro rfl
  exact absurd (hplain _ hc) (by decide)

theorem parse_normalise {a : IpAddress} (h : parse t = some a) : parse (normalise t) = some a := by
  rw [normalise_of_parse h, parse_toLower, h]

variable {a b c d : UInt8}

theorem isIP_v4 (h : parse t = some (.v4 a b c d)) : isIP t = 4 := by
  rw [isIP, h]

theorem isIP_v6 {gs : {gs : List UInt16 // gs.length = 8}} (h : parse t = some (.v6 gs)) : isIP t = 6 := by
  rw [isIP, h]

theorem octets_of_parse (h : parse t = some (.v4 a b c d)) : octets t = some (a, b, c, d) := by
  unfold parse at h
  cases ho : octets t with
  | some =>
    rw [ho] at h
    cases h
    rfl
  | none =>
    rw [ho] at h
    obtain ⟨gs, -, hgs⟩ := Option.map_eq_some_iff.mp (show (hextets t).map v6 = some _ from h)
    cases hgs

theorem hextets_of_parse {gs : {gs : List UInt16 // gs.length = 8}} (h : parse t = some (.v6 gs)) : hextets t = some gs := by
  unfold parse at h
  cases ho : octets t with
  | some =>
    rw [ho] at h
    cases h
  | none =>
    rw [ho] at h
    obtain ⟨gs', hgs', heq⟩ := Option.map_eq_some_iff.mp (show (hextets t).map v6 = some _ from h)
    cases heq
    exact hgs'

theorem number_of_octet {part : List Char} (h : octet part = some a) : number part = some a.toNat := by
  unfold octet at h
  split at h
  next hpart =>
    dsimp only at h
    split at h
    next hlt =>
      cases h
      rw [number, if_pos hpart.2.2.1, UInt8.toNat_ofNat_of_lt' hlt]
    next => cases h
  next => cases h

theorem numbers_of_octets {o : UInt8 × UInt8 × UInt8 × UInt8} (h : octets t = some o) :
    (t.splitOn '.').mapM number = some [o.1.toNat, o.2.1.toNat, o.2.2.1.toNat, o.2.2.2.toNat] := by
  obtain ⟨a, b, c, d, hsplit, ha, hb, hc, hd⟩ := octets_some h
  rw [hsplit]
  simp only [List.mapM_cons, List.mapM_nil, number_of_octet ha, number_of_octet hb, number_of_octet hc, number_of_octet hd]
  rfl

theorem isInternalAddress_v4 (h : parse t = some (.v4 a b c d)) :
    isInternalAddress t = internalParts a.toNat b.toNat := by
  have hnormal := parse_normalise h
  rw [isInternalAddress]
  rw [isIP_v4 hnormal, if_neg (by decide)]
  by_cases hmeta : normalise t ∈ metadataAddresses
  · rw [if_pos hmeta]
    simp only [metadataAddresses, List.mem_cons, List.not_mem_nil, or_false] at hmeta
    rcases hmeta with heq | heq | heq <;> rw [heq] at hnormal
    · have hread : parse "169.254.169.254".toList = some (.v4 169 254 169 254) := by decide
      rw [hread] at hnormal
      cases hnormal
      decide
    · have hread : parse "100.100.100.200".toList = some (.v4 100 100 100 200) := by decide
      rw [hread] at hnormal
      cases hnormal
      decide
    · have hread : parse "fd00:ec2::254".toList = some (.v6 ⟨[0xfd00, 0xec2, 0, 0, 0, 0, 0, 0x254], rfl⟩) := by decide
      rw [hread] at hnormal
      cases hnormal
  · rw [if_neg hmeta, if_pos rfl, numbers_of_octets (octets_of_parse hnormal)]

theorem isInternalAddress_v6 {gs : {gs : List UInt16 // gs.length = 8}} (h : parse t = some (.v6 gs)) :
    isInternalAddress t = true ↔ t.map Char.toLower ∈ metadataAddresses ∨
      (∃ inner, mapped (t.map Char.toLower) = some inner ∧ isInternalAddress inner = true) ∨
      mapped (t.map Char.toLower) = none ∧ (t.map Char.toLower = "::".toList ∨ t.map Char.toLower = "::1".toList ∨
        uniqueLocal (t.map Char.toLower) = true ∨ linkLocal (t.map Char.toLower) = true ∨
        multicast (t.map Char.toLower) = true) := by
  have hnormal := parse_normalise h
  rw [isInternalAddress, isIP_v6 hnormal, if_neg (by decide)]
  rw [normalise_of_parse h] at hnormal ⊢
  generalize t.map Char.toLower = u at hnormal ⊢
  by_cases hmeta : u ∈ metadataAddresses
  · rw [if_pos hmeta]
    exact iff_of_true rfl (.inl hmeta)
  · rw [if_neg hmeta, if_neg (by decide), or_iff_right hmeta]
    split
    next inner hinner => simp [hinner]
    next hnone => simp [hnone, or_assoc]

end Normal

section Starts

theorem uniqueLocal_cons (a b : Char) (rest : List Char) :
    uniqueLocal (a :: b :: rest) = true ↔ a = 'f' ∧ (b = 'c' ∨ b = 'd') := by
  unfold uniqueLocal
  split
  next c tail heq =>
    cases heq
    simp
  next hno =>
    refine iff_of_false Bool.false_ne_true ?_
    rintro ⟨rfl, -⟩
    exact hno b rest rfl

theorem linkLocal_cons (a b : Char) (rest : List Char) : linkLocal (a :: b :: rest) = true ↔
    a = 'f' ∧ b = 'e' ∧ ∃ c ∈ rest.head?, c = '8' ∨ c = '9' ∨ c = 'a' ∨ c = 'b' := by
  unfold linkLocal
  split
  next c tail heq =>
    cases heq
    simp
  next hno =>
    refine iff_of_false Bool.false_ne_true ?_
    rintro ⟨rfl, rfl, c, hc, -⟩
    obtain ⟨tail, rfl⟩ := List.head?_eq_some_iff.mp hc
    exact hno c tail rfl

theorem multicast_cons (a b : Char) (rest : List Char) : multicast (a :: b :: rest) = true ↔ a = 'f' ∧ b = 'f' := by
  unfold multicast
  split
  next tail heq =>
    cases heq
    exact iff_of_true rfl ⟨rfl, rfl⟩
  next hno =>
    refine iff_of_false Bool.false_ne_true ?_
    rintro ⟨rfl, rfl⟩
    exact hno rest rfl

/-- The start of an address of unique-local, link-local or multicast use, as it is looked for. -/
def InternalStart (u : List Char) : Prop := uniqueLocal u = true ∨ linkLocal u = true ∨ multicast u = true

theorem digit_char {c : Char} {d : ℕ} (hlower : c.toLower = c) (h : IpAddress.digitValue c = some d) :
    d < 16 ∧ c.toNat = if d < 10 then d + 48 else d + 87 := by
  have hcase := congrArg Char.toNat hlower
  rw [toNat_toLower] at hcase
  rw [digitValue_eq] at h
  split_ifs at h hcase ⊢ <;> simp only [Option.some.injEq] at h <;> omega

theorem char_eq_iff {c : Char} (x : Char) : c = x ↔ c.toNat = x.toNat := Char.toNat_inj.symm

theorem group_value {g : UInt16} {n : ℕ} (h : UInt16.ofNat n = g) (hlt : n < 65536) : g.toNat = n := by
  rw [← h, UInt16.toNat_ofNat_of_lt' hlt]

theorem internalStart_cons (a b : Char) (rest : List Char) : InternalStart (a :: b :: rest) ↔
    a.toNat = 102 ∧ (b.toNat = 99 ∨ b.toNat = 100 ∨ b.toNat = 102 ∨
      b.toNat = 101 ∧ ∃ c ∈ rest.head?, c.toNat = 56 ∨ c.toNat = 57 ∨ c.toNat = 97 ∨ c.toNat = 98) := by
  rw [InternalStart, uniqueLocal_cons, linkLocal_cons, multicast_cons]
  simp only [char_eq_iff, Char.reduceToNat]
  constructor
  · rintro (⟨ha, hb | hb⟩ | ⟨ha, hb, hc⟩ | ⟨ha, hb⟩)
    · exact ⟨ha, .inl hb⟩
    · exact ⟨ha, .inr (.inl hb)⟩
    · exact ⟨ha, .inr (.inr (.inr ⟨hb, hc⟩))⟩
    · exact ⟨ha, .inr (.inr (.inl hb))⟩
  · rintro ⟨ha, hb | hb | hb | ⟨hb, hc⟩⟩
    · exact .inl ⟨ha, .inl hb⟩
    · exact .inl ⟨ha, .inr hb⟩
    · exact .inr (.inr ⟨ha, hb⟩)
    · exact .inr (.inl ⟨ha, hb, hc⟩)

theorem internalStart_iff {w : List Char} {g : UInt16} (hlower : ∀ c ∈ w, c.toLower = c) (hw : segment w = some g)
    (hg : ¬Misread g.toNat) (rest : List Char) : InternalStart (w ++ ':' :: rest) ↔ InternalGroup g.toNat := by
  obtain ⟨hpos, hfour, ds, hds, hvalue⟩ := segment_some hw
  unfold Misread at hg
  unfold InternalGroup
  rcases w with _ | ⟨a, _ | ⟨b, _ | ⟨c, _ | ⟨d, _ | ⟨e, w⟩⟩⟩⟩⟩
  · cases hpos
  · obtain ⟨x, xs, hx, hxs, rfl⟩ := digits_cons hds
    obtain rfl : [] = xs := Option.some.inj hxs
    obtain ⟨hxlt, hxa⟩ := digit_char (hlower a (by simp)) hx
    have hgroup := group_value hvalue (by simp [numeral]; omega)
    simp only [numeral, List.foldl_cons, List.foldl_nil] at hgroup
    rw [List.singleton_append, internalStart_cons]
    refine iff_of_false ?_ (by omega)
    simp
  · obtain ⟨x, xs, hx, hxs, rfl⟩ := digits_cons hds
    obtain ⟨y, ys, hy, hys, rfl⟩ := digits_cons hxs
    obtain rfl : [] = ys := Option.some.inj hys
    obtain ⟨hxlt, hxa⟩ := digit_char (hlower a (by simp)) hx
    obtain ⟨hylt, hyb⟩ := digit_char (hlower b (by simp)) hy
    have hgroup := group_value hvalue (by simp [numeral]; omega)
    simp only [numeral, List.foldl_cons, List.foldl_nil] at hgroup
    rw [List.cons_append, List.singleton_append, internalStart_cons]
    simp only [List.head?_cons, Option.mem_def, Option.some.injEq, exists_eq_left', Char.reduceToNat]
    split_ifs at hxa hyb <;> omega
  · obtain ⟨x, xs, hx, hxs, rfl⟩ := digits_cons hds
    obtain ⟨y, ys, hy, hys, rfl⟩ := digits_cons hxs
    obtain ⟨z, zs, hz, hzs, rfl⟩ := digits_cons hys
    obtain rfl : [] = zs := Option.some.inj hzs
    obtain ⟨hxlt, hxa⟩ := digit_char (hlower a (by simp)) hx
    obtain ⟨hylt, hyb⟩ := digit_char (hlower b (by simp)) hy
    obtain ⟨hzlt, hzc⟩ := digit_char (hlower c (by simp)) hz
    have hgroup := group_value hvalue (by simp [numeral]; omega)
    simp only [numeral, List.foldl_cons, List.foldl_nil] at hgroup
    rw [List.cons_append, List.cons_append, internalStart_cons]
    simp only [List.singleton_append, List.head?_cons, Option.mem_def, Option.some.injEq, exists_eq_left']
    split_ifs at hxa hyb hzc <;> omega
  · obtain ⟨x, xs, hx, hxs, rfl⟩ := digits_cons hds
    obtain ⟨y, ys, hy, hys, rfl⟩ := digits_cons hxs
    obtain ⟨z, zs, hz, hzs, rfl⟩ := digits_cons hys
    obtain ⟨v, vs, hv, hvs, rfl⟩ := digits_cons hzs
    obtain rfl : [] = vs := Option.some.inj hvs
    obtain ⟨hxlt, hxa⟩ := digit_char (hlower a (by simp)) hx
    obtain ⟨hylt, hyb⟩ := digit_char (hlower b (by simp)) hy
    obtain ⟨hzlt, hzc⟩ := digit_char (hlower c (by simp)) hz
    obtain ⟨hvlt, -⟩ := digit_char (hlower d (by simp)) hv
    have hgroup := group_value hvalue (by simp [numeral]; omega)
    simp only [numeral, List.foldl_cons, List.foldl_nil] at hgroup
    rw [List.cons_append, List.cons_append, internalStart_cons]
    simp only [List.cons_append, List.head?_cons, Option.mem_def, Option.some.injEq, exists_eq_left']
    split_ifs at hxa hyb hzc <;> omega
  · simp only [List.length_cons] at hfour
    omega

end Starts

section Steadiness

variable {t : List Char} {gs : {gs : List UInt16 // gs.length = 8}}

theorem toLower_toLower (c : Char) : c.toLower.toLower = c.toLower := by
  apply Char.toNat_inj.mp
  rw [toNat_toLower, toNat_toLower]
  split_ifs <;> omega

theorem parse_of_octets {o : UInt8 × UInt8 × UInt8 × UInt8} (h : octets t = some o) :
    parse t = some (.v4 o.1 o.2.1 o.2.2.1 o.2.2.2) := by
  rw [parse, h]
  rfl

theorem mapped_spec {inner : List Char} (h : mapped t = some inner) (hgs : hextets t = some gs) :
    ∃ o, octets inner = some o ∧ gs.1 = mappedGroups o := by
  obtain ⟨rfl, hfour, hparts⟩ := mapped_eq_some h
  have hchars : ∀ c ∈ inner, c = '.' ∨ c.isDigit = true := by
    intro c hc
    refine (mem_splitOn hc).imp_right ?_
    rintro ⟨part, hpart, hc⟩
    exact List.all_eq_true.mp (hparts part hpart).2 c hc
  have hdot : '.' ∈ inner := by
    by_contra hdot
    rw [List.splitOn_eq_singleton hdot] at hfour
    cases hfour
  exact mapped_groups hchars hdot hgs

theorem not_internalStart {c : Char} (hc : c.toNat ≠ 102) (rest : List Char) : ¬InternalStart (c :: rest) := by
  cases rest with
  | nil =>
    rintro (h | h | h) <;> simp [uniqueLocal, linkLocal, multicast] at h
  | cons =>
    rw [internalStart_cons]
    exact fun h ↦ hc h.1

variable {rest : List Char}

theorem gap_judged (h : parse t = some (.v6 gs)) (ht : t.map Char.toLower = ':' :: ':' :: rest)
    (hin : isInternalAddress t = true) :
    gs.1 = unspecified ∨ gs.1 = loopback ∨ ∃ o, gs.1 = mappedGroups o ∧ Internal4 o := by
  have hparse : parse (t.map Char.toLower) = some (.v6 gs) := by rw [parse_toLower, h]
  rw [isInternalAddress_v6 h] at hin
  rcases hin with hmeta | ⟨inner, hinner, hin⟩ | ⟨-, heq | heq | hstart⟩
  · rw [ht] at hmeta
    simp [metadataAddresses] at hmeta
  · obtain ⟨o, ho, hgs⟩ := mapped_spec hinner (hextets_of_parse hparse)
    rw [isInternalAddress_v4 (parse_of_octets ho)] at hin
    exact .inr (.inr ⟨o, hgs, (internal4_iff o).mpr hin⟩)
  · have hnone : parse "::".toList = some (.v6 ⟨unspecified, rfl⟩) := by decide
    rw [heq, hnone] at hparse
    cases hparse
    exact .inl rfl
  · have hone : parse "::1".toList = some (.v6 ⟨loopback, rfl⟩) := by decide
    rw [heq, hone] at hparse
    cases hparse
    exact .inr (.inl rfl)
  · rw [ht] at hstart
    exact absurd hstart (not_internalStart (by decide) _)

theorem segment_judged {w : List Char} {g : UInt16} (h : parse t = some (.v6 gs))
    (ht : t.map Char.toLower = w ++ ':' :: rest) (hw : segment w = some g) :
    isInternalAddress t = true ↔ InternalStart (w ++ ':' :: rest) := by
  have hparse : parse (t.map Char.toLower) = some (.v6 gs) := by rw [parse_toLower, h]
  obtain ⟨c, w', hcons⟩ : ∃ c w', w = c :: w' := by
    cases w with
    | nil => cases hw
    | cons c w' => exact ⟨c, w', rfl⟩
  have hcolon : c ≠ ':' := by
    rintro rfl
    exact not_mem_segment hw (by decide : IpAddress.digitValue ':' = none) (hcons ▸ List.mem_cons_self)
  have hmapped : mapped (t.map Char.toLower) = none := by
    cases hm : mapped (t.map Char.toLower) with
    | none => rfl
    | some =>
      have heq := (mapped_eq_some hm).1
      rw [ht, hcons] at heq
      exact absurd (List.cons.inj heq).1 hcolon
  rw [isInternalAddress_v6 h, hmapped]
  constructor
  · rintro (hmeta | ⟨inner, hinner, -⟩ | ⟨-, heq | heq | hstart⟩)
    · simp only [metadataAddresses, List.mem_cons, List.not_mem_nil, or_false] at hmeta
      rcases hmeta with heq | heq | heq
      · have hread : parse "169.254.169.254".toList = some (.v4 169 254 169 254) := by decide
        rw [heq, hread] at hparse
        cases hparse
      · have hread : parse "100.100.100.200".toList = some (.v4 100 100 100 200) := by decide
        rw [heq, hread] at hparse
        cases hparse
      · rw [← ht, heq]
        exact .inl rfl
    · cases hinner
    · rw [ht, hcons] at heq
      exact absurd (List.cons.inj heq).1 hcolon
    · rw [ht, hcons] at heq
      exact absurd (List.cons.inj heq).1 hcolon
    · rwa [ht] at hstart
  · intro hstart
    rw [ht]
    exact .inr (.inr ⟨rfl, .inr (.inr hstart)⟩)

theorem lower_segment {w : List Char} (ht : t.map Char.toLower = w ++ rest) : ∀ c ∈ w, c.toLower = c := by
  intro c hc
  have hmem : c ∈ t.map Char.toLower := ht ▸ List.mem_append_left _ hc
  obtain ⟨d, -, rfl⟩ := List.mem_map.mp hmem
  exact toLower_toLower d

theorem isInternalAddress_steady (h : parse t = some (.v6 gs)) (hsteady : Steady (.v6 gs)) :
    isInternalAddress t = true ↔ ∃ g ∈ gs.1.head?, InternalGroup g.toNat := by
  obtain ⟨hunspecified, hloopback, hmapped, hgroup⟩ := hsteady
  have hparse : parse (t.map Char.toLower) = some (.v6 gs) := by rw [parse_toLower, h]
  rcases first_group (hextets_of_parse hparse) with ⟨rest, ht, hhead⟩ | ⟨w, rest, g, ht, hw, hhead⟩
  · rw [hhead]
    refine iff_of_false ?_ ?_
    · intro hin
      rcases gap_judged h ht hin with heq | heq | ⟨o, heq, ho⟩
      · exact hunspecified heq
      · exact hloopback heq
      · exact hmapped o heq ho
    · rintro ⟨g, hg, hinternal⟩
      cases hg
      simp [InternalGroup] at hinternal
  · rw [segment_judged h ht hw, internalStart_iff (lower_segment ht) hw (hgroup g hhead), hhead]
    simp

end Steadiness

section Spellings

def hexChar (d : ℕ) : Char := "0123456789abcdef".toList.getD d '0'

theorem hexChar_spec {d : ℕ} (h : d < 16) : IpAddress.digitValue (hexChar d) = some d ∧ (hexChar d).toLower = hexChar d ∧
    (hexChar d).toNat = if d < 10 then d + 48 else d + 87 := by
  have hall : ∀ d < 16, IpAddress.digitValue (hexChar d) = some d ∧ (hexChar d).toLower = hexChar d ∧
      (hexChar d).toNat = if d < 10 then d + 48 else d + 87 := by decide
  exact hall d h

def spell : ℕ → ℕ → List Char
  | 0, _ => []
  | k + 1, n => spell k (n / 16) ++ [hexChar (n % 16)]

theorem spell_length (k n : ℕ) : (spell k n).length = k := by
  induction k generalizing n with
  | zero => rfl
  | succ k ih => rw [spell, List.length_append, ih, List.length_singleton]

theorem digits_append {cs ds : List Char} {xs ys : List ℕ} (hcs : digits cs = some xs) (hds : digits ds = some ys) :
    digits (cs ++ ds) = some (xs ++ ys) := by
  rw [digits, List.mapM_append, show cs.mapM IpAddress.digitValue = some xs from hcs, show ds.mapM IpAddress.digitValue = some ys from hds]
  rfl

theorem spell_digits (k n : ℕ) : ∃ ds, digits (spell k n) = some ds ∧ numeral 16 ds = n % 16 ^ k := by
  induction k generalizing n with
  | zero => exact ⟨[], rfl, by rw [pow_zero, Nat.mod_one]; rfl⟩
  | succ k ih =>
    obtain ⟨ds, hds, hvalue⟩ := ih (n / 16)
    have hlast : digits [hexChar (n % 16)] = some [n % 16] := by
      rw [digits, List.mapM_cons, (hexChar_spec (Nat.mod_lt n (by decide))).1]
      rfl
    refine ⟨ds ++ [n % 16], digits_append hds hlast, ?_⟩
    have hsum : numeral 16 (ds ++ [n % 16]) = numeral 16 ds * 16 + n % 16 := by
      rw [numeral, List.foldl_append]
      rfl
    rw [hsum, hvalue, pow_succ', Nat.mod_mul]
    omega

variable {k : ℕ} {g : UInt16} {gs : List UInt16}

theorem spell_segment {n : ℕ} (hpos : 1 ≤ k) (hfour : k ≤ 4) (hn : n < 16 ^ k) :
    segment (spell k n) = some (UInt16.ofNat n) := by
  obtain ⟨ds, hds, hvalue⟩ := spell_digits k n
  rw [IpAddress.segment, if_pos (by rw [spell_length]; exact ⟨hpos, hfour⟩), hds, Option.map_some, hvalue, Nat.mod_eq_of_lt hn]

theorem toLower_spell (k n : ℕ) : (spell k n).map Char.toLower = spell k n := by
  induction k generalizing n with
  | zero => rfl
  | succ k ih =>
    rw [spell, List.map_append, ih, List.map_singleton, (hexChar_spec (Nat.mod_lt n (by decide))).2.1]

def spelled (k : ℕ) (g : UInt16) (gs : List UInt16) : List Char :=
  [':'].intercalate (spell k g.toNat :: gs.map fun g ↦ spell 4 g.toNat)

theorem parse_spelled (hpos : 1 ≤ k) (hfour : k ≤ 4) (hg : g.toNat < 16 ^ k) (hlength : (g :: gs).length = 8) :
    parse (spelled k g gs) = some (.v6 ⟨g :: gs, hlength⟩) := by
  apply parse_segments
  constructor
  · rw [spell_segment hpos hfour hg, UInt16.ofNat_toNat]
  · rw [List.forall₂_map_left_iff, List.forall₂_same]
    intro g' _
    rw [spell_segment (by decide) le_rfl g'.toNat_lt, UInt16.ofNat_toNat]

theorem toLower_spelled (k : ℕ) (g : UInt16) (hgs : gs ≠ []) :
    ∃ rest, (spelled k g gs).map Char.toLower = spell k g.toNat ++ ':' :: rest := by
  refine ⟨([':'].intercalate (gs.map fun g ↦ spell 4 g.toNat)).map Char.toLower, ?_⟩
  rw [spelled, intercalate_cons (by rwa [ne_eq, List.map_eq_nil_iff]), List.map_append, toLower_spell, List.map_cons]
  rfl

theorem spelled_judged (hpos : 1 ≤ k) (hfour : k ≤ 4) (hg : g.toNat < 16 ^ k) (hlength : (g :: gs).length = 8) :
    ∃ rest, isInternalAddress (spelled k g gs) = true ↔ InternalStart (spell k g.toNat ++ ':' :: rest) := by
  have hne : gs ≠ [] := by
    rintro rfl
    cases hlength
  obtain ⟨rest, hrest⟩ := toLower_spelled k g hne
  exact ⟨rest, segment_judged (parse_spelled hpos hfour hg hlength) hrest (spell_segment hpos hfour hg)⟩

theorem padded_judged (hlength : (g :: gs).length = 8) (hg : g.toNat < 0x1000) :
    isInternalAddress (spelled 4 g gs) = false := by
  obtain ⟨rest, hrest⟩ := spelled_judged (by decide) le_rfl g.toNat_lt hlength
  rw [← Bool.not_eq_true, hrest]
  have hzero : g.toNat / 16 / 16 / 16 % 16 = 0 := by omega
  simp only [spell, hzero, List.nil_append, List.cons_append]
  exact not_internalStart (by decide) _

theorem short_judged (hlength : (g :: gs).length = 8) (hg : Misread g.toNat) :
    ∃ k, 1 ≤ k ∧ k ≤ 4 ∧ g.toNat < 16 ^ k ∧ isInternalAddress (spelled k g gs) = true := by
  unfold Misread at hg
  by_cases htwo : g.toNat < 0x100
  · obtain ⟨rest, hrest⟩ := spelled_judged (by decide : 1 ≤ 2) (by decide) htwo hlength
    refine ⟨2, by decide, by decide, htwo, hrest.mpr ?_⟩
    have hfirst := (hexChar_spec (Nat.mod_lt (g.toNat / 16) (by decide : 0 < 16))).2.2
    have hsecond := (hexChar_spec (Nat.mod_lt g.toNat (by decide : 0 < 16))).2.2
    simp only [spell, List.nil_append, List.cons_append]
    rw [internalStart_cons, hfirst, hsecond]
    split_ifs <;> omega
  · have hthree : g.toNat < 16 ^ 3 := by omega
    obtain ⟨rest, hrest⟩ := spelled_judged (by decide : 1 ≤ 3) (by decide) hthree hlength
    refine ⟨3, by decide, by decide, hthree, hrest.mpr ?_⟩
    have hfirst := (hexChar_spec (Nat.mod_lt (g.toNat / 16 / 16) (by decide : 0 < 16))).2.2
    have hsecond := (hexChar_spec (Nat.mod_lt (g.toNat / 16) (by decide : 0 < 16))).2.2
    have hthird := (hexChar_spec (Nat.mod_lt g.toNat (by decide : 0 < 16))).2.2
    simp only [spell, List.nil_append, List.cons_append]
    rw [internalStart_cons, hfirst, hsecond]
    simp only [List.head?_cons, Option.mem_def, Option.some.injEq, exists_eq_left', hthird]
    split_ifs <;> omega

end Spellings

section Connections

variable {lookup : List Char → Except (List Char) (List Answer)} {hostname : Hostname}

theorem host_eq (hostname : Hostname) : Acquisition.unbracketed (normalise hostname.text) = hostname.host := by
  rw [hostname.normal, Hostname.host]
  rcases hostname.brackets with ⟨inner, heq⟩ | ⟨hhead, hlast⟩
  · rw [heq]
    simp [Acquisition.unbracketed]
  · rw [if_neg hhead, Acquisition.unbracketed, if_neg hhead, if_neg hlast]

theorem resolved_external {addresses : List Answer} (h : resolvePublicAddresses lookup hostname.text = .ok addresses) :
    if isIP hostname.host ≠ 0 then isInternalAddress hostname.host = false
    else ∀ answer ∈ addresses, isInternalAddress answer.address = false := by
  rw [resolvePublicAddresses, host_eq] at h
  split at h
  next => cases h
  next =>
    split_ifs at h ⊢ with hliteral hinternal
    · exact Bool.eq_false_iff.mpr hinternal
    · split at h
      next => cases h
      next => cases h
      next =>
        split at h
        next => cases h
        next hfind =>
          cases h
          intro answer hmem
          exact Bool.eq_false_iff.mpr (List.find?_eq_none.mp hfind answer hmem)

theorem reached_external {all : Bool} {reached : List (List Char)} (h : guardedFetch lookup all hostname = .ok reached) :
    ∀ t ∈ reached, isInternalAddress t = false := by
  obtain ⟨addresses, hresolved, h⟩ := bind_ok.mp h
  have hexternal := resolved_external hresolved
  split_ifs at h hexternal
  · cases h
    intro t ht
    cases List.mem_singleton.mp ht
    exact hexternal
  · cases h
    intro t ht
    obtain ⟨answer, hanswer, rfl⟩ := List.mem_map.mp ht
    refine hexternal answer ?_
    unfold pinnedLookup at hanswer
    split_ifs at hanswer
    · exact hanswer
    · exact List.mem_of_mem_take hanswer

end Connections

theorem recognised_of_steady {a : IpAddress} (h : Steady a) : Recognised a := by
  have hrefused : Internal a → ∀ t, parse t = some a → isInternalAddress t = true := by
    intro hinternal t ht
    cases a with
    | v4 a b c d => rw [isInternalAddress_v4 ht, ← internal4_iff (a, b, c, d)]; exact hinternal
    | v6 =>
      rw [isInternalAddress_steady ht h]
      obtain ⟨hunspecified, hloopback, hmapped, -⟩ := h
      rcases hinternal with heq | heq | hgroup | ⟨o, heq, ho⟩
      · exact absurd heq hunspecified
      · exact absurd heq hloopback
      · exact hgroup
      · exact absurd ho (hmapped o heq)
  refine ⟨?_, hrefused, ?_⟩
  · intro t t' ht ht'
    cases a with
    | v4 => rw [isInternalAddress_v4 ht, isInternalAddress_v4 ht']
    | v6 => rw [Bool.eq_iff_iff, isInternalAddress_steady ht h, isInternalAddress_steady ht' h]
  · intro hinternal lookup all hostname reached hreached t ht hparse
    have hexternal := reached_external hreached t ht
    rw [hrefused hinternal t hparse] at hexternal
    cases hexternal

theorem steady_of_recognised {a : IpAddress} (h : Recognised a) : Steady a := by
  cases a with
  | v4 => trivial
  | v6 gs =>
    obtain ⟨_ | ⟨g, gs⟩, hlength⟩ := gs
    · cases hlength
    · have hpadded := parse_spelled (by decide) le_rfl g.toNat_lt hlength
      have hzero (hg : g = 0) (hinternal : Internal (.v6 ⟨g :: gs, hlength⟩)) : False := by
        have hrefused := h.refused hinternal _ hpadded
        rw [padded_judged hlength (by rw [hg]; decide)] at hrefused
        cases hrefused
      refine ⟨?_, ?_, ?_, ?_⟩
      · intro heq
        exact hzero (List.cons.inj heq).1 (.inl heq)
      · intro heq
        exact hzero (List.cons.inj heq).1 (.inr (.inl heq))
      · intro o heq ho
        exact hzero (List.cons.inj heq).1 (.inr (.inr (.inr ⟨o, heq, ho⟩)))
      · intro g' hg' hmisread
        cases hg'
        obtain ⟨k, hpos, hfour, hg, hshort⟩ := short_judged hlength hmisread
        have halike := h.alike _ _ hpadded (parse_spelled hpos hfour hg hlength)
        have hlow : g.toNat < 0x1000 := by
          unfold Misread at hmisread
          omega
        rw [padded_judged hlength hlow, hshort] at halike
        cases halike

/-- An address is recognised in all its texts just when it is no IPv6 address of four kinds: unspecified, loopback,
mapped from an address inside, or of a first group that can be misread. -/
theorem recognised_iff_steady (a : IpAddress) : Recognised a ↔ Steady a := ⟨steady_of_recognised, recognised_of_steady⟩

def mappedHost : Hostname where
  text := "[::ffff:a00:1]".toList
  normal := by decide
  brackets := .inl ⟨"::ffff:a00:1".toList, rfl⟩

/-- A private address is connected to in the form that a URL gives to it, and refused in another. -/
theorem mapped_reached :
    guardedFetch (fun _ ↦ .ok []) true mappedHost = .ok ["::ffff:a00:1".toList] ∧
      parse "::ffff:a00:1".toList = some (.v6 ⟨mappedGroups (10, 0, 0, 1), rfl⟩) ∧
      isInternalAddress "10.0.0.1".toList = true ∧ ¬Recognised (.v6 ⟨mappedGroups (10, 0, 0, 1), rfl⟩) := by
  have hinternal : isInternalAddress "10.0.0.1".toList = true := by
    rw [isInternalAddress_v4 (by decide : parse "10.0.0.1".toList = some (.v4 10 0 0 1))]
    decide
  have hparse : parse "::ffff:a00:1".toList = some (.v6 ⟨mappedGroups (10, 0, 0, 1), rfl⟩) := by decide
  have hexternal : isInternalAddress "::ffff:a00:1".toList = false := by
    rw [← Bool.not_eq_true, isInternalAddress_v6 hparse, show mapped ("::ffff:a00:1".toList.map Char.toLower) = none by decide]
    rintro (hmeta | ⟨inner, hinner, -⟩ | ⟨-, hstart⟩)
    · exact absurd hmeta (by decide)
    · cases hinner
    · exact absurd hstart (by decide)
  refine ⟨?_, hparse, hinternal, ?_⟩
  · have hhost : mappedHost.host = "::ffff:a00:1".toList := by decide
    have hsix : isIP "::ffff:a00:1".toList = 6 := by decide
    rw [guardedFetch, resolvePublicAddresses, host_eq, hhost, hsix, hexternal]
    rfl
  · intro h
    have hrefused := h.refused (.inr (.inr (.inr ⟨(10, 0, 0, 1), rfl, (internal4_iff _).mpr (by decide)⟩))) _ hparse
    rw [hexternal] at hrefused
    cases hrefused

end Noesar.Egress
