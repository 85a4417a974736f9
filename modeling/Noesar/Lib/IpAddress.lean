import Mathlib

/-! The texts of internet addresses. -/

namespace Noesar.Lib

inductive IpAddress
  | v4 (a b c d : UInt8)
  | v6 (groups : {gs : List UInt16 // gs.length = 8})
  deriving DecidableEq

namespace IpAddress

def digitValue (c : Char) : Option ℕ :=
  if c.isDigit then some (c.toNat - 48)
  else if 'a' ≤ c ∧ c ≤ 'f' then some (c.toNat - 87)
  else if 'A' ≤ c ∧ c ≤ 'F' then some (c.toNat - 55)
  else none

def numeral (base : ℕ) (digits : List ℕ) : ℕ := digits.foldl (fun n d ↦ n * base + d) 0

def digits (cs : List Char) : Option (List ℕ) := cs.mapM digitValue

def segment (cs : List Char) : Option UInt16 :=
  if 1 ≤ cs.length ∧ cs.length ≤ 4 then (digits cs).map fun ds ↦ UInt16.ofNat (numeral 16 ds) else none

def octet (cs : List Char) : Option UInt8 :=
  if cs ≠ [] ∧ cs.length ≤ 3 ∧ cs.all Char.isDigit = true ∧ (cs.length = 1 ∨ cs.head? ≠ some '0') then
    let n := numeral 10 (cs.map fun c ↦ c.toNat - 48)
    if n < 256 then some (UInt8.ofNat n) else none
  else none

def octets (t : List Char) : Option (UInt8 × UInt8 × UInt8 × UInt8) :=
  match t.splitOn '.' with
  | [a, b, c, d] => do
    let a ← octet a
    let b ← octet b
    let c ← octet c
    let d ← octet d
    pure (a, b, c, d)
  | _ => none

def group (high low : UInt8) : UInt16 := UInt16.ofNat (high.toNat * 256 + low.toNat)

def dotted (t : List Char) : Option (List UInt16) := (octets t).map fun (a, b, c, d) ↦ [group a b, group c d]

/-- The groups of some pieces. The last of them may be dotted, where that is allowed. -/
def groups (tail : Bool) : List (List Char) → Option (List UInt16)
  | [] => some []
  | [piece] => ((segment piece).map fun g ↦ [g]) <|> if tail then dotted piece else none
  | piece :: pieces => do
    let g ← segment piece
    let gs ← groups tail pieces
    pure (g :: gs)

def gap : List Char → Option (List Char × List Char)
  | ':' :: ':' :: rest => some ([], rest)
  | c :: cs => (gap cs).map fun (left, right) ↦ (c :: left, right)
  | [] => none

def side (tail : Bool) (t : List Char) : Option (List UInt16) := if t = [] then some [] else groups tail (t.splitOn ':')

def body (t : List Char) : Option (List UInt16) :=
  match gap t with
  | none => (side true t).filter fun gs ↦ gs.length = 8
  | some (left, right) => do
    let before ← side false left
    let after ← side true right
    if before.length + after.length ≤ 7 then
      pure (before ++ List.replicate (8 - before.length - after.length) 0 ++ after)
    else none

def inZone (c : Char) : Bool := c.isAlphanum || c ∈ ['-', '.', ':']

def zoneless (t : List Char) : Option (List Char) :=
  match t.dropWhile (· ≠ '%') with
  | [] => some t
  | _ :: zone => if zone ≠ [] ∧ zone.all inZone = true then some (t.takeWhile (· ≠ '%')) else none

def hextets (t : List Char) : Option {gs : List UInt16 // gs.length = 8} :=
  (zoneless t).bind fun t ↦ (body t).bind fun gs ↦ if h : gs.length = 8 then some ⟨gs, h⟩ else none

def parse (t : List Char) : Option IpAddress :=
  ((octets t).map fun (a, b, c, d) ↦ v4 a b c d) <|> (hextets t).map v6

section Splitting

variable {sep : Char} {t : List Char}

theorem mem_splitOn {c : Char} (h : c ∈ t) : c = sep ∨ ∃ piece ∈ t.splitOn sep, c ∈ piece := by
  induction t with
  | nil => exact absurd h List.not_mem_nil
  | cons d t ih =>
    rw [List.splitOn_cons_eq_if_modifyHead]
    split
    next hd =>
      rcases List.mem_cons.mp h with rfl | h
      · exact .inl (eq_of_beq hd)
      · rcases ih h with hc | ⟨piece, hpiece, hc⟩
        · exact .inl hc
        · exact .inr ⟨piece, List.mem_cons_of_mem _ hpiece, hc⟩
    next hd =>
      cases hsplit : t.splitOn sep with
      | nil => exact absurd hsplit (List.splitOn_ne_nil sep t)
      | cons =>
        rw [List.modifyHead_cons]
        rcases List.mem_cons.mp h with rfl | h
        · exact .inr ⟨_, List.mem_cons_self, List.mem_cons_self⟩
        · rcases ih h with hc | ⟨piece, hpiece, hc⟩
          · exact .inl hc
          · rw [hsplit] at hpiece
            rcases List.mem_cons.mp hpiece with rfl | hpiece
            · exact .inr ⟨_, List.mem_cons_self, List.mem_cons_of_mem _ hc⟩
            · exact .inr ⟨piece, List.mem_cons_of_mem _ hpiece, hc⟩

theorem splitOn_map {f : Char → Char} (hf : ∀ c, f c = sep ↔ c = sep) :
    (t.map f).splitOn sep = (t.splitOn sep).map (List.map f) := by
  induction t with
  | nil => rfl
  | cons c t ih =>
    rw [List.map_cons, List.splitOn_cons_eq_if_modifyHead, List.splitOn_cons_eq_if_modifyHead, ih]
    by_cases hc : c = sep
    · rw [if_pos (beq_iff_eq.mpr hc), if_pos (beq_iff_eq.mpr ((hf c).mpr hc))]
      rfl
    · rw [if_neg fun h ↦ hc (beq_iff_eq.mp h), if_neg fun h ↦ hc ((hf c).mp (beq_iff_eq.mp h))]
      cases t.splitOn sep with
      | nil => rfl
      | cons => rfl

theorem gap_spec {left right : List Char} (h : gap t = some (left, right)) : t = left ++ ':' :: ':' :: right := by
  induction t using gap.induct generalizing left with
  | case1 =>
    cases h
    rfl
  | case2 c cs hc ih =>
    rw [gap] at h
    · cases hcs : gap cs with
      | none =>
        rw [hcs] at h
        cases h
      | some =>
        rw [hcs] at h
        cases h
        rw [ih hcs]
        rfl
    · exact hc
  | case3 => cases h

end Splitting

section Letters

theorem toNat_toLower (c : Char) : c.toLower.toNat = if 65 ≤ c.toNat ∧ c.toNat ≤ 90 then c.toNat + 32 else c.toNat := by
  have hrange : c.val ≥ 'A'.val ∧ c.val ≤ 'Z'.val ↔ 65 ≤ c.toNat ∧ c.toNat ≤ 90 := by
    rw [ge_iff_le, UInt32.le_iff_toNat_le, UInt32.le_iff_toNat_le]
    rfl
  unfold Char.toLower
  by_cases hc : 65 ≤ c.toNat ∧ c.toNat ≤ 90
  · rw [dif_pos (hrange.mpr hc), if_pos hc]
    change (c.val + 32).toNat = c.toNat + 32
    rw [UInt32.toNat_add]
    change (c.toNat + 32) % 2 ^ 32 = _
    omega
  · rw [dif_neg fun h ↦ hc (hrange.mp h), if_neg hc]

variable {c : Char}

theorem isDigit_iff : c.isDigit = true ↔ 48 ≤ c.toNat ∧ c.toNat ≤ 57 := by
  simp only [Char.isDigit, Bool.and_eq_true, decide_eq_true_eq, ge_iff_le, UInt32.le_iff_toNat_le]
  rfl

theorem toLower_digit (h : c.isDigit = true) : c.toLower = c := by
  rw [isDigit_iff] at h
  apply Char.toNat_inj.mp
  rw [toNat_toLower, if_neg (by omega)]

theorem isDigit_toLower (c : Char) : c.toLower.isDigit = c.isDigit := by
  rw [Bool.eq_iff_iff, isDigit_iff, isDigit_iff, toNat_toLower]
  split <;> omega

theorem digitValue_eq (c : Char) : digitValue c = if 48 ≤ c.toNat ∧ c.toNat ≤ 57 then some (c.toNat - 48)
    else if 97 ≤ c.toNat ∧ c.toNat ≤ 102 then some (c.toNat - 87)
    else if 65 ≤ c.toNat ∧ c.toNat ≤ 70 then some (c.toNat - 55) else none := by
  have hle (a b : Char) : a ≤ b ↔ a.toNat ≤ b.toNat := by rw [Char.le_def, UInt32.le_iff_toNat_le]; rfl
  simp only [digitValue, isDigit_iff, hle]
  rfl

theorem digitValue_toLower (c : Char) : digitValue c.toLower = digitValue c := by
  rw [digitValue_eq, digitValue_eq, toNat_toLower]
  split_ifs <;> first | rfl | omega

theorem isAlphanum_iff : c.isAlphanum = true ↔
    65 ≤ c.toNat ∧ c.toNat ≤ 90 ∨ 97 ≤ c.toNat ∧ c.toNat ≤ 122 ∨ 48 ≤ c.toNat ∧ c.toNat ≤ 57 := by
  simp only [Char.isAlphanum, Char.isAlpha, Char.isUpper, Char.isLower, Bool.or_eq_true, Bool.and_eq_true, decide_eq_true_eq,
    ge_iff_le, UInt32.le_iff_toNat_le, isDigit_iff, or_assoc]
  rfl

theorem toLower_eq_mark {mark : Char} (h : mark.toNat < 65) : c.toLower = mark ↔ c = mark := by
  rw [← Char.toNat_inj, ← Char.toNat_inj, toNat_toLower]
  split <;> omega

theorem inZone_iff : inZone c = true ↔ c.isAlphanum = true ∨ c = '-' ∨ c = '.' ∨ c = ':' := by
  simp [inZone]

theorem inZone_toLower (c : Char) : inZone c.toLower = inZone c := by
  rw [Bool.eq_iff_iff, inZone_iff, inZone_iff, toLower_eq_mark (by decide), toLower_eq_mark (by decide),
    toLower_eq_mark (by decide), isAlphanum_iff, isAlphanum_iff, toNat_toLower]
  refine or_congr_left ?_
  split <;> omega

theorem digits_toLower (cs : List Char) : digits (cs.map Char.toLower) = digits cs := by
  rw [digits, List.mapM_map]
  exact congrArg (fun f ↦ List.mapM f cs) (funext digitValue_toLower)

theorem segment_toLower (cs : List Char) : segment (cs.map Char.toLower) = segment cs := by
  rw [segment, digits_toLower, List.length_map]
  rfl

theorem octet_toLower (cs : List Char) : octet (cs.map Char.toLower) = octet cs := by
  by_cases hall : cs.all Char.isDigit = true
  · have hsame : cs.map Char.toLower = cs := by
      refine (List.map_congr_left fun c hc ↦ ?_).trans (List.map_id cs)
      exact toLower_digit (List.all_eq_true.mp hall c hc)
    rw [hsame]
  · have hnone (ds : List Char) (hds : ¬ds.all Char.isDigit = true) : octet ds = none := by
      rw [octet, if_neg fun h ↦ hds h.2.2.1]
    rw [hnone cs hall, hnone]
    rw [List.all_map]
    exact fun h ↦ hall ((List.all_congr rfl isDigit_toLower).symm.trans h)

theorem octets_toLower (t : List Char) : octets (t.map Char.toLower) = octets t := by
  unfold octets
  rw [splitOn_map fun c ↦ toLower_eq_mark (by decide)]
  rcases t.splitOn '.' with _ | ⟨a, _ | ⟨b, _ | ⟨c, _ | ⟨d, _ | ⟨e, rest⟩⟩⟩⟩⟩ <;> try rfl
  simp only [List.map_cons, List.map_nil, octet_toLower]

theorem groups_toLower (tail : Bool) (pieces : List (List Char)) :
    groups tail (pieces.map (List.map Char.toLower)) = groups tail pieces := by
  induction pieces with
  | nil => rfl
  | cons piece pieces ih =>
    cases pieces with
    | nil => simp only [List.map_cons, List.map_nil, groups, segment_toLower, dotted, octets_toLower]
    | cons =>
      rw [List.map_cons] at ih ⊢
      rw [List.map_cons, groups, ih, segment_toLower]
      · rfl
      · exact nofun

theorem gap_toLower (t : List Char) :
    gap (t.map Char.toLower) = (gap t).map fun (left, right) ↦ (left.map Char.toLower, right.map Char.toLower) := by
  induction t using gap.induct with
  | case1 => rfl
  | case2 c cs hc ih =>
    rw [List.map_cons, gap, gap, ih]
    · cases gap cs <;> rfl
    · exact hc
    · intro rest h hcs
      rw [toLower_eq_mark (by decide)] at h
      obtain ⟨d, ds, rfl, hd, -⟩ := List.map_eq_cons_iff.mp hcs
      rw [toLower_eq_mark (by decide)] at hd
      exact hc ds h (by rw [hd])
  | case3 => rfl

theorem side_toLower (tail : Bool) (t : List Char) : side tail (t.map Char.toLower) = side tail t := by
  unfold side
  rw [splitOn_map fun c ↦ toLower_eq_mark (by decide), groups_toLower]
  simp only [List.map_eq_nil_iff]

theorem body_toLower (t : List Char) : body (t.map Char.toLower) = body t := by
  unfold body
  rw [gap_toLower]
  cases gap t with
  | none => simp only [Option.map_none, side_toLower]
  | some => simp only [Option.map_some, side_toLower]

theorem zoneless_toLower (t : List Char) :
    zoneless (t.map Char.toLower) = (zoneless t).map (List.map Char.toLower) := by
  have hmark : (fun c : Char ↦ decide (c ≠ '%')) ∘ Char.toLower = fun c ↦ decide (c ≠ '%') :=
    funext fun c ↦ decide_eq_decide.mpr (not_congr (toLower_eq_mark (by decide)))
  unfold zoneless
  rw [List.dropWhile_map, List.takeWhile_map, hmark]
  cases t.dropWhile (fun c ↦ decide (c ≠ '%')) with
  | nil => rfl
  | cons mark zone =>
    have hall : (zone.map Char.toLower).all inZone = zone.all inZone := by
      rw [List.all_map]
      exact List.all_congr rfl inZone_toLower
    simp only [List.map_cons, List.map_eq_nil_iff, ne_eq, hall]
    split <;> rfl

theorem parse_toLower (t : List Char) : parse (t.map Char.toLower) = parse t := by
  have hhextets : hextets (t.map Char.toLower) = hextets t := by
    unfold hextets
    rw [zoneless_toLower]
    cases zoneless t with
    | none => rfl
    | some => simp only [Option.map_some, Option.bind_some, body_toLower]
  rw [parse, octets_toLower, hhextets]
  rfl

end Letters

section Characters

def plain (c : Char) : Bool := inZone c || c = '%'

variable {c : Char} {cs t : List Char} {o : UInt8 × UInt8 × UInt8 × UInt8} {tail : Bool} {gs : List UInt16}

theorem plain_of_inZone (h : inZone c = true) : plain c = true := by
  rw [plain, h, Bool.true_or]

theorem inZone_of_digit {d : ℕ} (h : digitValue c = some d) : inZone c = true := by
  rw [digitValue_eq] at h
  rw [inZone_iff, isAlphanum_iff]
  split_ifs at h <;> omega

theorem digits_cons {ds : List ℕ} (h : digits (c :: cs) = some ds) :
    ∃ d es, digitValue c = some d ∧ digits cs = some es ∧ ds = d :: es := by
  rw [digits, List.mapM_cons] at h
  obtain ⟨d, hd, h⟩ := Option.bind_eq_some_iff.mp h
  obtain ⟨es, hes, h⟩ := Option.bind_eq_some_iff.mp h
  cases h
  exact ⟨d, es, hd, hes, rfl⟩

theorem digits_known {ds : List ℕ} (h : digits cs = some ds) : ∀ c ∈ cs, ∃ d, digitValue c = some d := by
  induction cs generalizing ds with
  | nil => exact nofun
  | cons c cs ih =>
    obtain ⟨d, es, hd, hes, -⟩ := digits_cons h
    exact List.forall_mem_cons.mpr ⟨⟨d, hd⟩, ih hes⟩

theorem segment_some {g : UInt16} (h : segment cs = some g) :
    1 ≤ cs.length ∧ cs.length ≤ 4 ∧ ∃ ds, digits cs = some ds ∧ UInt16.ofNat (numeral 16 ds) = g := by
  unfold segment at h
  split at h
  next hlength =>
    obtain ⟨ds, hds, hg⟩ := Option.map_eq_some_iff.mp h
    exact ⟨hlength.1, hlength.2, ds, hds, hg⟩
  next => cases h

theorem inZone_of_segment {g : UInt16} (h : segment cs = some g) : ∀ c ∈ cs, inZone c = true := by
  obtain ⟨-, -, ds, hds, -⟩ := segment_some h
  intro c hc
  obtain ⟨d, hd⟩ := digits_known hds c hc
  exact inZone_of_digit hd

theorem octet_digits {a : UInt8} (h : octet cs = some a) : cs ≠ [] ∧ cs.all Char.isDigit = true := by
  unfold octet at h
  split at h
  next hcs => exact ⟨hcs.1, hcs.2.2.1⟩
  next => cases h

theorem octets_some (h : octets t = some o) :
    ∃ a b c d, t.splitOn '.' = [a, b, c, d] ∧ octet a = some o.1 ∧ octet b = some o.2.1 ∧ octet c = some o.2.2.1 ∧
      octet d = some o.2.2.2 := by
  unfold octets at h
  split at h
  next a b c d hsplit =>
    obtain ⟨a', ha, h⟩ := Option.bind_eq_some_iff.mp h
    obtain ⟨b', hb, h⟩ := Option.bind_eq_some_iff.mp h
    obtain ⟨c', hc, h⟩ := Option.bind_eq_some_iff.mp h
    obtain ⟨d', hd, h⟩ := Option.bind_eq_some_iff.mp h
    cases h
    exact ⟨a, b, c, d, hsplit, ha, hb, hc, hd⟩
  next => cases h

theorem octets_chars (h : octets t = some o) :
    ∀ c ∈ t, c = '.' ∨ c.isDigit = true := by
  obtain ⟨a, b, c, d, hsplit, ha, hb, hc, hd⟩ := octets_some h
  intro e he
  refine (mem_splitOn he).imp_right ?_
  rintro ⟨piece, hmem, he⟩
  rw [hsplit] at hmem
  simp only [List.mem_cons, List.not_mem_nil, or_false] at hmem
  rcases hmem with rfl | rfl | rfl | rfl
  · exact List.all_eq_true.mp (octet_digits ha).2 e he
  · exact List.all_eq_true.mp (octet_digits hb).2 e he
  · exact List.all_eq_true.mp (octet_digits hc).2 e he
  · exact List.all_eq_true.mp (octet_digits hd).2 e he

theorem inZone_of_octets (h : octets t = some o) :
    ∀ c ∈ t, inZone c = true := by
  intro c hc
  rw [inZone_iff, isAlphanum_iff]
  rcases octets_chars h c hc with hdot | hdigit
  · exact .inr (.inr (.inl hdot))
  · exact .inl (.inr (.inr (isDigit_iff.mp hdigit)))

theorem groups_cons {piece : List Char} {pieces : List (List Char)} (h : groups tail (piece :: pieces) = some gs) :
    (∃ g rest, segment piece = some g ∧ groups tail pieces = some rest ∧ gs = g :: rest) ∨
      pieces = [] ∧ tail = true ∧ dotted piece = some gs := by
  cases pieces with
  | nil =>
    rw [groups] at h
    cases hsegment : segment piece with
    | some g =>
      rw [hsegment] at h
      cases h
      exact .inl ⟨g, [], rfl, rfl, rfl⟩
    | none =>
      rw [hsegment] at h
      cases tail with
      | false => cases h
      | true => exact .inr ⟨rfl, rfl, h⟩
  | cons =>
    rw [groups] at h
    · obtain ⟨g, hg, h⟩ := Option.bind_eq_some_iff.mp h
      obtain ⟨rest, hrest, h⟩ := Option.bind_eq_some_iff.mp h
      cases h
      exact .inl ⟨g, rest, hg, hrest, rfl⟩
    · exact nofun

theorem inZone_of_groups {pieces : List (List Char)} (h : groups tail pieces = some gs) :
    ∀ piece ∈ pieces, ∀ c ∈ piece, inZone c = true := by
  induction pieces generalizing gs with
  | nil => exact nofun
  | cons piece pieces ih =>
    intro p hp c hc
    rcases groups_cons h with ⟨g, rest, hg, hrest, -⟩ | ⟨rfl, -, hdotted⟩
    · rcases List.mem_cons.mp hp with rfl | hp
      · exact inZone_of_segment hg c hc
      · exact ih hrest p hp c hc
    · cases List.mem_singleton.mp hp
      obtain ⟨o, ho, -⟩ := Option.map_eq_some_iff.mp hdotted
      exact inZone_of_octets ho c hc

theorem inZone_of_side (h : side tail t = some gs) :
    ∀ c ∈ t, inZone c = true := by
  intro c hc
  unfold side at h
  split at h
  next ht =>
    subst ht
    cases hc
  next =>
    rcases @mem_splitOn ':' t _ hc with rfl | ⟨piece, hmem, hc⟩
    · decide
    · exact inZone_of_groups h piece hmem c hc

theorem body_some (h : body t = some gs) :
    (gap t = none ∧ side true t = some gs ∧ gs.length = 8) ∨
    ∃ left right before after, gap t = some (left, right) ∧ side false left = some before ∧ side true right = some after ∧
      before.length + after.length ≤ 7 ∧ gs = before ++ List.replicate (8 - before.length - after.length) 0 ++ after := by
  unfold body at h
  cases hgap : gap t with
  | none =>
    rw [hgap] at h
    obtain ⟨hside, hlength⟩ := Option.filter_eq_some_iff.mp h
    exact .inl ⟨rfl, hside, by simpa using hlength⟩
  | some p =>
    obtain ⟨left, right⟩ := p
    rw [hgap] at h
    obtain ⟨before, hbefore, h⟩ := Option.bind_eq_some_iff.mp h
    obtain ⟨after, hafter, h⟩ := Option.bind_eq_some_iff.mp h
    split at h
    next hlength =>
      cases h
      exact .inr ⟨left, right, before, after, rfl, hbefore, hafter, hlength, rfl⟩
    next => cases h

theorem inZone_of_body (h : body t = some gs) : ∀ c ∈ t, inZone c = true := by
  rcases body_some h with ⟨-, hside, -⟩ | ⟨left, right, before, after, hgap, hbefore, hafter, -, -⟩
  · exact inZone_of_side hside
  · intro c hc
    rw [gap_spec hgap] at hc
    simp only [List.mem_append, List.mem_cons] at hc
    rcases hc with hc | rfl | rfl | hc
    · exact inZone_of_side hbefore c hc
    · decide
    · decide
    · exact inZone_of_side hafter c hc

theorem zoneless_some {u : List Char} (h : zoneless t = some u) :
    u = t ∧ '%' ∉ t ∨ ∃ zone, t = u ++ '%' :: zone ∧ ∀ c ∈ zone, inZone c = true := by
  have hwhole := List.takeWhile_append_dropWhile (p := fun c ↦ decide (c ≠ '%')) (l := t)
  unfold zoneless at h
  cases hdrop : t.dropWhile (fun c ↦ decide (c ≠ '%')) with
  | nil =>
    rw [hdrop] at h
    cases h
    refine .inl ⟨rfl, fun hmem ↦ ?_⟩
    have hall := List.dropWhile_eq_nil_iff.mp hdrop '%' hmem
    simp at hall
  | cons mark zone =>
    rw [hdrop] at h hwhole
    have hmark : mark = '%' := by
      have hhead := List.head?_dropWhile_not (fun c ↦ decide (c ≠ '%')) t
      rw [hdrop] at hhead
      simpa using hhead
    dsimp only at h
    split at h
    next hzone =>
      cases h
      subst hmark
      exact .inr ⟨zone, hwhole.symm, List.all_eq_true.mp hzone.2⟩
    next => cases h

theorem hextets_some {gs : {gs : List UInt16 // gs.length = 8}} (h : hextets t = some gs) :
    ∃ u, zoneless t = some u ∧ body u = some gs.1 := by
  obtain ⟨u, hu, h⟩ := Option.bind_eq_some_iff.mp h
  obtain ⟨hs, hbody, h⟩ := Option.bind_eq_some_iff.mp h
  split at h
  next hlength =>
    cases h
    exact ⟨u, hu, hbody⟩
  next => cases h

theorem plain_of_parse {a : IpAddress} (h : parse t = some a) : ∀ c ∈ t, plain c = true := by
  unfold parse at h
  cases ho : octets t with
  | some => exact fun c hc ↦ plain_of_inZone (inZone_of_octets ho c hc)
  | none =>
    rw [ho] at h
    obtain ⟨gs, hgs, -⟩ := Option.map_eq_some_iff.mp (show (hextets t).map v6 = some a from h)
    obtain ⟨u, hu, hbody⟩ := hextets_some hgs
    rcases zoneless_some hu with ⟨rfl, -⟩ | ⟨zone, rfl, hzone⟩
    · exact fun c hc ↦ plain_of_inZone (inZone_of_body hbody c hc)
    · intro c hc
      rw [List.mem_append, List.mem_cons] at hc
      rcases hc with hc | rfl | hc
      · exact plain_of_inZone (inZone_of_body hbody c hc)
      · decide
      · exact plain_of_inZone (hzone c hc)

end Characters

section Spelling

variable {ws : List (List Char)} {t : List Char}

theorem groups_segments {gs : List UInt16} (h : List.Forall₂ (fun w g ↦ segment w = some g) ws gs) (tail : Bool) :
    groups tail ws = some gs := by
  induction h with
  | nil => rfl
  | @cons w g ws gs hg hws ih =>
    cases hws with
    | nil =>
      rw [groups, hg]
      rfl
    | cons =>
      rw [groups, hg, ih]
      · rfl
      · exact nofun

theorem not_mem_segment {w : List Char} {g : UInt16} (h : segment w = some g) {mark : Char} (hmark : digitValue mark = none) :
    mark ∉ w := by
  obtain ⟨-, -, ds, hds, -⟩ := segment_some h
  intro hmem
  obtain ⟨d, hd⟩ := digits_known hds mark hmem
  rw [hmark] at hd
  cases hd

theorem zoneless_of_not_mem (h : '%' ∉ t) : zoneless t = some t := by
  have hdrop : t.dropWhile (fun c ↦ decide (c ≠ '%')) = [] := by
    rw [List.dropWhile_eq_nil_iff]
    intro c hc
    exact decide_eq_true fun heq ↦ h (heq ▸ hc)
  rw [zoneless, hdrop]

theorem segments_known {gs : List UInt16} (h : List.Forall₂ (fun w g ↦ segment w = some g) ws gs) :
    ∀ w ∈ ws, ∃ g, segment w = some g := by
  induction h with
  | nil => exact nofun
  | cons hg _ ih => exact List.forall_mem_cons.mpr ⟨⟨_, hg⟩, ih⟩

theorem intercalate_cons {w : List Char} (h : ws ≠ []) :
    [':'].intercalate (w :: ws) = w ++ ':' :: [':'].intercalate ws := by
  cases ws with
  | nil => exact absurd rfl h
  | cons => rw [List.intercalate_cons_cons]; simp

theorem parse_segments {gs : List UInt16} (h : List.Forall₂ (fun w g ↦ segment w = some g) ws gs)
    (hlength : gs.length = 8) : parse ([':'].intercalate ws) = some (v6 ⟨gs, hlength⟩) := by
  have hfree (mark : Char) (hmark : digitValue mark = none) : ∀ w ∈ ws, mark ∉ w := by
    intro w hw
    obtain ⟨g, hg⟩ := segments_known h w hw
    exact not_mem_segment hg hmark
  obtain ⟨w, ws', hws, hws'⟩ : ∃ w ws', ws = w :: ws' ∧ ws' ≠ [] := by
    cases h with
    | nil => cases hlength
    | @cons w g ws' gs hg hrest =>
      refine ⟨w, ws', rfl, ?_⟩
      rintro rfl
      cases hrest
      cases hlength
  have hne : ws ≠ [] := by
    rw [hws]
    exact List.cons_ne_nil _ _
  set t := [':'].intercalate ws with ht
  have hcolon : ':' ∈ t := by
    rw [ht, hws, intercalate_cons hws']
    exact List.mem_append_right _ List.mem_cons_self
  have hsplit : t.splitOn ':' = ws := List.splitOn_intercalate _ (hfree ':' (by decide)) hne
  have hoctets : octets t = none := by
    cases ho : octets t with
    | none => rfl
    | some => exact absurd (octets_chars ho ':' hcolon) (by decide)
  have hpercent : '%' ∉ t := by
    intro hmem
    rcases @mem_splitOn ':' t _ hmem with heq | ⟨piece, hpiece, hmem⟩
    · exact absurd heq (by decide)
    · rw [hsplit] at hpiece
      exact hfree '%' (by decide) piece hpiece hmem
  have hgap : gap t = none := by
    cases hgap : gap t with
    | none => rfl
    | some p =>
      have hsplit' := hsplit
      rw [@gap_spec t p.1 p.2 hgap, List.splitOn_append_cons_self,
        List.splitOn_cons_eq_if_modifyHead, if_pos (by decide)] at hsplit'
      have hmem : [] ∈ ws := by
        rw [← hsplit']
        exact List.mem_append_right _ List.mem_cons_self
      obtain ⟨g, hg⟩ := segments_known h [] hmem
      cases hg
  have hbody : body t = some gs := by
    have hside : side true t = some gs := by
      rw [side, if_neg (by intro hnil; rw [hnil] at hcolon; cases hcolon), hsplit]
      exact groups_segments h true
    rw [body, hgap]
    dsimp only
    rw [hside, Option.filter_some_pos (by simpa using hlength)]
  have hhextets : hextets t = some ⟨gs, hlength⟩ := by
    rw [hextets, zoneless_of_not_mem hpercent, Option.bind_some, hbody, Option.bind_some, dif_pos hlength]
  rw [parse, hoctets, hhextets]
  rfl

theorem first_piece {tail : Bool} {gs : List UInt16} (h : groups tail (t.splitOn ':') = some gs) :
    (∃ w g gs', segment w = some g ∧ gs = g :: gs' ∧ (t = w ∧ gs' = [] ∨ ∃ rest, t = w ++ ':' :: rest)) ∨
      tail = true ∧ gs.length = 2 := by
  have hwhole : [':'].intercalate (t.splitOn ':') = t := List.intercalate_splitOn ':'
  cases hsplit : t.splitOn ':' with
  | nil => exact absurd hsplit (List.splitOn_ne_nil ':' t)
  | cons w ws =>
    rw [hsplit] at h hwhole
    rcases groups_cons h with ⟨g, gs', hg, hrest, rfl⟩ | ⟨-, htail, hdotted⟩
    · refine .inl ⟨w, g, gs', hg, rfl, ?_⟩
      by_cases hws : ws = []
      · subst hws
        cases hrest
        exact .inl ⟨by rw [← hwhole]; simp, rfl⟩
      · exact .inr ⟨_, by rw [← hwhole, intercalate_cons hws]⟩
    · obtain ⟨o, -, ho⟩ := Option.map_eq_some_iff.mp hdotted
      exact .inr ⟨htail, by rw [← ho]; rfl⟩

theorem first_group {gs : {gs : List UInt16 // gs.length = 8}} (h : hextets t = some gs) :
    (∃ rest, t = ':' :: ':' :: rest ∧ gs.1.head? = some 0) ∨
      ∃ w rest g, t = w ++ ':' :: rest ∧ segment w = some g ∧ gs.1.head? = some g := by
  obtain ⟨u, hu, hbody⟩ := hextets_some h
  obtain ⟨zone, rfl⟩ : ∃ zone, t = u ++ zone := by
    rcases zoneless_some hu with ⟨rfl, -⟩ | ⟨zone, rfl, -⟩
    · exact ⟨[], (List.append_nil u).symm⟩
    · exact ⟨_, rfl⟩
  rcases body_some hbody with ⟨-, hside, hlength⟩ | ⟨left, right, before, after, hgap, hbefore, hafter, hlength, hgs⟩
  · unfold side at hside
    split at hside
    next =>
      rw [← Option.some.inj hside] at hlength
      cases hlength
    next =>
      rcases first_piece hside with ⟨w, g, gs', hg, hgs, hu | ⟨rest, rfl⟩⟩ | ⟨-, htwo⟩
      · rw [hgs, hu.2] at hlength
        cases hlength
      · exact .inr ⟨w, rest ++ zone, g, by rw [List.append_assoc]; rfl, hg, by rw [hgs]; rfl⟩
      · omega
  · have hwhole := gap_spec hgap
    by_cases hleft : left = []
    · subst hleft
      cases hbefore
      refine .inl ⟨right ++ zone, by rw [hwhole]; rfl, ?_⟩
      have hgap : gs.1 = List.replicate (7 - after.length + 1) 0 ++ after := by
        rw [hgs, List.nil_append]
        congr 2
        change 8 - 0 - after.length = _
        rw [List.length_nil] at hlength
        omega
      rw [hgap]
      rfl
    · rw [side, if_neg hleft] at hbefore
      rcases first_piece hbefore with ⟨w, g, gs', hg, rfl, hend | ⟨rest, rfl⟩⟩ | ⟨hfalse, -⟩
      · refine .inr ⟨w, ':' :: right ++ zone, g, ?_, hg, by rw [hgs]; rfl⟩
        rw [hwhole, hend.1, List.append_assoc]
        rfl
      · refine .inr ⟨w, rest ++ ':' :: ':' :: right ++ zone, g, ?_, hg, by rw [hgs]; rfl⟩
        rw [hwhole]
        simp
      · cases hfalse

theorem mapped_groups {v : List Char} {gs : {gs : List UInt16 // gs.length = 8}} (hchars : ∀ c ∈ v, c = '.' ∨ c.isDigit = true)
    (hdot : '.' ∈ v) (h : hextets (':' :: ':' :: 'f' :: 'f' :: 'f' :: 'f' :: ':' :: v) = some gs) :
    ∃ o, octets v = some o ∧ gs.1 = [0, 0, 0, 0, 0, 0xffff, group o.1 o.2.1, group o.2.2.1 o.2.2.2] := by
  have hfree (mark : Char) (hne : mark ≠ '.') (hdigit : mark.isDigit = false) : mark ∉ v := by
    intro hmem
    rcases hchars mark hmem with heq | hd
    · exact hne heq
    · rw [hdigit] at hd
      cases hd
  have hpercent : '%' ∉ ':' :: ':' :: 'f' :: 'f' :: 'f' :: 'f' :: ':' :: v := by
    simpa using hfree '%' (by decide) (by decide)
  have hsplit : ('f' :: 'f' :: 'f' :: 'f' :: ':' :: v).splitOn ':' = ["ffff".toList, v] := by
    have hffff : ':' ∉ "ffff".toList := by decide
    have hfirst := List.splitOn_append_cons_self_of_not_mem hffff v
    rw [List.splitOn_eq_singleton (hfree ':' (by decide) (by decide))] at hfirst
    exact hfirst
  have hsegment : segment v = none := by
    cases hg : segment v with
    | none => rfl
    | some => exact absurd hdot (not_mem_segment hg (by decide))
  obtain ⟨u, hu, hbody⟩ := hextets_some h
  rw [zoneless_of_not_mem hpercent] at hu
  cases hu
  rcases body_some hbody with ⟨hgap, -, -⟩ | ⟨left, right, before, after, hgap, hbefore, hafter, hlength, hgs⟩
  · cases hgap
  · cases hgap
    cases hbefore
    rw [side, if_neg nofun, hsplit] at hafter
    have hffff : segment "ffff".toList = some 0xffff := by decide
    rcases groups_cons hafter with ⟨g, rest, hg, hrest, rfl⟩ | ⟨hnil, -⟩
    · rw [hffff] at hg
      cases hg
      rcases groups_cons hrest with ⟨g', rest', hg', -⟩ | ⟨-, -, hdotted⟩
      · rw [hsegment] at hg'
        cases hg'
      · obtain ⟨o, ho, hrest⟩ := Option.map_eq_some_iff.mp hdotted
        refine ⟨o, ho, ?_⟩
        rw [hgs, ← hrest]
        rfl
    · cases hnil

end Spelling

end IpAddress

end Noesar.Lib
