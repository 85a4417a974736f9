import Noesar.Lib.Framing

namespace Noesar.Lib.Cbor

open Framing

/-- How the number in the head of an item is written: in the first byte, or in so many bytes behind it. -/
inductive Width
  | inline
  | one
  | two
  | four
  | eight
  deriving DecidableEq, Repr

namespace Width

def bytes : Width → ℕ
  | inline => 0
  | one => 1
  | two => 2
  | four => 4
  | eight => 8

def info : Width → ℕ → ℕ
  | inline, n => n
  | one, _ => 24
  | two, _ => 25
  | four, _ => 26
  | eight, _ => 27

def Holds : Width → ℕ → Prop
  | inline, n => n < 24
  | w, n => n < 256 ^ w.bytes

theorem info_lt {w : Width} {n : ℕ} (h : w.Holds n) : w.info n < 28 := by
  cases w with
  | inline => exact Nat.lt_trans h (by decide)
  | one => exact Nat.lt_add_of_pos_right (by decide : 0 < 4)
  | two => exact Nat.lt_add_of_pos_right (by decide : 0 < 3)
  | four => exact Nat.lt_add_of_pos_right (by decide : 0 < 2)
  | eight => exact Nat.lt_add_one 27

theorem info_inj {w w' : Width} {n n' : ℕ} (h : w.Holds n) (h' : w'.Holds n') (hinfo : w.info n = w'.info n') :
    w = w' ∧ (w.bytes = 0 → n = n') := by
  cases w <;> cases w' <;> simp only [info, Holds] at h h' hinfo <;> first | omega | exact ⟨rfl, fun _ ↦ hinfo⟩ |
    exact ⟨rfl, fun hzero ↦ absurd hzero (by decide)⟩

theorem holds_iff {w : Width} {n : ℕ} (hw : w ≠ inline) : w.Holds n ↔ n < 256 ^ w.bytes := by
  cases w with
  | inline => exact absurd rfl hw
  | one | two | four | eight => rfl

end Width

def head (major : ℕ) (w : Width) (n : ℕ) : Bytes := UInt8.ofNat (major * 32 + w.info n) :: BigEndian.bytes w.bytes n

section

variable {major major' n n' : ℕ} {w w' : Width} {r r' : Bytes}

@[simp] theorem head_length : (head major w n).length = 1 + w.bytes := by
  rw [head, List.length_cons, BigEndian.bytes_length, Nat.add_comm]

theorem first_toNat (hmajor : major < 8) (h : w.Holds n) :
    (UInt8.ofNat (major * 32 + w.info n)).toNat = major * 32 + w.info n := by
  have hinfo := Width.info_lt h
  rw [UInt8.toNat_ofNat', Nat.mod_eq_of_lt]
  omega

theorem head_inj (hmajor : major < 8) (hmajor' : major' < 8) (h : w.Holds n) (h' : w'.Holds n')
    (heq : head major w n ++ r = head major' w' n' ++ r') : major = major' ∧ w = w' ∧ n = n' ∧ r = r' := by
  rw [head, head, List.cons_append, List.cons_append, List.cons.injEq] at heq
  obtain ⟨hfirst, hbehind⟩ := heq
  have hfirst := congrArg UInt8.toNat hfirst
  rw [first_toNat hmajor h, first_toNat hmajor' h'] at hfirst
  have hinfo := Width.info_lt h
  have hinfo' := Width.info_lt h'
  obtain ⟨rfl, hinline⟩ := Width.info_inj h h' (by omega)
  obtain ⟨hbytes, hrest⟩ := List.append_inj hbehind (by rw [BigEndian.bytes_length, BigEndian.bytes_length])
  refine ⟨by omega, rfl, ?_, hrest⟩
  by_cases hw : w = .inline
  · exact hinline (by rw [hw]; rfl)
  · rw [← BigEndian.ofBytes_bytes ((Width.holds_iff hw).mp h), hbytes, BigEndian.ofBytes_bytes ((Width.holds_iff hw).mp h')]

end

inductive Simple
  | false
  | true
  | null
  deriving DecidableEq, Repr

def Simple.code : Simple → ℕ
  | .false => 20
  | .true => 21
  | .null => 22

/-- A data item of definite length, with the widths its numbers are written in. A text is held as its bytes. -/
inductive Item
  | integer (negative : Bool) (w : Width) (n : ℕ)
  | string (text : Bool) (w : Width) (content : Bytes)
  | array (w : Width) (items : List Item)
  | map (w : Width) (entries : List (Item × Item))
  | tag (w : Width) (n : ℕ) (item : Item)
  | simple (s : Simple)

namespace Item

section

variable {P : Item → Prop} (integer : ∀ negative w n, P (.integer negative w n))
  (string : ∀ text w content, P (.string text w content)) (array : ∀ w items, (∀ i ∈ items, P i) → P (.array w items))
  (map : ∀ w entries, (∀ e ∈ entries, P e.1 ∧ P e.2) → P (.map w entries)) (tag : ∀ w n item, P item → P (.tag w n item))
  (simple : ∀ s, P (.simple s))

include integer string array map tag simple

mutual

@[induction_eliminator]
theorem ofParts : ∀ i : Item, P i
  | .integer negative w n => integer negative w n
  | .string text w content => string text w content
  | .array w items => array w items (ofParts.items items)
  | .map w entries => map w entries (ofParts.entries entries)
  | .tag w n item => tag w n item (ofParts item)
  | .simple s => simple s

theorem ofParts.items : ∀ items : List Item, ∀ i ∈ items, P i
  | [], _, h => absurd h List.not_mem_nil
  | _ :: items, i, h => (List.mem_cons.mp h).elim (fun hi ↦ hi ▸ ofParts _) (ofParts.items items i)

theorem ofParts.entries : ∀ entries : List (Item × Item), ∀ e ∈ entries, P e.1 ∧ P e.2
  | [], _, h => absurd h List.not_mem_nil
  | (k, v) :: entries, e, h =>
    (List.mem_cons.mp h).elim (fun he ↦ he ▸ ⟨ofParts k, ofParts v⟩) (ofParts.entries entries e)

end

end

/-- What to make of each kind of item, given what was made of its parts. -/
structure Algebra (β : Type) where
  integer : Bool → Width → ℕ → β
  string : Bool → Width → Bytes → β
  array : Width → List β → β
  map : Width → List (β × β) → β
  tag : Width → ℕ → β → β
  simple : Simple → β

section

variable {β : Type} (a : Algebra β)

mutual

def fold : Item → β
  | .integer negative w n => a.integer negative w n
  | .string text w content => a.string text w content
  | .array w items => a.array w (fold.items items)
  | .map w entries => a.map w (fold.entries entries)
  | .tag w n item => a.tag w n (fold item)
  | .simple s => a.simple s

def fold.items : List Item → List β
  | [] => []
  | i :: items => fold i :: fold.items items

def fold.entries : List (Item × Item) → List (β × β)
  | [] => []
  | (k, v) :: entries => (fold k, fold v) :: fold.entries entries

end

@[simp] theorem fold_integer (negative : Bool) (w : Width) (n : ℕ) :
    fold a (.integer negative w n) = a.integer negative w n := rfl

@[simp] theorem fold_string (text : Bool) (w : Width) (content : Bytes) :
    fold a (.string text w content) = a.string text w content := rfl

@[simp] theorem fold_array (w : Width) (items : List Item) : fold a (.array w items) = a.array w (items.map (fold a)) := by
  rw [fold]
  congr 1
  induction items with
  | nil => rfl
  | cons i items ih => rw [fold.items, ih, List.map_cons]

@[simp] theorem fold_map (w : Width) (entries : List (Item × Item)) :
    fold a (.map w entries) = a.map w (entries.map fun e ↦ (fold a e.1, fold a e.2)) := by
  rw [fold]
  congr 1
  induction entries with
  | nil => rfl
  | cons e entries ih =>
    obtain ⟨k, v⟩ := e
    rw [fold.entries, ih, List.map_cons]

@[simp] theorem fold_tag (w : Width) (n : ℕ) (item : Item) : fold a (.tag w n item) = a.tag w n (fold a item) := rfl

@[simp] theorem fold_simple (s : Simple) : fold a (.simple s) = a.simple s := rfl

end

def row (entries : List (Item × Item)) : List Item := entries.flatMap fun e ↦ [e.1, e.2]

def spell : Item → Bytes :=
  fold ⟨fun negative w n ↦ head negative.toNat w n, fun text w content ↦ head (2 + text.toNat) w content.length ++ content,
    fun w items ↦ head 4 w items.length ++ items.flatten,
    fun w entries ↦ head 5 w entries.length ++ (entries.flatMap fun e ↦ [e.1, e.2]).flatten,
    fun w n item ↦ head 6 w n ++ item, fun s ↦ head 7 .inline s.code⟩

def tail : Item → ℕ :=
  fold ⟨fun _ _ _ ↦ 0, fun _ _ content ↦ content.length, fun _ tails ↦ tails.getLast?.getD 0,
    fun _ tails ↦ (tails.flatMap fun e ↦ [e.1, e.2]).getLast?.getD 0, fun _ _ tail ↦ tail, fun _ ↦ 0⟩

def EachNumber (P : Width → ℕ → Prop) : Item → Prop :=
  fold ⟨fun _ ↦ P, fun _ w content ↦ P w content.length, fun w items ↦ P w items.length ∧ ∀ p ∈ items, p,
    fun w entries ↦ P w entries.length ∧ ∀ p ∈ entries, p.1 ∧ p.2, fun w n item ↦ P w n ∧ item, fun _ ↦ True⟩

def EachText (P : Bytes → Prop) : Item → Prop :=
  fold ⟨fun _ _ _ ↦ True, fun text _ content ↦ text = true → P content, fun _ items ↦ ∀ p ∈ items, p,
    fun _ entries ↦ ∀ p ∈ entries, p.1 ∧ p.2, fun _ _ item ↦ item, fun _ ↦ True⟩

def WellFormed : Item → Prop := EachNumber Width.Holds

end Item

open Item

def spellAll (items : List Item) : Bytes := (items.map spell).flatten

def tailAll (items : List Item) : ℕ := (items.map tail).getLast?.getD 0

section

variable (negative text : Bool) (w : Width) (n : ℕ) (content : Bytes) (items : List Item) (entries : List (Item × Item))
  (item : Item) (s : Simple)

@[simp] theorem spell_integer : spell (.integer negative w n) = head negative.toNat w n := rfl

@[simp] theorem spell_string : spell (.string text w content) = head (2 + text.toNat) w content.length ++ content := rfl

@[simp] theorem spell_array : spell (.array w items) = head 4 w items.length ++ spellAll items := by
  rw [spell, fold_array]
  dsimp only
  rw [List.length_map]
  rfl

theorem row_map {β : Type} (f : Item → β) :
    ((entries.map fun e ↦ (f e.1, f e.2)).flatMap fun e ↦ [e.1, e.2]) = (row entries).map f := by
  rw [row, List.map_flatMap, List.flatMap_map]
  rfl

@[simp] theorem spell_map : spell (.map w entries) = head 5 w entries.length ++ spellAll (row entries) := by
  rw [spell, fold_map]
  dsimp only
  rw [List.length_map, row_map]
  rfl

@[simp] theorem spell_tag : spell (.tag w n item) = head 6 w n ++ spell item := rfl

@[simp] theorem spell_simple : spell (.simple s) = head 7 .inline s.code := rfl

@[simp] theorem tail_integer : tail (.integer negative w n) = 0 := rfl

@[simp] theorem tail_string : tail (.string text w content) = content.length := rfl

@[simp] theorem tail_array : tail (.array w items) = tailAll items := by
  rw [tail, fold_array]
  rfl

@[simp] theorem tail_map : tail (.map w entries) = tailAll (row entries) := by
  rw [tail, fold_map]
  dsimp only
  rw [row_map]
  rfl

@[simp] theorem tail_tag : tail (.tag w n item) = tail item := rfl

@[simp] theorem tail_simple : tail (.simple s) = 0 := rfl

variable (P : Width → ℕ → Prop) (Q : Bytes → Prop)

@[simp] theorem eachNumber_integer : EachNumber P (.integer negative w n) ↔ P w n := Iff.rfl

@[simp] theorem eachNumber_string : EachNumber P (.string text w content) ↔ P w content.length := Iff.rfl

@[simp] theorem eachNumber_array :
    EachNumber P (.array w items) ↔ P w items.length ∧ ∀ i ∈ items, EachNumber P i := by
  rw [EachNumber, fold_array]
  dsimp only
  rw [List.length_map, List.forall_mem_map]

@[simp] theorem eachNumber_map : EachNumber P (.map w entries) ↔
    P w entries.length ∧ ∀ e ∈ entries, EachNumber P e.1 ∧ EachNumber P e.2 := by
  rw [EachNumber, fold_map]
  dsimp only
  rw [List.length_map, List.forall_mem_map]

@[simp] theorem eachNumber_tag : EachNumber P (.tag w n item) ↔ P w n ∧ EachNumber P item := Iff.rfl

@[simp] theorem eachNumber_simple : EachNumber P (.simple s) ↔ True := Iff.rfl

@[simp] theorem eachText_string : EachText Q (.string text w content) ↔ (text = true → Q content) := Iff.rfl

@[simp] theorem spellAll_nil : spellAll [] = [] := rfl

@[simp] theorem spellAll_cons : spellAll (item :: items) = spell item ++ spellAll items := rfl

theorem tailAll_singleton : tailAll [item] = tail item := rfl

theorem tailAll_cons (hitems : items ≠ []) : tailAll (item :: items) = tailAll items := by
  rw [tailAll, tailAll, List.map_cons, List.getLast?_cons_of_ne_nil]
  simpa using hitems

end

theorem Simple.code_lt (s : Simple) : s.code < 24 := by cases s <;> decide

theorem Simple.code_injective : Function.Injective Simple.code := by
  intro s s' h
  cases s <;> cases s' <;> first | rfl | exact absurd h (by decide)

namespace Item

variable {P Q : Width → ℕ → Prop} {item : Item} {items items' : List Item} {entries entries' : List (Item × Item)}

theorem forall_mem_row {p : Item → Prop} : (∀ i ∈ row entries, p i) ↔ ∀ e ∈ entries, p e.1 ∧ p e.2 := by
  simp only [row, List.forall_mem_flatMap, List.mem_cons, List.not_mem_nil, or_false, forall_eq_or_imp, forall_eq]

theorem row_length : (row entries).length = 2 * entries.length := by
  induction entries with
  | nil => rfl
  | cons e entries ih =>
    have hcons : row (e :: entries) = e.1 :: e.2 :: row entries := rfl
    rw [hcons, List.length_cons, List.length_cons, List.length_cons, ih]
    omega

theorem row_injective : Function.Injective row := by
  intro entries entries' h
  induction entries generalizing entries' with
  | nil =>
    cases entries' with
    | nil => rfl
    | cons => cases h
  | cons e entries ih =>
    cases entries' with
    | nil => cases h
    | cons =>
      obtain ⟨hkey, h⟩ := List.cons.inj h
      obtain ⟨hvalue, h⟩ := List.cons.inj h
      rw [Prod.ext hkey hvalue, ih h]

theorem EachNumber.mono (h : ∀ w n, P w n → Q w n) (hi : item.EachNumber P) : item.EachNumber Q := by
  induction item with
  | integer negative w n => exact h w n hi
  | string text w content => exact h w content.length hi
  | array w items ih =>
    rw [eachNumber_array] at hi ⊢
    exact ⟨h _ _ hi.1, fun i hmem ↦ ih i hmem (hi.2 i hmem)⟩
  | map w entries ih =>
    rw [eachNumber_map] at hi ⊢
    exact ⟨h _ _ hi.1, fun e hmem ↦ ⟨(ih e hmem).1 (hi.2 e hmem).1, (ih e hmem).2 (hi.2 e hmem).2⟩⟩
  | tag w n item ih => exact ⟨h w n hi.1, ih hi.2⟩
  | simple => trivial

theorem EachNumber.and (hP : item.EachNumber P) (hQ : item.EachNumber Q) : item.EachNumber fun w n ↦ P w n ∧ Q w n := by
  induction item with
  | integer | string => exact ⟨hP, hQ⟩
  | array w items ih =>
    rw [eachNumber_array] at hP hQ ⊢
    exact ⟨⟨hP.1, hQ.1⟩, fun i hmem ↦ ih i hmem (hP.2 i hmem) (hQ.2 i hmem)⟩
  | map w entries ih =>
    rw [eachNumber_map] at hP hQ ⊢
    exact ⟨⟨hP.1, hQ.1⟩, fun e hmem ↦ ⟨(ih e hmem).1 (hP.2 e hmem).1 (hQ.2 e hmem).1,
      (ih e hmem).2 (hP.2 e hmem).2 (hQ.2 e hmem).2⟩⟩
  | tag w n item ih => exact ⟨⟨hP.1, hQ.1⟩, ih hP.2 hQ.2⟩
  | simple => trivial

/-! ### Items are read in one way -/

inductive Kind
  | integer (negative : Bool)
  | string (text : Bool)
  | array
  | map
  | tag
  | simple

def Kind.major : Kind → ℕ
  | integer negative => negative.toNat
  | string text => 2 + text.toNat
  | array => 4
  | map => 5
  | tag => 6
  | simple => 7

theorem Kind.major_lt (k : Kind) : k.major < 8 := by
  cases k with
  | integer negative => cases negative <;> decide
  | string text => cases text <;> decide
  | array | map | tag | simple => decide

theorem Kind.major_injective : Function.Injective Kind.major := by
  intro k k' h
  rcases k with (_ | _) | (_ | _) | _ | _ | _ | _ <;> rcases k' with (_ | _) | (_ | _) | _ | _ | _ | _ <;>
    first | rfl | exact absurd h (by decide)

/-- What stands in the head of an item, and what is behind it. -/
structure Parts where
  kind : Kind
  width : Width
  number : ℕ
  body : Bytes

def parts : Item → Parts
  | .integer negative w n => ⟨.integer negative, w, n, []⟩
  | .string text w content => ⟨.string text, w, content.length, content⟩
  | .array w items => ⟨.array, w, items.length, spellAll items⟩
  | .map w entries => ⟨.map, w, entries.length, spellAll (row entries)⟩
  | .tag w n item => ⟨.tag, w, n, spell item⟩
  | .simple s => ⟨.simple, .inline, s.code, []⟩

theorem spell_eq_parts (item : Item) :
    spell item = head item.parts.kind.major item.parts.width item.parts.number ++ item.parts.body := by
  cases item with
  | integer => exact (List.append_nil _).symm
  | string => rfl
  | array w items => exact spell_array w items
  | map w entries => exact spell_map w entries
  | tag => rfl
  | simple => exact (List.append_nil _).symm

theorem WellFormed.head_holds (h : item.WellFormed) : item.parts.width.Holds item.parts.number := by
  cases item with
  | integer | string => exact h
  | array w items => exact ((eachNumber_array w items _).mp h).1
  | map w entries => exact ((eachNumber_map w entries _).mp h).1
  | tag => exact h.1
  | simple s => exact s.code_lt

theorem same_parts {other : Item} {r r' : Bytes} (hi : item.WellFormed) (ho : other.WellFormed)
    (heq : spell item ++ r = spell other ++ r') : item.parts.kind = other.parts.kind ∧ item.parts.width = other.parts.width ∧
      item.parts.number = other.parts.number ∧ item.parts.body ++ r = other.parts.body ++ r' := by
  rw [spell_eq_parts, spell_eq_parts, List.append_assoc, List.append_assoc] at heq
  obtain ⟨hmajor, hrest⟩ := head_inj item.parts.kind.major_lt other.parts.kind.major_lt hi.head_holds ho.head_holds heq
  exact ⟨Kind.major_injective hmajor, hrest⟩

def Told (item : Item) : Prop :=
  item.WellFormed → ∀ {other : Item} {r r' : Bytes}, other.WellFormed → spell item ++ r = spell other ++ r' →
    item = other ∧ r = r'

theorem told_all (ih : ∀ i ∈ items, Told i) (hlength : items.length = items'.length) (h : ∀ i ∈ items, i.WellFormed)
    (h' : ∀ i ∈ items', i.WellFormed) {r r' : Bytes} (heq : spellAll items ++ r = spellAll items' ++ r') :
    items = items' ∧ r = r' := by
  induction items generalizing items' with
  | nil =>
    obtain rfl := List.eq_nil_of_length_eq_zero hlength.symm
    exact ⟨rfl, heq⟩
  | cons i items ihs =>
    cases items' with
    | nil => cases hlength
    | cons =>
      rw [spellAll_cons, spellAll_cons, List.append_assoc, List.append_assoc] at heq
      rw [List.forall_mem_cons] at ih h h'
      obtain ⟨rfl, hrest⟩ := ih.1 h.1 h'.1 heq
      obtain ⟨rfl, hbehind⟩ := ihs ih.2 (Nat.succ.inj hlength) h.2 h'.2 hrest
      exact ⟨rfl, hbehind⟩

theorem told (item : Item) : Told item := by
  induction item with
  | integer =>
    intro hi other r r' ho heq
    obtain ⟨hkind, hwidth, hnumber, hbehind⟩ := same_parts hi ho heq
    cases other with
    | integer =>
      cases hkind
      cases hwidth
      cases hnumber
      exact ⟨rfl, hbehind⟩
    | _ => cases hkind
  | string =>
    intro hi other r r' ho heq
    obtain ⟨hkind, hwidth, hnumber, hbehind⟩ := same_parts hi ho heq
    cases other with
    | string =>
      cases hkind
      cases hwidth
      obtain ⟨rfl, hrest⟩ := List.append_inj hbehind hnumber
      exact ⟨rfl, hrest⟩
    | _ => cases hkind
  | array w items ih =>
    intro hi other r r' ho heq
    obtain ⟨hkind, hwidth, hnumber, hbehind⟩ := same_parts hi ho heq
    cases other with
    | array =>
      cases hwidth
      obtain ⟨rfl, hrest⟩ := told_all ih hnumber ((eachNumber_array ..).mp hi).2 ((eachNumber_array ..).mp ho).2 hbehind
      exact ⟨rfl, hrest⟩
    | _ => cases hkind
  | map w entries ih =>
    intro hi other r r' ho heq
    obtain ⟨hkind, hwidth, hnumber, hbehind⟩ := same_parts hi ho heq
    cases other with
    | map _ entries' =>
      cases hwidth
      have hrow : (row entries).length = (row entries').length := by
        rw [row_length, row_length]
        exact congrArg (2 * ·) hnumber
      obtain ⟨hentries, hrest⟩ := told_all (forall_mem_row.mpr ih) hrow (forall_mem_row.mpr ((eachNumber_map ..).mp hi).2)
        (forall_mem_row.mpr ((eachNumber_map ..).mp ho).2) hbehind
      obtain rfl := row_injective hentries
      exact ⟨rfl, hrest⟩
    | _ => cases hkind
  | tag w n item ih =>
    intro hi other r r' ho heq
    obtain ⟨hkind, hwidth, hnumber, hbehind⟩ := same_parts hi ho heq
    cases other with
    | tag =>
      cases hwidth
      cases hnumber
      obtain ⟨rfl, hrest⟩ := ih hi.2 ho.2 hbehind
      exact ⟨rfl, hrest⟩
    | _ => cases hkind
  | simple =>
    intro hi other r r' ho heq
    obtain ⟨hkind, -, hnumber, hbehind⟩ := same_parts hi ho heq
    cases other with
    | simple =>
      obtain rfl := Simple.code_injective hnumber
      exact ⟨rfl, hbehind⟩
    | _ => cases hkind

theorem spell_inj {other : Item} {r r' : Bytes} (hi : item.WellFormed) (ho : other.WellFormed)
    (heq : spell item ++ r = spell other ++ r') : item = other ∧ r = r' :=
  told item hi ho heq

/-! ### The string at the end -/

theorem tailAll_le (ih : ∀ i ∈ items, i.tail < (spell i).length) : tailAll items ≤ (spellAll items).length := by
  induction items with
  | nil => exact Nat.le_refl 0
  | cons i items ihs =>
    rw [List.forall_mem_cons] at ih
    rw [spellAll_cons, List.length_append]
    cases items with
    | nil =>
      rw [tailAll_singleton]
      omega
    | cons j items =>
      rw [tailAll_cons _ i (List.cons_ne_nil j items)]
      have hrest := ihs ih.2
      omega

theorem tail_lt_length (item : Item) : item.tail < (spell item).length := by
  induction item with
  | integer =>
    rw [tail_integer, spell_integer, head_length]
    omega
  | string =>
    rw [tail_string, spell_string, List.length_append, head_length]
    omega
  | array w items ih =>
    rw [tail_array, spell_array, List.length_append, head_length]
    have hall := tailAll_le ih
    omega
  | map w entries ih =>
    rw [tail_map, spell_map, List.length_append, head_length]
    have hall := tailAll_le (forall_mem_row.mpr ih)
    omega
  | tag =>
    rw [tail_tag, spell_tag, List.length_append]
    omega
  | simple =>
    rw [tail_simple, spell_simple, head_length]
    omega

end Item

end Noesar.Lib.Cbor
