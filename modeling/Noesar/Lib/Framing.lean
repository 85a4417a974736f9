import Mathlib
import Noesar.Lib.Incremental

namespace Noesar.Lib.Framing

abbrev Bytes := List UInt8

def utf8 (s : String) : Bytes := s.toByteArray.data.toList

theorem utf8_injective : Function.Injective utf8 := by
  intro s t h
  apply String.toByteArray_inj.mp
  apply ByteArray.ext
  exact Array.toList_inj.mp h

theorem utf8_append (s t : String) : utf8 (s ++ t) = utf8 s ++ utf8 t := by
  simp [utf8, String.toByteArray_append, ByteArray.data_append]

def le64 (n : ℕ) : Bytes := (List.range 8).map (fun i ↦ UInt8.ofNat (n / 256 ^ i))

@[simp] theorem le64_length (n : ℕ) : (le64 n).length = 8 := by simp [le64]

theorem le64_inj {n m : ℕ} (hn : n < 2 ^ 64) (hm : m < 2 ^ 64) (h : le64 n = le64 m) : n = m := by
  have hd : ∀ i < 8, n / 256 ^ i % 256 = m / 256 ^ i % 256 := by
    intro i hi
    have hi' := congrArg (fun l : Bytes ↦ l[i]?) h
    simp only [le64, List.getElem?_map, List.getElem?_range hi, Option.map_some, Option.some.injEq]
      at hi'
    simpa using congrArg UInt8.toNat hi'
  have h0 := hd 0 (by omega)
  have h1 := hd 1 (by omega)
  have h2 := hd 2 (by omega)
  have h3 := hd 3 (by omega)
  have h4 := hd 4 (by omega)
  have h5 := hd 5 (by omega)
  have h6 := hd 6 (by omega)
  have h7 := hd 7 (by omega)
  norm_num at h0 h1 h2 h3 h4 h5 h6 h7 hn hm
  omega

def Fits (s : String) : Prop := (utf8 s).length < 2 ^ 64

instance (s : String) : Decidable (Fits s) := inferInstanceAs (Decidable (_ < _))

def feed (s : String) : Bytes := utf8 s ++ le64 (utf8 s).length

def feedAll (fields : List String) : Bytes := fields.flatMap feed

@[simp] theorem feedAll_nil : feedAll [] = [] := rfl

theorem feedAll_snoc (fields : List String) (s : String) :
    feedAll (fields ++ [s]) = feedAll fields ++ utf8 s ++ le64 (utf8 s).length := by
  simp [feedAll, feed]

theorem feedAll_snoc_inj {a b : List String} {s t : String} (hs : Fits s) (ht : Fits t)
    (h : feedAll (a ++ [s]) = feedAll (b ++ [t])) : feedAll a = feedAll b ∧ s = t := by
  rw [feedAll_snoc, feedAll_snoc] at h
  obtain ⟨hbody, hlen⟩ := List.append_inj' h (by simp)
  have hsize : (utf8 s).length = (utf8 t).length := le64_inj hs ht hlen
  obtain ⟨hrest, htext⟩ := List.append_inj' hbody hsize
  exact ⟨hrest, utf8_injective htext⟩

theorem feedAll_inj {a b : List String} (ha : ∀ s ∈ a, Fits s) (hb : ∀ s ∈ b, Fits s)
    (h : feedAll a = feedAll b) : a = b := by
  induction a using List.reverseRecOn generalizing b with
  | nil =>
    induction b using List.reverseRecOn with
    | nil => rfl
    | append_singleton =>
      have hl := congrArg List.length h
      simp [feedAll_snoc] at hl
  | append_singleton a s ih =>
    induction b using List.reverseRecOn with
    | nil =>
      have hl := congrArg List.length h
      simp [feedAll_snoc] at hl
    | append_singleton b t =>
      obtain ⟨hrest, hst⟩ := feedAll_snoc_inj (ha s (by simp)) (hb t (by simp)) h
      have hab := ih (fun u hu ↦ ha u (by simp [hu])) (fun u hu ↦ hb u (by simp [hu])) hrest
      rw [hab, hst]

def hexDigit (n : ℕ) : Char :=
  ['0', '1', '2', '3', '4', '5', '6', '7', '8', '9', 'a', 'b', 'c', 'd', 'e', 'f'].getD n '0'

def hex (b : Bytes) : String :=
  String.ofList (b.flatMap fun x ↦ [hexDigit (x.toNat / 16), hexDigit (x.toNat % 16)])

theorem hex_length (b : Bytes) : (hex b).length = 2 * b.length := by
  simp only [hex, String.length_ofList, List.length_flatMap]
  induction b with
  | nil => rfl
  | cons => simp_all; omega

theorem hexDigit_inj {a b : ℕ} (ha : a < 16) (hb : b < 16) (h : hexDigit a = hexDigit b) : a = b := by
  have hall : ∀ a < 16, ∀ b < 16, hexDigit a = hexDigit b → a = b := by decide
  exact hall a ha b hb h

theorem hex_injective : Function.Injective hex := by
  intro a b h
  have h' := congrArg String.toList h
  simp only [hex, String.toList_ofList] at h'
  induction a generalizing b with
  | nil =>
    cases b with
    | nil => rfl
    | cons => simp at h'
  | cons x a ih =>
    cases b with
    | nil => simp at h'
    | cons y =>
      simp only [List.flatMap_cons, List.cons_append, List.nil_append, List.cons.injEq] at h'
      obtain ⟨hhigh, hlow, hrest⟩ := h'
      have hx := x.toNat_lt
      have hy := y.toNat_lt
      have h₁ := hexDigit_inj (by omega) (by omega) hhigh
      have h₂ := hexDigit_inj (by omega) (by omega) hlow
      have hxy : x = y := UInt8.toNat_inj.mp (by omega)
      rw [hxy, ih (by rw [hex, hex, hrest]) hrest]

end Noesar.Lib.Framing

namespace Noesar.Lib.BigEndian

open Framing Incremental

def ofBytes (bs : Bytes) : ℕ := bs.foldl (fun n b ↦ n * 256 + b.toNat) 0

def bytes : ℕ → ℕ → Bytes
  | 0, _ => []
  | width + 1, n => bytes width (n / 256) ++ [UInt8.ofNat n]

def read (width : ℕ) (buffer : Bytes) : Option (ℕ × Bytes) :=
  if width ≤ buffer.length then some (ofBytes (buffer.take width), buffer.drop width) else none

variable {width n : ℕ} {buffer rest : Bytes}

@[simp] theorem bytes_length (width n : ℕ) : (bytes width n).length = width := by
  induction width generalizing n with
  | zero => rfl
  | succ width ih => rw [bytes, List.length_append, ih, List.length_singleton]

theorem bytes_add (width more n : ℕ) : bytes (width + more) n = bytes width (n / 256 ^ more) ++ bytes more n := by
  induction more generalizing n with
  | zero => rw [Nat.add_zero, Nat.pow_zero, Nat.div_one, bytes, List.append_nil]
  | succ more ih => rw [← Nat.add_assoc, bytes, ih, Nat.div_div_eq_div_mul, ← Nat.pow_succ', bytes, List.append_assoc]

theorem ofBytes_snoc (bs : Bytes) (b : UInt8) : ofBytes (bs ++ [b]) = ofBytes bs * 256 + b.toNat := by
  rw [ofBytes, List.foldl_append]
  rfl

theorem ofBytes_lt (bs : Bytes) : ofBytes bs < 256 ^ bs.length := by
  induction bs using List.reverseRecOn with
  | nil => exact Nat.one_pos
  | append_singleton bs b =>
    have hb := b.toNat_lt
    rw [ofBytes_snoc, List.length_append, List.length_singleton, Nat.pow_succ]
    omega

theorem ofBytes_bytes (h : n < 256 ^ width) : ofBytes (bytes width n) = n := by
  induction width generalizing n with
  | zero =>
    rw [Nat.pow_zero] at h
    rw [Nat.lt_one_iff.mp h]
    rfl
  | succ width ih =>
    rw [Nat.pow_succ] at h
    have hb : (UInt8.ofNat n).toNat = n % 256 := UInt8.toNat_ofNat'
    rw [bytes, ofBytes_snoc, ih (Nat.div_lt_of_lt_mul (by omega)), hb]
    omega

theorem bytes_ofBytes (bs : Bytes) : bytes bs.length (ofBytes bs) = bs := by
  induction bs using List.reverseRecOn with
  | nil => rfl
  | append_singleton bs b ih =>
    have hb := b.toNat_lt
    have hhigh : (ofBytes bs * 256 + b.toNat) / 256 = ofBytes bs := by omega
    have hlow : UInt8.ofNat (ofBytes bs * 256 + b.toNat) = b := by
      apply UInt8.toNat_inj.mp
      rw [UInt8.toNat_ofNat']
      omega
    rw [ofBytes_snoc, List.length_append, List.length_singleton, bytes, hhigh, ih, hlow]

theorem read_bytes (h : n < 256 ^ width) (rest : Bytes) : read width (bytes width n ++ rest) = some (n, rest) := by
  have htake : (bytes width n ++ rest).take width = bytes width n := List.take_left' (bytes_length width n)
  have hdrop : (bytes width n ++ rest).drop width = rest := List.drop_left' (bytes_length width n)
  rw [read, if_pos (by simp), htake, hdrop, ofBytes_bytes h]

theorem read_eq_some_iff : read width buffer = some (n, rest) ↔ n < 256 ^ width ∧ buffer = bytes width n ++ rest := by
  constructor
  · intro h
    rw [read] at h
    split at h
    next hlength =>
      cases h
      have htaken : (buffer.take width).length = width := List.length_take_of_le hlength
      have hspelled := bytes_ofBytes (buffer.take width)
      rw [htaken] at hspelled
      have hlt := ofBytes_lt (buffer.take width)
      rw [htaken] at hlt
      exact ⟨hlt, by rw [hspelled, List.take_append_drop]⟩
    next => cases h
  · rintro ⟨hlt, rfl⟩
    exact read_bytes hlt rest

section

variable {ε : Type}

def pull (width : ℕ) : Pull UInt8 ε ℕ := do
  let front ← Pull.take width
  return ofBytes front

theorem pull_front {front : Bytes} (h : front.length = width) (rest : Bytes) :
    (pull width : Pull UInt8 ε ℕ).run (front ++ rest) = .ok (some (ofBytes front, rest)) := by
  rw [pull, Pull.bind_taken (Pull.take_append h rest), Pull.pure_run]

theorem pull_bytes (h : n < 256 ^ width) (rest : Bytes) :
    (pull width : Pull UInt8 ε ℕ).run (bytes width n ++ rest) = .ok (some (n, rest)) := by
  rw [pull_front (bytes_length width n), ofBytes_bytes h]

theorem steady_pull (width : ℕ) : (pull width : Pull UInt8 ε ℕ).Steady :=
  (Pull.steady_take width).bind fun _ ↦ Pull.steady_pure _

end

end Noesar.Lib.BigEndian
