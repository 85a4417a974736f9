import Noesar.Lib.PosixPath
import Noesar.Lib.Utf8

namespace Noesar.Lib.BytePath

open Framing Utf8 PosixPath

def slash : UInt8 := 47

/-- A path as the file system spells it: its names are bytes, with a slash between two of them. -/
def spell : List Bytes → Bytes
  | [] => []
  | [n] => n
  | n :: m :: p => n ++ slash :: spell (m :: p)

def IsText (bs : Bytes) : Prop := encode (decode bs) = bs

instance (bs : Bytes) : Decidable (IsText bs) := inferInstanceAs (Decidable (_ = _))

def key (p : List Bytes) : String := String.ofList (joinChars (p.map decode))

theorem decode_encode (cs : List Char) : decode (encode cs) = cs := by
  have h := decode_encode_append cs []
  rwa [List.append_nil, show decode [] = [] from rfl, List.append_nil] at h

theorem isText_encode (cs : List Char) : IsText (encode cs) := by
  unfold IsText
  rw [decode_encode]

theorem encode_append (cs ds : List Char) : encode (cs ++ ds) = encode cs ++ encode ds := List.flatMap_append

theorem encode_cons (c : Char) (cs : List Char) : encode (c :: cs) = String.utf8EncodeChar c ++ encode cs := rfl

theorem eq_slash {c : Char} (h : slash ∈ String.utf8EncodeChar c) : c = '/' := by
  have hval : c.val.toNat = c.toNat := rfl
  have hvalid : c.toNat < 0xD800 ∨ 0xDFFF < c.toNat ∧ c.toNat < 0x110000 := c.valid
  have hbyte : ∀ n, n < 256 → slash = UInt8.ofNat n → n = 47 := by
    intro n hn he
    have hnat := congrArg UInt8.toNat he
    rw [toNat_ofNat hn] at hnat
    exact hnat.symm
  rw [String.utf8EncodeChar, hval] at h
  split at h
  next hascii =>
    have hnat := hbyte _ (by omega) (List.mem_singleton.mp h)
    rw [← Char.ofNat_toNat c, hnat]
  split at h
  next htwo =>
    simp only [List.mem_cons, List.not_mem_nil, or_false] at h
    rcases h with h | h
    all_goals
      have hnat := hbyte _ (by omega) h
      omega
  split at h
  next hthree =>
    simp only [List.mem_cons, List.not_mem_nil, or_false] at h
    rcases h with h | h | h
    all_goals
      have hnat := hbyte _ (by omega) h
      omega
  next hfour =>
    simp only [List.mem_cons, List.not_mem_nil, or_false] at h
    rcases h with h | h | h | h
    all_goals
      have hnat := hbyte _ (by omega) h
      omega

theorem slash_not_mem_encode {cs : List Char} (h : '/' ∉ cs) : slash ∉ encode cs := by
  intro hmem
  obtain ⟨c, hc, hbyte⟩ := List.mem_flatMap.mp hmem
  exact h (eq_slash hbyte ▸ hc)

theorem encode_joinChars (ws : List (List Char)) : encode (joinChars ws) = spell (ws.map encode) := by
  induction ws with
  | nil => rfl
  | cons w ws ih =>
    cases ws with
    | nil => rfl
    | cons =>
      rw [joinChars, encode_append, encode_cons, ih]
      rfl

theorem joinChars_splitChars (cs : List Char) : joinChars (splitChars (· = '/') cs) = cs ∧
    splitChars (· = '/') cs ≠ [] ∧ ∀ w ∈ splitChars (· = '/') cs, '/' ∉ w := by
  induction cs with
  | nil => exact ⟨rfl, by simp [splitChars], by simp [splitChars]⟩
  | cons c cs ih =>
    obtain ⟨hjoin, hne, hwords⟩ := ih
    rw [splitChars]
    split
    next hslash =>
      cases of_decide_eq_true hslash
      obtain ⟨w, ws, hws⟩ := List.exists_cons_of_ne_nil hne
      rw [hws] at hjoin hwords ⊢
      refine ⟨?_, by simp, ?_⟩
      · rw [joinChars, hjoin]
        rfl
      · intro v hv
        rcases List.mem_cons.mp hv with rfl | hv
        · exact List.not_mem_nil
        · exact hwords v hv
    next hother =>
      split
      next hnil => exact absurd hnil hne
      next w ws hws =>
        rw [hws] at hjoin hwords
        refine ⟨?_, by simp, ?_⟩
        · cases ws with
          | nil =>
            rw [joinChars] at hjoin ⊢
            rw [hjoin]
          | cons =>
            rw [joinChars] at hjoin ⊢
            rw [List.cons_append, hjoin]
        · intro v hv
          rcases List.mem_cons.mp hv with rfl | hv
          · intro hmem
            rcases List.mem_cons.mp hmem with rfl | hmem
            · exact hother (decide_eq_true rfl)
            · exact hwords w List.mem_cons_self hmem
          · exact hwords v (List.mem_cons_of_mem w hv)

theorem append_slash_inj {n m a b : Bytes} (hn : slash ∉ n) (hm : slash ∉ m)
    (h : n ++ slash :: a = m ++ slash :: b) : n = m ∧ a = b := by
  induction n generalizing m with
  | nil =>
    cases m with
    | nil => exact ⟨rfl, (List.cons.inj h).2⟩
    | cons => exact absurd ((List.cons.inj h).1 ▸ List.mem_cons_self) hm
  | cons c n ih =>
    cases m with
    | nil => exact absurd ((List.cons.inj h).1 ▸ List.mem_cons_self) hn
    | cons d =>
      obtain ⟨hhead, htail⟩ := List.cons.inj h
      obtain ⟨hrest, hab⟩ := ih (fun hc ↦ hn (List.mem_cons_of_mem c hc)) (fun hc ↦ hm (List.mem_cons_of_mem d hc)) htail
      exact ⟨by rw [hhead, hrest], hab⟩

theorem spell_inj {p q : List Bytes} (hp : p ≠ []) (hq : q ≠ []) (hpn : ∀ n ∈ p, slash ∉ n) (hqn : ∀ n ∈ q, slash ∉ n)
    (h : spell p = spell q) : p = q := by
  induction p generalizing q with
  | nil => exact absurd rfl hp
  | cons n p ih =>
    obtain ⟨m, q, rfl⟩ := List.exists_cons_of_ne_nil hq
    have hn := hpn n List.mem_cons_self
    have hm := hqn m List.mem_cons_self
    cases p with
    | nil =>
      cases q with
      | nil => exact congrArg (fun x ↦ [x]) h
      | cons =>
        rw [spell, spell] at h
        exact absurd (h ▸ List.mem_append_right m List.mem_cons_self) hn
    | cons =>
      cases q with
      | nil =>
        rw [spell, spell] at h
        exact absurd (h ▸ List.mem_append_right n List.mem_cons_self) hm
      | cons =>
        rw [spell, spell] at h
        obtain ⟨hname, hrest⟩ := append_slash_inj hn hm h
        rw [hname, ih (by simp) (by simp) (fun x hx ↦ hpn x (List.mem_cons_of_mem n hx))
          (fun x hx ↦ hqn x (List.mem_cons_of_mem m hx)) hrest]

theorem utf8_key {p : List Bytes} (h : ∀ n ∈ p, IsText n) : utf8 (key p) = spell p := by
  rw [key, utf8_ofList, encode_joinChars, List.map_map]
  congr 1
  exact List.map_congr_left h |>.trans (List.map_id p)

theorem text_of_spell {p : List Bytes} {s : String} (hp : p ≠ []) (hpn : ∀ n ∈ p, slash ∉ n) (h : utf8 s = spell p) :
    (∀ n ∈ p, IsText n) ∧ s = key p := by
  obtain ⟨hjoin, hne, hwords⟩ := joinChars_splitChars s.toList
  have hs : utf8 s = spell ((splitChars (· = '/') s.toList).map encode) := by
    rw [← encode_joinChars, hjoin, ← utf8_ofList, String.ofList_toList]
  have hpath : p = (splitChars (· = '/') s.toList).map encode := by
    refine spell_inj hp (by simpa using hne) hpn ?_ (h.symm.trans hs)
    intro n hn
    obtain ⟨w, hw, rfl⟩ := List.mem_map.mp hn
    exact slash_not_mem_encode (hwords w hw)
  have htexts : ∀ n ∈ p, IsText n := by
    intro n hn
    rw [hpath] at hn
    obtain ⟨w, -, rfl⟩ := List.mem_map.mp hn
    exact isText_encode w
  exact ⟨htexts, utf8_injective (h.trans (utf8_key htexts).symm)⟩

theorem key_inj {p q : List Bytes} (hp : p ≠ []) (hq : q ≠ []) (hpn : ∀ n ∈ p, slash ∉ n) (hqn : ∀ n ∈ q, slash ∉ n)
    (hpt : ∀ n ∈ p, IsText n) (hqt : ∀ n ∈ q, IsText n) (h : key p = key q) : p = q := by
  refine spell_inj hp hq hpn hqn ?_
  rw [← utf8_key hpt, ← utf8_key hqt, h]

end Noesar.Lib.BytePath
