import Noesar.Capability.Format

namespace Noesar.Capability

open Lib Lib.Framing

/-- A count of bytes or seconds that a double holds exactly. -/
structure SafeCount where
  value : ℕ
  safe : value < 2 ^ 53
  deriving DecidableEq

/-- One member of a limits object, which need not have passed `parseLimits`. -/
inductive Slot
  | absent
  | null
  | count (n : SafeCount)
  deriving DecidableEq

def Slot.limit : Slot → Option ℕ
  | .count n => some n.value
  | _ => none

abbrev LimitsValue := Option (Dimension → Slot)

namespace LimitsValue

def constraint : LimitsValue → Dimension → Option ℕ
  | none, _ => none
  | some slots, d => (slots d).limit

def SameConstraints (a b : LimitsValue) : Prop := ∀ d, a.constraint d = b.constraint d

def Complete (value : LimitsValue) : Prop := ∀ slots, value = some slots → ∀ d, slots d ≠ .absent

end LimitsValue

namespace Isolation

def slotText : Slot → String
  | .null => "-"
  | .absent => "undefined"
  | .count n => toString n.value

/-- `canonicalLimits` of `isolation.mjs`, on any object. -/
def canonicalLimitsOf : LimitsValue → String
  | none => "none"
  | some slots => Format.limitsText fun d ↦ slotText (slots d)

end Isolation

namespace Format

def slotText : Slot → String
  | .null => "-"
  | .absent => "-"
  | .count n => toString n.value

/-- `canonicalLimits` of the token package. -/
def canonicalLimits : LimitsValue → String
  | none => "none"
  | some slots => Format.limitsText fun d ↦ slotText (slots d)

end Format

namespace Rust

structure CapabilityLimits where
  memoryBytes : Option UInt64
  cpuSeconds : Option UInt64
  openFiles : Option UInt64
  processes : Option UInt64
  fileSizeBytes : Option UInt64
  coreDumpBytes : Option UInt64
  deriving DecidableEq

def fieldText : Option UInt64 → String
  | some number => toString number.toNat
  | none => "-"

def CapabilityLimits.format (limits : CapabilityLimits) : String :=
  "memoryBytes=" ++ fieldText limits.memoryBytes ++ ";cpuSeconds=" ++ fieldText limits.cpuSeconds ++ ";openFiles=" ++
    fieldText limits.openFiles ++ ";processes=" ++ fieldText limits.processes ++ ";fileSizeBytes=" ++
    fieldText limits.fileSizeBytes ++ ";coreDumpBytes=" ++ fieldText limits.coreDumpBytes

def canonicalLimits : Option CapabilityLimits → String
  | none => "none"
  | some limits => limits.format

/-- A member that is `null`, or not there, is read as `None`. -/
def readSlot : Slot → Option UInt64
  | .count n => some (UInt64.ofNat n.value)
  | _ => none

def readLimits (value : LimitsValue) : Option CapabilityLimits :=
  value.map fun slots ↦ ⟨readSlot (slots .memoryBytes), readSlot (slots .cpuSeconds), readSlot (slots .openFiles),
    readSlot (slots .processes), readSlot (slots .fileSizeBytes), readSlot (slots .coreDumpBytes)⟩

end Rust

section

variable {value value' : LimitsValue}

theorem Format.slotText_eq (slot : Slot) : Format.slotText slot = Format.countText slot.limit := by
  cases slot <;> rfl

theorem Format.slotText_plain (slot : Slot) : ';' ∉ (Format.slotText slot).toList := by
  rw [Format.slotText_eq]
  exact Format.countText_plain slot.limit

theorem Isolation.slotText_of_ne {slot : Slot} (h : slot ≠ .absent) : Isolation.slotText slot = Format.slotText slot := by
  cases slot with
  | absent => exact absurd rfl h
  | null => rfl
  | count => rfl

theorem Isolation.slotText_plain (slot : Slot) : ';' ∉ (Isolation.slotText slot).toList := by
  by_cases h : slot = .absent
  · rw [h]
    decide
  · rw [Isolation.slotText_of_ne h]
    exact Format.slotText_plain slot

theorem Format.slotText_inj {a b : Slot} (h : Format.slotText a = Format.slotText b) : a.limit = b.limit := by
  rw [Format.slotText_eq, Format.slotText_eq] at h
  exact Format.countText_injective h

theorem Isolation.slotText_absent {slot : Slot} (h : Isolation.slotText slot = "undefined") : slot = .absent := by
  by_contra hne
  rw [Isolation.slotText_of_ne hne, Format.slotText_eq] at h
  have hmem : 'u' ∈ (Format.countText slot.limit).toList := by
    rw [h]
    decide
  rcases Format.countText_digits _ _ hmem with hc | hc
  · exact absurd hc (by decide)
  · exact absurd hc (by decide)

theorem Isolation.slotText_inj {a b : Slot} (h : Isolation.slotText a = Isolation.slotText b) : a.limit = b.limit := by
  by_cases ha : a = .absent
  · subst ha
    rw [Isolation.slotText_absent h.symm]
  · by_cases hb : b = .absent
    · subst hb
      exact absurd (Isolation.slotText_absent h) ha
    · rw [Isolation.slotText_of_ne ha, Isolation.slotText_of_ne hb] at h
      exact Format.slotText_inj h

theorem Format.canonicalLimits_sameConstraints (h : Format.canonicalLimits value = Format.canonicalLimits value') :
    value.SameConstraints value' := by
  intro d
  cases value with
  | none =>
    cases value' with
    | none => rfl
    | some slots' => exact absurd h.symm (Format.limitsText_ne_none fun d ↦ slotText_plain (slots' d))
  | some slots =>
    cases value' with
    | none => exact absurd h (Format.limitsText_ne_none fun d ↦ slotText_plain (slots d))
    | some slots' =>
      exact Format.slotText_inj
        (Format.limitsText_inj (fun d ↦ slotText_plain (slots d)) (fun d ↦ slotText_plain (slots' d)) h d)

theorem Isolation.canonicalLimitsOf_sameConstraints
    (h : Isolation.canonicalLimitsOf value = Isolation.canonicalLimitsOf value') : value.SameConstraints value' := by
  intro d
  cases value with
  | none =>
    cases value' with
    | none => rfl
    | some slots' => exact absurd h.symm (Format.limitsText_ne_none fun d ↦ slotText_plain (slots' d))
  | some slots =>
    cases value' with
    | none => exact absurd h (Format.limitsText_ne_none fun d ↦ slotText_plain (slots d))
    | some slots' =>
      exact Isolation.slotText_inj
        (Format.limitsText_inj (fun d ↦ slotText_plain (slots d)) (fun d ↦ slotText_plain (slots' d)) h d)

theorem canonicalLimits_agree : Isolation.canonicalLimitsOf value = Format.canonicalLimits value ↔ value.Complete := by
  cases value with
  | none => simp [Isolation.canonicalLimitsOf, Format.canonicalLimits, LimitsValue.Complete]
  | some slots =>
    constructor
    · rintro h _ ⟨⟩ d habsent
      have htext := Format.limitsText_inj (fun d ↦ Isolation.slotText_plain (slots d)) (fun d ↦ Format.slotText_plain (slots d)) h d
      rw [habsent] at htext
      exact absurd htext (by decide)
    · intro h
      have htext : (fun d ↦ Isolation.slotText (slots d)) = fun d ↦ Format.slotText (slots d) :=
        funext fun d ↦ Isolation.slotText_of_ne (h slots rfl d)
      rw [Isolation.canonicalLimitsOf, htext, Format.canonicalLimits]

theorem Rust.fieldText_readSlot (slot : Slot) : Rust.fieldText (Rust.readSlot slot) = Format.slotText slot := by
  cases slot with
  | absent => rfl
  | null => rfl
  | count n =>
    have hsafe := n.safe
    have hvalue : (UInt64.ofNat n.value).toNat = n.value := by
      rw [UInt64.toNat_ofNat']
      omega
    simp only [Rust.readSlot, Rust.fieldText, Format.slotText, hvalue]

theorem intercalate_six (separator a b c d e f : String) : separator.intercalate [a, b, c, d, e, f] =
    a ++ separator ++ b ++ separator ++ c ++ separator ++ d ++ separator ++ e ++ separator ++ f := by
  rfl

theorem Rust.canonicalLimits_readLimits : Rust.canonicalLimits (Rust.readLimits value) = Format.canonicalLimits value := by
  cases value with
  | none => rfl
  | some =>
    -- The crate has the separators and the signs of equality inside the texts of its format.
    have hcpu : ";cpuSeconds=" = String.singleton ';' ++ ("cpuSeconds" ++ "=") := by rfl
    have hopen : ";openFiles=" = String.singleton ';' ++ ("openFiles" ++ "=") := by rfl
    have hprocesses : ";processes=" = String.singleton ';' ++ ("processes" ++ "=") := by rfl
    have hfile : ";fileSizeBytes=" = String.singleton ';' ++ ("fileSizeBytes" ++ "=") := by rfl
    have hcore : ";coreDumpBytes=" = String.singleton ';' ++ ("coreDumpBytes" ++ "=") := by rfl
    have hmemory : "memoryBytes=" = "memoryBytes" ++ "=" := by rfl
    change Rust.CapabilityLimits.format _ = Format.limitsText _
    unfold Rust.CapabilityLimits.format Format.limitsText Dimension.all
    simp only [Rust.fieldText_readSlot, List.map]
    simp only [intercalate_six, hcpu, hopen, hprocesses, hfile, hcore, hmemory, Dimension.name, String.append_assoc]

end

def macOf (host : Host) (secret : Bytes) (scope : List String) (limits : String) : String :=
  hex (host.hmac secret (feedAll (scope ++ [limits]))).toList

/-- The three encoders write one text for a value, and sign the same token with it, and each tells values with other
constraints apart. -/
structure LimitsValue.Encoded (value : LimitsValue) : Prop where
  package : Isolation.canonicalLimitsOf value = Format.canonicalLimits value
  crate : Format.canonicalLimits value = Rust.canonicalLimits (Rust.readLimits value)
  signed : ∀ host secret scope,
    macOf host secret scope (Isolation.canonicalLimitsOf value) = macOf host secret scope (Format.canonicalLimits value) ∧
    macOf host secret scope (Format.canonicalLimits value) =
      macOf host secret scope (Rust.canonicalLimits (Rust.readLimits value))
  isolationInjective : ∀ other, Isolation.canonicalLimitsOf value = Isolation.canonicalLimitsOf other →
    value.SameConstraints other
  packageInjective : ∀ other, Format.canonicalLimits value = Format.canonicalLimits other → value.SameConstraints other
  crateInjective : ∀ other, Rust.canonicalLimits (Rust.readLimits value) = Rust.canonicalLimits (Rust.readLimits other) →
    value.SameConstraints other

theorem encoded_iff (value : LimitsValue) : value.Encoded ↔ value.Complete := by
  constructor
  · intro h
    exact canonicalLimits_agree.mp h.package
  · intro h
    have hpackage := canonicalLimits_agree.mpr h
    refine ⟨hpackage, Rust.canonicalLimits_readLimits.symm, ?_, ?_, ?_, ?_⟩
    · intro host secret scope
      rw [hpackage, Rust.canonicalLimits_readLimits]
      exact ⟨rfl, rfl⟩
    · intro other heq
      exact Isolation.canonicalLimitsOf_sameConstraints heq
    · intro other heq
      exact Format.canonicalLimits_sameConstraints heq
    · intro other heq
      rw [Rust.canonicalLimits_readLimits, Rust.canonicalLimits_readLimits] at heq
      exact Format.canonicalLimits_sameConstraints heq

/-- One byte of memory and nothing else: the dimensions left out are `undefined` to the one and `-` to the other. -/
def oneByte : LimitsValue := some fun d ↦ if d = .memoryBytes then .count ⟨1, by decide⟩ else .absent

theorem oneByte_encoded_apart : Isolation.canonicalLimitsOf oneByte ≠ Format.canonicalLimits oneByte := by
  rw [ne_eq, canonicalLimits_agree]
  intro h
  exact h _ rfl .cpuSeconds (by decide)

end Noesar.Capability
