import Noesar.Lib.Fallible
import Noesar.Lib.JsonOrder
import Noesar.Workspace.Codec

namespace Noesar.Workspace.RunStore

open Lib Lib.Utf16
open Author (text)

variable {ν δ : Type}

namespace Value

def isUndefined : Value ν δ → Bool
  | .undefined => true
  | _ => false

/-- The value without the members that hold `undefined`. -/
def strip : Value ν δ → Value ν δ :=
  fold ⟨.undefined, .null, .bool, .number, .string, fun items ↦ .array (items.map Prod.snd),
    fun entries ↦ .map (entries.map fun e ↦ (e.1, e.2.2)), fun values ↦ .set (values.map Prod.snd), .date, .buffer,
    fun members ↦ .object ((members.filter fun m ↦ !m.2.1.isUndefined).map fun m ↦ (m.1, m.2.2)), .classInstance, .other⟩

def WellFormed (platform : Platform ν δ) : Value ν δ → Prop :=
  fold ⟨True, True, fun _ ↦ True, fun _ ↦ True, fun _ ↦ True, fun items ↦ ∀ item ∈ items, item.2,
    fun entries ↦ (entries.map Prod.fst).Nodup ∧ ∀ e ∈ entries, e.2.2,
    fun values ↦ (values.map Prod.fst).Pairwise (fun v w ↦ sameValue platform w v = false) ∧ ∀ value ∈ values, value.2,
    fun _ ↦ True, fun _ ↦ True, fun members ↦ (members.map Prod.fst).Nodup ∧ ∀ m ∈ members, m.2.2, fun _ ↦ True,
    fun _ ↦ True⟩

/-- What the codec takes: finite numbers, maps with strings for keys, valid dates, and plain objects without
the reserved key. -/
def Storable (platform : Platform ν δ) : Value ν δ → Prop :=
  fold ⟨True, True, fun _ ↦ True, fun n ↦ platform.finite n = true, fun _ ↦ True, fun items ↦ ∀ item ∈ items, item.2,
    fun entries ↦ ∀ e ∈ entries, e.1 ≠ none ∧ e.2.2, fun values ↦ ∀ value ∈ values, value.2,
    fun d ↦ platform.toISOString d ≠ none, fun _ ↦ True,
    fun members ↦ tag ∉ members.map Prod.fst ∧ ∀ m ∈ members, m.2.2, fun _ ↦ False, fun _ ↦ False⟩

/-- No `undefined` but in a member of an object, no negative zero, and no member `__proto__`. -/
def Carried (platform : Platform ν δ) : Value ν δ → Prop :=
  fold ⟨False, True, fun _ ↦ True, fun n ↦ platform.negativeZero n = false, fun _ ↦ True, fun items ↦ ∀ item ∈ items, item.2,
    fun entries ↦ ∀ e ∈ entries, e.2.2, fun values ↦ ∀ value ∈ values, value.2, fun _ ↦ True, fun _ ↦ True,
    fun members ↦ ∀ m ∈ members, m.2.1.isUndefined = true ∨ m.1 ≠ protoKey ∧ m.2.2, fun _ ↦ True, fun _ ↦ True⟩

end Value

def ComesBack (platform : Platform ν δ) (value : Value ν δ) : Prop :=
  (∃ thrown, encodeValue platform value (text "run") = .error thrown) ∨ reload platform value = .ok value.strip

/-- The documented behaviour of numbers and dates: a finite number is read back from its text, a negative zero
as zero, and a date from its ISO text. -/
structure Platform.Rereads (platform : Platform ν δ) : Prop where
  numeral : ∀ n, platform.finite n = true → Json.Numeric (platform.write n)
  reread : ∀ n, platform.finite n = true →
    platform.read (platform.write n) = some (if platform.negativeZero n then platform.zero else n)
  zero : platform.negativeZero platform.zero = false
  date : ∀ d iso, platform.toISOString d = some iso → platform.date (some (.string iso)) = d

def Platform.reread (platform : Platform ν δ) (n : ν) : ν := if platform.negativeZero n then platform.zero else n

def stored (platform : Platform ν δ) : Value ν δ → Option (Json Units ν) :=
  Value.fold ⟨none, some .null, fun b ↦ some (.bool b), fun n ↦ some (.number n), fun s ↦ some (.string s),
    fun items ↦ some (.array (items.map fun item ↦ item.2.getD .null)),
    fun entries ↦ some (.object [(tag, .string (text "Map")),
      (text "entries", .array (entries.map fun e ↦ .array [.string (e.1.getD []), e.2.2.getD .null]))]),
    fun values ↦ some (.object [(tag, .string (text "Set")), (text "values", .array (values.map fun v ↦ v.2.getD .null))]),
    fun d ↦ some (.object [(tag, .string (text "Date")), (text "iso", .string ((platform.toISOString d).getD []))]),
    fun bytes ↦ some (.object [(tag, .string (text "Buffer")),
      (text "base64", .string (encode (Base64Padded.encode bytes)))]),
    fun members ↦ some (.object (members.filterMap fun m ↦ if m.1 = protoKey then none else m.2.2.map (m.1, ·))),
    fun _ ↦ none, fun _ ↦ none⟩

def recovered (platform : Platform ν δ) : Value ν δ → Value ν δ :=
  Value.fold ⟨.undefined, .null, .bool, fun n ↦ .number (platform.reread n), .string,
    fun items ↦ .array (items.map fun item ↦ if item.1.isUndefined then .null else item.2),
    fun entries ↦ .map (entries.map fun e ↦ (e.1, if e.2.1.isUndefined then .null else e.2.2)),
    fun values ↦ .set (newSet platform (values.map fun v ↦ if v.1.isUndefined then .null else v.2)), .date, .buffer,
    fun members ↦ .object ((members.filter fun m ↦ !m.2.1.isUndefined && m.1 ≠ protoKey).map fun m ↦ (m.1, m.2.2)),
    .classInstance, .other⟩

section Equations

variable {platform : Platform ν δ} (items : List (Value ν δ)) (entries : List (Option Units × Value ν δ))
  (members : List (Units × Value ν δ))

@[simp] theorem strip_array : (Value.array items).strip = .array (items.map Value.strip) := by
  rw [Value.strip, Value.fold_array]
  dsimp only
  rw [List.map_map]
  rfl

@[simp] theorem strip_map : (Value.map entries).strip = .map (entries.map fun e ↦ (e.1, e.2.strip)) := by
  rw [Value.strip, Value.fold_map]
  dsimp only
  rw [List.map_map]
  rfl

@[simp] theorem strip_set : (Value.set items).strip = .set (items.map Value.strip) := by
  rw [Value.strip, Value.fold_set]
  dsimp only
  rw [List.map_map]
  rfl

@[simp] theorem strip_object : (Value.object members).strip =
    .object ((members.filter fun m ↦ !m.2.isUndefined).map fun m ↦ (m.1, m.2.strip)) := by
  rw [Value.strip, Value.fold_object]
  dsimp only
  rw [List.filter_map, List.map_map]
  rfl

@[simp] theorem wellFormed_array : (Value.array items).WellFormed platform ↔ ∀ v ∈ items, v.WellFormed platform := by
  rw [Value.WellFormed, Value.fold_array]
  dsimp only
  rw [List.forall_mem_map]

@[simp] theorem wellFormed_map : (Value.map entries).WellFormed platform ↔
    (entries.map Prod.fst).Nodup ∧ ∀ e ∈ entries, e.2.WellFormed platform := by
  rw [Value.WellFormed, Value.fold_map]
  dsimp only
  rw [List.forall_mem_map, List.map_map]
  rfl

@[simp] theorem wellFormed_set : (Value.set items).WellFormed platform ↔
    items.Pairwise (fun v w ↦ sameValue platform w v = false) ∧ ∀ v ∈ items, v.WellFormed platform := by
  rw [Value.WellFormed, Value.fold_set]
  dsimp only
  rw [List.forall_mem_map, List.map_map]
  exact and_congr_left fun _ ↦ by rw [show Prod.fst ∘ (fun v : Value ν δ ↦ (v, _)) = id from rfl, List.map_id]

@[simp] theorem wellFormed_object : (Value.object members).WellFormed platform ↔
    (members.map Prod.fst).Nodup ∧ ∀ m ∈ members, m.2.WellFormed platform := by
  rw [Value.WellFormed, Value.fold_object]
  dsimp only
  rw [List.forall_mem_map, List.map_map]
  rfl

@[simp] theorem storable_array : (Value.array items).Storable platform ↔ ∀ v ∈ items, v.Storable platform := by
  rw [Value.Storable, Value.fold_array]
  dsimp only
  rw [List.forall_mem_map]

@[simp] theorem storable_map : (Value.map entries).Storable platform ↔
    ∀ e ∈ entries, e.1 ≠ none ∧ e.2.Storable platform := by
  rw [Value.Storable, Value.fold_map]
  dsimp only
  rw [List.forall_mem_map]

@[simp] theorem storable_set : (Value.set items).Storable platform ↔ ∀ v ∈ items, v.Storable platform := by
  rw [Value.Storable, Value.fold_set]
  dsimp only
  rw [List.forall_mem_map]

@[simp] theorem storable_object : (Value.object members).Storable platform ↔
    tag ∉ members.map Prod.fst ∧ ∀ m ∈ members, m.2.Storable platform := by
  rw [Value.Storable, Value.fold_object]
  dsimp only
  rw [List.forall_mem_map, List.map_map]
  rfl

@[simp] theorem carried_array : (Value.array items).Carried platform ↔ ∀ v ∈ items, v.Carried platform := by
  rw [Value.Carried, Value.fold_array]
  dsimp only
  rw [List.forall_mem_map]

@[simp] theorem carried_map : (Value.map entries).Carried platform ↔ ∀ e ∈ entries, e.2.Carried platform := by
  rw [Value.Carried, Value.fold_map]
  dsimp only
  rw [List.forall_mem_map]

@[simp] theorem carried_set : (Value.set items).Carried platform ↔ ∀ v ∈ items, v.Carried platform := by
  rw [Value.Carried, Value.fold_set]
  dsimp only
  rw [List.forall_mem_map]

@[simp] theorem carried_object : (Value.object members).Carried platform ↔
    ∀ m ∈ members, m.2.isUndefined = true ∨ m.1 ≠ protoKey ∧ m.2.Carried platform := by
  rw [Value.Carried, Value.fold_object]
  dsimp only
  rw [List.forall_mem_map]

/-- What comes back of an item, which is `null` for `undefined`. -/
def recoveredItem (platform : Platform ν δ) (v : Value ν δ) : Value ν δ :=
  if v.isUndefined then .null else recovered platform v

@[simp] theorem recovered_array : recovered platform (.array items) = .array (items.map (recoveredItem platform)) := by
  rw [recovered, Value.fold_array]
  dsimp only
  rw [List.map_map]
  rfl

@[simp] theorem recovered_map : recovered platform (.map entries) =
    .map (entries.map fun e ↦ (e.1, recoveredItem platform e.2)) := by
  rw [recovered, Value.fold_map]
  dsimp only
  rw [List.map_map]
  rfl

@[simp] theorem recovered_set : recovered platform (.set items) =
    .set (newSet platform (items.map (recoveredItem platform))) := by
  rw [recovered, Value.fold_set]
  dsimp only
  rw [List.map_map]
  rfl

@[simp] theorem recovered_object : recovered platform (.object members) =
    .object ((members.filter fun m ↦ !m.2.isUndefined && m.1 ≠ protoKey).map fun m ↦ (m.1, recovered platform m.2)) := by
  rw [recovered, Value.fold_object]
  dsimp only
  rw [List.filter_map, List.map_map]
  rfl

end Equations

section Sets

variable {platform : Platform ν δ}

theorem newSet_step (seen values : List (Value ν δ)) :
    ∃ kept, values.foldl (fun seen v ↦ if seen.any (sameValue platform v) then seen else seen ++ [v]) seen = seen ++ kept ∧
      kept.Sublist values := by
  induction values generalizing seen with
  | nil => exact ⟨[], by simp, .slnil⟩
  | cons v values ih =>
    rw [List.foldl_cons]
    split_ifs
    · obtain ⟨kept, hkept, hsub⟩ := ih seen
      exact ⟨kept, hkept, hsub.cons v⟩
    · obtain ⟨kept, hkept, hsub⟩ := ih (seen ++ [v])
      exact ⟨v :: kept, by rw [hkept]; simp, hsub.cons_cons v⟩

theorem newSet_sublist (values : List (Value ν δ)) : (newSet platform values).Sublist values := by
  obtain ⟨kept, hkept, hsub⟩ := @newSet_step ν δ platform [] values
  unfold newSet
  rwa [hkept, List.nil_append]

theorem newSet_of_pairwise {values : List (Value ν δ)} (h : values.Pairwise fun v w ↦ sameValue platform w v = false) :
    newSet platform values = values := by
  have hgeneral (seen : List (Value ν δ)) (hseen : ∀ s ∈ seen, ∀ v ∈ values, sameValue platform v s = false) :
      values.foldl (fun seen v ↦ if seen.any (sameValue platform v) then seen else seen ++ [v]) seen = seen ++ values := by
    induction values generalizing seen with
    | nil => simp
    | cons v values ih =>
      obtain ⟨hv, hvalues⟩ := List.pairwise_cons.mp h
      have hnew : ¬seen.any (sameValue platform v) = true := by
        simpa using fun s hs ↦ hseen s hs v List.mem_cons_self
      rw [List.foldl_cons, if_neg hnew, ih hvalues]
      · simp
      · intro s hs w hw
        rcases List.mem_append.mp hs with hs | hs
        · exact hseen s hs w (List.mem_cons_of_mem _ hw)
        · cases List.mem_singleton.mp hs
          exact hv w hw
  exact hgeneral [] fun s hs ↦ absurd hs List.not_mem_nil

theorem sameValue_strip (v w : Value ν δ) : sameValue platform v.strip w.strip = sameValue platform v w := by
  cases v with
  | array => rw [strip_array]; rfl
  | map => rw [strip_map]; rfl
  | set => rw [strip_set]; rfl
  | object => rw [strip_object]; rfl
  | undefined | null | bool b | number n | string s | date d | buffer bytes | classInstance name | other type =>
    cases w with
    | array => rw [strip_array]; rfl
    | map => rw [strip_map]; rfl
    | set => rw [strip_set]; rfl
    | object => rw [strip_object]; rfl
    | undefined | null | bool c | number m | string t | date e | buffer bytes | classInstance name | other type => rfl

end Sets

section Recovery

variable {platform : Platform ν δ}

theorem isUndefined_iff {v : Value ν δ} : v.isUndefined = true ↔ v = .undefined := by
  cases v <;> simp [Value.isUndefined]

theorem recoveredItem_iff {v : Value ν δ} (ih : v ≠ .undefined → (recovered platform v = v.strip ↔ v.Carried platform)) :
    recoveredItem platform v = v.strip ↔ v.Carried platform := by
  by_cases hv : v = .undefined
  · subst hv
    refine iff_of_false ?_ id
    intro h
    cases h
  · have hnot : ¬v.isUndefined = true := fun h ↦ hv (isUndefined_iff.mp h)
    rw [recoveredItem, if_neg hnot]
    exact ih hv

theorem recovered_iff (hzero : platform.negativeZero platform.zero = false) (v : Value ν δ) (hv : v.WellFormed platform)
    (hne : v ≠ .undefined) : recovered platform v = v.strip ↔ v.Carried platform := by
  induction v with
  | undefined => exact absurd rfl hne
  | null | bool => exact iff_of_true rfl trivial
  | number n =>
    change Value.number (platform.reread n) = Value.number n ↔ platform.negativeZero n = false
    unfold Platform.reread
    by_cases hn : platform.negativeZero n = true
    · rw [if_pos hn, hn]
      refine iff_of_false ?_ nofun
      intro h
      rw [← (Value.number.inj h)] at hn
      rw [hzero] at hn
      cases hn
    · rw [if_neg hn]
      exact iff_of_true rfl (by simpa using hn)
  | string => exact iff_of_true rfl trivial
  | array items ih =>
    rw [wellFormed_array] at hv
    rw [recovered_array, strip_array, carried_array, Value.array.injEq, List.map_inj_left]
    exact forall₂_congr fun v hmem ↦ recoveredItem_iff (ih v hmem (hv v hmem))
  | map entries ih =>
    rw [wellFormed_map] at hv
    rw [recovered_map, strip_map, carried_map, Value.map.injEq, List.map_inj_left]
    refine forall₂_congr fun e hmem ↦ ?_
    rw [Prod.mk.injEq, and_iff_right rfl]
    exact recoveredItem_iff (ih e hmem (hv.2 e hmem))
  | set values ih =>
    rw [wellFormed_set] at hv
    rw [recovered_set, strip_set, carried_set, Value.set.injEq]
    have hdistinct : newSet platform (values.map Value.strip) = values.map Value.strip := by
      apply newSet_of_pairwise
      rw [List.pairwise_map]
      exact hv.1.imp fun h ↦ by rwa [sameValue_strip]
    have hitems : values.map (recoveredItem platform) = values.map Value.strip ↔ ∀ v ∈ values, v.Carried platform := by
      rw [List.map_inj_left]
      exact forall₂_congr fun v hmem ↦ recoveredItem_iff (ih v hmem (hv.2 v hmem))
    rw [← hitems]
    constructor
    · intro h
      have hsub := @newSet_sublist ν δ platform (values.map (recoveredItem platform))
      rw [h] at hsub
      exact (hsub.eq_of_length (by simp)).symm
    · intro h
      rw [h, hdistinct]
  | date | buffer => exact iff_of_true rfl trivial
  | object members ih =>
    rw [wellFormed_object] at hv
    rw [recovered_object, strip_object, carried_object, Value.object.injEq]
    have hmember : ∀ m ∈ members, ¬m.2.isUndefined = true → (recovered platform m.2 = m.2.strip ↔ m.2.Carried platform) :=
      fun m hmem hm ↦ ih m hmem (hv.2 m hmem) fun h ↦ hm (isUndefined_iff.mpr h)
    constructor
    · intro h m hmem
      by_cases hm : m.2.isUndefined = true
      · exact .inl hm
      · have hsplit : (members.filter fun m ↦ !m.2.isUndefined && m.1 ≠ protoKey) =
            (members.filter fun m ↦ !m.2.isUndefined).filter fun m ↦ decide (m.1 ≠ protoKey) := by
          rw [List.filter_filter]
          exact List.filter_congr fun m _ ↦ Bool.and_comm _ _
        rw [hsplit] at h
        have hlength := congrArg List.length h
        rw [List.length_map, List.length_map] at hlength
        have hall := (@List.filter_sublist _ (fun m : Units × Value ν δ ↦ decide (m.1 ≠ protoKey)) _).eq_of_length hlength
        rw [hall, List.map_inj_left] at h
        have hin : m ∈ members.filter fun m ↦ !m.2.isUndefined := by simp [hmem, hm]
        have hkey : m.1 ≠ protoKey := by
          rw [← hall] at hin
          simpa using (List.mem_filter.mp hin).2
        have hsame := (Prod.mk.inj (h m hin)).2
        exact .inr ⟨hkey, (hmember m hmem hm).mp hsame⟩
    · intro h
      have hfilter : (members.filter fun m ↦ !m.2.isUndefined && m.1 ≠ protoKey) = members.filter fun m ↦ !m.2.isUndefined := by
        refine List.filter_congr fun m hmem ↦ ?_
        rcases h m hmem with hm | ⟨hkey, -⟩
        · simp [hm]
        · simp [hkey]
      rw [hfilter, List.map_inj_left]
      intro m hin
      obtain ⟨hmem, hm⟩ := List.mem_filter.mp hin
      have hnot : ¬m.2.isUndefined = true := by simpa using hm
      rcases h m hmem with hundefined | ⟨-, hcarried⟩
      · exact absurd hundefined hnot
      · rw [(hmember m hmem hnot).mpr hcarried]
  | classInstance | other => exact iff_of_true rfl trivial

end Recovery

section Encoding

variable {platform : Platform ν δ}

theorem toJson_items (items : List (Encoded ν)) : Encoded.toJson.items items = items.map fun e ↦ e.toJson.getD .null := by
  induction items with
  | nil => rfl
  | cons item items ih => rw [Encoded.toJson.items, ih, List.map_cons]

theorem toJson_members (members : List (Units × Encoded ν)) :
    Encoded.toJson.members members = members.filterMap fun m ↦ m.2.toJson.map (m.1, ·) := by
  induction members with
  | nil => rfl
  | cons m members ih =>
    obtain ⟨key, item⟩ := m
    rw [Encoded.toJson.members, List.filterMap_cons, ih]
    cases item.toJson with
    | none => rfl
    | some => rfl

@[simp] theorem toJson_array (items : List (Encoded ν)) :
    (Encoded.array items).toJson = some (.array (items.map fun e ↦ e.toJson.getD .null)) := by
  rw [Encoded.toJson, toJson_items]

@[simp] theorem toJson_object (members : List (Units × Encoded ν)) :
    (Encoded.object members).toJson = some (.object (members.filterMap fun m ↦ m.2.toJson.map (m.1, ·))) := by
  rw [Encoded.toJson, toJson_members]

theorem mapM_zipIdx_cases {ε α β : Type} {f : α × ℕ → Except ε β} {good : α → Prop} {R : α → β → Prop} {xs : List α}
    (h : ∀ x ∈ xs, ∀ i, (good x ∧ ∃ y, f (x, i) = .ok y ∧ R x y) ∨ ¬good x ∧ ∃ e, f (x, i) = .error e) (k : ℕ) :
    ((∀ x ∈ xs, good x) ∧ ∃ ys, (xs.zipIdx k).mapM f = .ok ys ∧ List.Forall₂ R xs ys) ∨
      (¬∀ x ∈ xs, good x) ∧ ∃ e, (xs.zipIdx k).mapM f = .error e := by
  induction xs generalizing k with
  | nil => exact .inl ⟨fun x hx ↦ absurd hx List.not_mem_nil, [], rfl, .nil⟩
  | cons x xs ih =>
    rw [List.zipIdx_cons, List.mapM_cons]
    rcases h x List.mem_cons_self k with ⟨hgood, y, hy, hR⟩ | ⟨hbad, e, he⟩
    · rcases ih (fun x hx ↦ h x (List.mem_cons_of_mem _ hx)) (k + 1) with ⟨hall, ys, hys, hRs⟩ | ⟨hbad, e, he⟩
      · refine .inl ⟨List.forall_mem_cons.mpr ⟨hgood, hall⟩, y :: ys, ?_, .cons hR hRs⟩
        rw [hy, hys]
        rfl
      · refine .inr ⟨fun hall ↦ hbad (List.forall_mem_cons.mp hall).2, e, ?_⟩
        rw [hy, he]
        rfl
    · refine .inr ⟨fun hall ↦ hbad (List.forall_mem_cons.mp hall).1, e, ?_⟩
      rw [he]
      rfl

/-- A value is encoded, to what is written of it, or refused, as it is storable or not. -/
def Encodes (platform : Platform ν δ) (v : Value ν δ) : Prop :=
  ∀ path, (v.Storable platform ∧ ∃ e, encodeValue platform v path = .ok e ∧ e.toJson = stored platform v) ∨
    ¬v.Storable platform ∧ ∃ thrown, encodeValue platform v path = .error thrown

theorem stored_array (items : List (Value ν δ)) : stored platform (.array items) =
    some (.array (items.map fun v ↦ (stored platform v).getD .null)) := by
  rw [stored, Value.fold_array]
  dsimp only
  rw [List.map_map]
  rfl

theorem stored_map (entries : List (Option Units × Value ν δ)) : stored platform (.map entries) =
    some (.object [(tag, .string (text "Map")), (text "entries",
      .array (entries.map fun e ↦ .array [.string (e.1.getD []), (stored platform e.2).getD .null]))]) := by
  rw [stored, Value.fold_map]
  dsimp only
  rw [List.map_map]
  rfl

theorem stored_set (values : List (Value ν δ)) : stored platform (.set values) =
    some (.object [(tag, .string (text "Set")), (text "values",
      .array (values.map fun v ↦ (stored platform v).getD .null))]) := by
  rw [stored, Value.fold_set]
  dsimp only
  rw [List.map_map]
  rfl

theorem stored_object (members : List (Units × Value ν δ)) : stored platform (.object members) =
    some (.object (members.filterMap fun m ↦ if m.1 = protoKey then none else (stored platform m.2).map (m.1, ·))) := by
  rw [stored, Value.fold_object]
  dsimp only
  rw [List.filterMap_map]
  rfl

theorem map_of_forall₂ {α β γ : Type} {R : α → β → Prop} {f : α → γ} {g : β → γ} {xs : List α} {ys : List β}
    (h : List.Forall₂ R xs ys) (hR : ∀ x y, R x y → g y = f x) : ys.map g = xs.map f := by
  induction h with
  | nil => rfl
  | cons hxy _ ih => rw [List.map_cons, List.map_cons, hR _ _ hxy, ih]

theorem encodes_items {items : List (Value ν δ)} (ih : ∀ v ∈ items, Encodes platform v) (place : ℕ → Units) :
    ((∀ v ∈ items, v.Storable platform) ∧ ∃ es, (items.zipIdx.mapM fun p ↦ encodeValue platform p.1 (place p.2)) = .ok es ∧
      es.map (fun e ↦ e.toJson.getD .null) = items.map fun v ↦ (stored platform v).getD .null) ∨
    (¬∀ v ∈ items, v.Storable platform) ∧
      ∃ thrown, (items.zipIdx.mapM fun p ↦ encodeValue platform p.1 (place p.2)) = .error thrown := by
  have hcases := mapM_zipIdx_cases (f := fun p : Value ν δ × ℕ ↦ encodeValue platform p.1 (place p.2))
    (fun v hv i ↦ ih v hv (place i)) 0
  rcases hcases with ⟨hall, es, hes, hRs⟩ | hbad
  · refine .inl ⟨hall, es, hes, map_of_forall₂ hRs ?_⟩
    intro v e he
    rw [he]
  · exact .inr hbad

theorem encodes_array {items : List (Value ν δ)} (ih : ∀ v ∈ items, Encodes platform v) : Encodes platform (.array items) := by
  intro path
  have hencode : encodeValue platform (.array items) path = (do
      let encoded ← (items.zipIdx.mapM fun p ↦ encodeValue platform p.1 (path ++ text "[" ++ shownIndex p.2 ++ text "]"))
      pure (.array encoded)) := by
    rw [encodeValue, Value.fold_array]
    dsimp only [encoder]
    rw [List.zipIdx_map, List.mapM_map]
    rfl
  rw [hencode, storable_array]
  rcases encodes_items ih fun i ↦ path ++ text "[" ++ shownIndex i ++ text "]" with ⟨hall, es, hes, hsame⟩ | ⟨hbad, e, he⟩
  · refine .inl ⟨hall, .array es, ?_, ?_⟩
    · rw [hes]
      rfl
    · rw [toJson_array, stored_array, hsame]
  · refine .inr ⟨hbad, e, ?_⟩
    rw [he]
    rfl

theorem encodes_set {values : List (Value ν δ)} (ih : ∀ v ∈ values, Encodes platform v) : Encodes platform (.set values) := by
  intro path
  have hencode : encodeValue platform (.set values) path = (do
      let encoded ← (values.zipIdx.mapM fun p ↦ encodeValue platform p.1 (path ++ text "<" ++ shownIndex p.2 ++ text ">"))
      pure (.object [(tag, .string (text "Set")), (text "values", .array encoded)])) := by
    rw [encodeValue, Value.fold_set]
    dsimp only [encoder]
    rw [List.zipIdx_map, List.mapM_map]
    rfl
  rw [hencode, storable_set]
  rcases encodes_items ih fun i ↦ path ++ text "<" ++ shownIndex i ++ text ">" with ⟨hall, es, hes, hsame⟩ | ⟨hbad, e, he⟩
  · refine .inl ⟨hall, .object [(tag, .string (text "Set")), (text "values", .array es)], ?_, ?_⟩
    · rw [hes]
      rfl
    · rw [toJson_object, stored_set, ← hsame]
      simp [Encoded.toJson, toJson_items]
  · refine .inr ⟨hbad, e, ?_⟩
    rw [he]
    rfl

def encodeEntry (platform : Platform ν δ) (path : Units) (p : (Option Units × Value ν δ) × ℕ) : Except Thrown (Encoded ν) :=
  match p.1.1 with
  | none => unsupported (path ++ text " is a Map with a non-string key at " ++ shownIndex p.2)
  | some key => do
    let item ← encodeValue platform p.1.2 (path ++ text ".get(" ++ key ++ text ")")
    pure (.array [.string key, item])

theorem encodes_map {entries : List (Option Units × Value ν δ)} (ih : ∀ e ∈ entries, Encodes platform e.2) :
    Encodes platform (.map entries) := by
  intro path
  have hencode : encodeValue platform (.map entries) path = (do
      let encoded ← entries.zipIdx.mapM (encodeEntry platform path)
      pure (.object [(tag, .string (text "Map")), (text "entries", .array encoded)])) := by
    rw [encodeValue, Value.fold_map]
    dsimp only [encoder]
    rw [List.zipIdx_map, List.mapM_map]
    rfl
  have hcases := @mapM_zipIdx_cases _ _ _ (encodeEntry platform path) (fun e ↦ e.1 ≠ none ∧ e.2.Storable platform)
    (fun e encoded ↦ encoded.toJson = some (.array [.string (e.1.getD []), (stored platform e.2).getD .null])) entries ?_ 0
  · rw [hencode, storable_map]
    rcases hcases with ⟨hall, es, hes, hRs⟩ | ⟨hbad, thrown, hthrown⟩
    · refine .inl ⟨hall, .object [(tag, .string (text "Map")), (text "entries", .array es)], ?_, ?_⟩
      · rw [hes]
        rfl
      · have hsame := map_of_forall₂ (g := fun e : Encoded ν ↦ e.toJson.getD .null) (f := fun e ↦
          .array [.string (e.1.getD []), (stored platform e.2).getD .null]) hRs fun e encoded h ↦ by rw [h]; rfl
        rw [toJson_object, stored_map, ← hsame]
        simp [Encoded.toJson, toJson_items]
    · refine .inr ⟨hbad, thrown, ?_⟩
      rw [hthrown]
      rfl
  · rintro ⟨key, v⟩ hmem i
    cases key with
    | none => exact .inr ⟨fun h ↦ h.1 rfl, _, rfl⟩
    | some key =>
      rcases ih _ hmem (path ++ text ".get(" ++ key ++ text ")") with ⟨hv, e, he, hsame⟩ | ⟨hv, thrown, hthrown⟩
      · refine .inl ⟨⟨Option.some_ne_none key, hv⟩, .array [.string key, e], ?_, ?_⟩
        · dsimp only [encodeEntry]
          rw [he]
          rfl
        · rw [toJson_array, ← hsame]
          rfl
      · refine .inr ⟨fun h ↦ hv h.2, thrown, ?_⟩
        dsimp only [encodeEntry]
        rw [hthrown]
        rfl

theorem put_kept (out : List (Units × Encoded ν)) (key : Units) (e : Encoded ν) :
    ∃ kept : List (Units × Encoded ν), (match e with
      | .undefined => (pure out : Except Thrown (List (Units × Encoded ν)))
      | encoded => pure (assign out key encoded)) = .ok (out ++ kept) ∧
      kept.filterMap (fun m ↦ m.2.toJson.map (m.1, ·)) =
        (if key = protoKey then none else e.toJson.map (key, ·)).toList := by
  by_cases hkey : key = protoKey
  · refine ⟨[], ?_, by rw [if_pos hkey]; rfl⟩
    cases e <;> simp [assign, hkey, pure, Except.pure]
  · rw [if_neg hkey]
    cases e with
    | undefined => exact ⟨[], by rw [List.append_nil]; rfl, rfl⟩
    | null | bool b | number n | string s | array items | object members =>
      exact ⟨[(key, _)], by dsimp only [assign]; rw [if_neg hkey]; rfl, rfl⟩

theorem encodes_members {members : List (Units × Value ν δ)} (ih : ∀ m ∈ members, Encodes platform m.2) (path : Units)
    (out : List (Units × Encoded ν)) :
    let put := fun (out : List (Units × Encoded ν)) (m : Units × Value ν δ) ↦ do
      match ← encodeValue platform m.2 (path ++ text "." ++ m.1) with
      | .undefined => pure out
      | encoded => pure (assign out m.1 encoded)
    ((∀ m ∈ members, m.2.Storable platform) ∧ ∃ es, members.foldlM put out = .ok (out ++ es) ∧
      es.filterMap (fun m ↦ m.2.toJson.map (m.1, ·)) =
        members.filterMap fun m ↦ if m.1 = protoKey then none else (stored platform m.2).map (m.1, ·)) ∨
    (¬∀ m ∈ members, m.2.Storable platform) ∧ ∃ thrown, members.foldlM put out = .error thrown := by
  intro put
  induction members generalizing out with
  | nil => exact .inl ⟨fun m hm ↦ absurd hm List.not_mem_nil, [], by simp [pure, Except.pure], rfl⟩
  | cons m members IH =>
    obtain ⟨key, v⟩ := m
    rw [List.foldlM_cons]
    rcases ih _ List.mem_cons_self (path ++ text "." ++ key) with ⟨hv, e, he, hsame⟩ | ⟨hv, thrown, hthrown⟩
    · have hput : ∃ kept, put out (key, v) = .ok (out ++ kept) ∧ kept.filterMap (fun m ↦ m.2.toJson.map (m.1, ·)) =
          (if key = protoKey then none else (stored platform v).map (key, ·)).toList := by
        obtain ⟨kept, hkept, hfirst⟩ := put_kept out key e
        refine ⟨kept, ?_, by rw [hfirst, hsame]⟩
        change (encodeValue platform v (path ++ text "." ++ key) >>= _) = _
        rw [he]
        exact hkept
      obtain ⟨kept, hkept, hfirst⟩ := hput
      rcases IH (fun m hm ↦ ih m (List.mem_cons_of_mem _ hm)) (out ++ kept) with ⟨hall, es, hes, hrest⟩ | ⟨hbad, thrown, hthrown⟩
      · refine .inl ⟨List.forall_mem_cons.mpr ⟨hv, hall⟩, kept ++ es, ?_, ?_⟩
        · rw [hkept, ← List.append_assoc]
          exact hes
        · rw [List.filterMap_append, hfirst, hrest, List.filterMap_cons]
          dsimp only
          cases (if key = protoKey then none else (stored platform v).map (key, ·)) with
          | none | some => rfl
      · refine .inr ⟨fun hall ↦ hbad (List.forall_mem_cons.mp hall).2, thrown, ?_⟩
        rw [hkept]
        exact hthrown
    · refine .inr ⟨fun hall ↦ hv (List.forall_mem_cons.mp hall).1, thrown, ?_⟩
      change (encodeValue platform v (path ++ text "." ++ key) >>= _) >>= _ = _
      rw [hthrown]
      rfl

theorem encodes_object {members : List (Units × Value ν δ)} (ih : ∀ m ∈ members, Encodes platform m.2) :
    Encodes platform (.object members) := by
  intro path
  have hencode : encodeValue platform (.object members) path =
      if tag ∈ members.map Prod.fst then unsupported (path ++ text " carries the reserved key `" ++ tag ++ text "`")
      else (do
        let out ← members.foldlM (fun out m ↦ do
          match ← encodeValue platform m.2 (path ++ text "." ++ m.1) with
          | .undefined => pure out
          | encoded => pure (assign out m.1 encoded)) []
        pure (.object out)) := by
    rw [encodeValue, Value.fold_object]
    dsimp only [encoder]
    rw [List.map_map, List.foldlM_map]
    rfl
  rw [hencode, storable_object]
  by_cases htag : tag ∈ members.map Prod.fst
  · rw [if_pos htag]
    exact .inr ⟨fun h ↦ h.1 htag, _, rfl⟩
  · rw [if_neg htag]
    rcases encodes_members ih path [] with ⟨hall, es, hes, hsame⟩ | ⟨hbad, thrown, hthrown⟩
    · refine .inl ⟨⟨htag, hall⟩, .object es, ?_, ?_⟩
      · rw [List.nil_append] at hes
        exact congrArg (· >>= fun out ↦ pure (Encoded.object out)) hes
      · rw [toJson_object, stored_object, hsame]
    · exact .inr ⟨fun h ↦ hbad h.2, thrown, congrArg (· >>= fun out ↦ pure (Encoded.object out)) hthrown⟩

theorem encodes (v : Value ν δ) : Encodes platform v := by
  induction v with
  | undefined => exact fun path ↦ .inl ⟨trivial, .undefined, rfl, rfl⟩
  | null => exact fun path ↦ .inl ⟨trivial, .null, rfl, rfl⟩
  | bool b => exact fun path ↦ .inl ⟨trivial, .bool b, rfl, rfl⟩
  | number n =>
    intro path
    change (platform.finite n = true ∧ ∃ e, (if platform.finite n = true then _ else _) = _ ∧ _) ∨
      ¬platform.finite n = true ∧ ∃ thrown, (if platform.finite n = true then _ else _) = _
    by_cases hn : platform.finite n = true
    · rw [if_pos hn]
      exact .inl ⟨hn, .number n, rfl, rfl⟩
    · rw [if_neg hn]
      exact .inr ⟨hn, _, rfl⟩
  | string s => exact fun path ↦ .inl ⟨trivial, .string s, rfl, rfl⟩
  | array items ih => exact encodes_array ih
  | map entries ih => exact encodes_map ih
  | set values ih => exact encodes_set ih
  | date d =>
    intro path
    have hencode : encodeValue platform (.date d) path = (encoder platform).date d path := rfl
    cases hd : platform.toISOString d with
    | none =>
      refine .inr ⟨fun h ↦ h hd, .other "RangeError", ?_⟩
      rw [hencode]
      dsimp only [encoder]
      rw [hd]
    | some iso =>
      refine .inl ⟨fun h ↦ ?_, .object [(tag, .string (text "Date")), (text "iso", .string iso)], ?_, ?_⟩
      · rw [hd] at h
        cases h
      · rw [hencode]
        dsimp only [encoder]
        rw [hd]
      · change _ = some (Json.object [(tag, .string (text "Date")), (text "iso", .string ((platform.toISOString d).getD []))])
        rw [hd]
        rfl
  | buffer => exact fun path ↦ .inl ⟨trivial, _, rfl, rfl⟩
  | object members ih => exact encodes_object ih
  | classInstance | other => exact fun path ↦ .inr ⟨id, _, rfl⟩

end Encoding

end Noesar.Workspace.RunStore
