import Noesar.Workspace.RoundTrip

namespace Noesar.Workspace.RunStore

open Lib Lib.Utf16
open Author (text)

variable {ν δ : Type} {platform : Platform ν δ}

section Decoding

theorem decode_array (items : List (Json Units ν)) :
    decode platform (.array items) = (decode.items platform items).map .array := by
  rw [decode]

variable {α : Type}

theorem decode_items {f : α → Json Units ν} {g : α → Value ν δ} {xs : List α}
    (h : ∀ x ∈ xs, decode platform (f x) = .ok (g x)) : decode.items platform (xs.map f) = .ok (xs.map g) := by
  induction xs with
  | nil => rw [List.map_nil, decode.items, List.map_nil]
  | cons x xs ih =>
    rw [List.map_cons, decode.items, h x List.mem_cons_self, ih fun y hy ↦ h y (List.mem_cons_of_mem _ hy)]
    rfl

theorem decode_members {key : α → Units} {f : α → Json Units ν} {g : α → Value ν δ} {xs : List α}
    (h : ∀ x ∈ xs, decode platform (f x) = .ok (g x)) :
    decode.members platform (xs.map fun x ↦ (key x, f x)) = .ok (xs.map fun x ↦ (key x, g x)) := by
  induction xs with
  | nil => rw [List.map_nil, decode.members, List.map_nil]
  | cons x xs ih =>
    rw [List.map_cons, decode.members, h x List.mem_cons_self, ih fun y hy ↦ h y (List.mem_cons_of_mem _ hy)]
    rfl

theorem decode_pairs {α : Type} {key : α → Units} {f : α → Json Units ν} {g : α → Value ν δ} {xs : List α}
    (h : ∀ x ∈ xs, decode platform (f x) = .ok (g x)) :
    decode.pairs platform (xs.map fun x ↦ .array [.string (key x), f x]) = .ok (xs.map fun x ↦ (some (key x), g x)) := by
  induction xs with
  | nil => rw [List.map_nil, decode.pairs, List.map_nil]
  | cons x xs ih =>
    rw [List.map_cons, decode.pairs, h x List.mem_cons_self, ih fun y hy ↦ h y (List.mem_cons_of_mem _ hy)]
    rfl

theorem decode_map (pairs : List (Json Units ν)) :
    decode platform (.object [(tag, .string (text "Map")), (text "entries", .array pairs)]) =
      (decode.pairs platform pairs).map fun entries ↦ .map (newMap entries) := by
  have hlookup : InsertionMap.lookup tag [(tag, Json.string (text "Map")), (text "entries", Json.array pairs)] =
      some (.string (text "Map")) := by
    rw [InsertionMap.lookup, if_pos rfl]
  have hentries : decode.entries platform [(tag, Json.string (text "Map")), (text "entries", Json.array pairs)] =
      decode.pairs platform pairs := by
    rw [decode.entries, if_neg (by decide), decode.entries, if_pos rfl]
    simp
  rw [decode, hlookup]
  dsimp only
  rw [if_pos rfl, hentries]

theorem decode_set (items : List (Json Units ν)) :
    decode platform (.object [(tag, .string (text "Set")), (text "values", .array items)]) =
      (decode.items platform items).map fun values ↦ .set (newSet platform values) := by
  have hlookup : InsertionMap.lookup tag [(tag, Json.string (text "Set")), (text "values", Json.array items)] =
      some (.string (text "Set")) := by
    rw [InsertionMap.lookup, if_pos rfl]
  have hvalues : decode.values platform [(tag, Json.string (text "Set")), (text "values", Json.array items)] =
      decode.items platform items := by
    rw [decode.values, if_neg (by decide), decode.values, if_pos rfl]
    simp
  rw [decode, hlookup]
  dsimp only
  rw [if_neg (by decide), if_pos rfl, hvalues]

theorem decode_date (iso : Units) :
    decode platform (.object [(tag, .string (text "Date")), (text "iso", .string iso)]) =
      .ok (.date (platform.date (some (.string iso)))) := by
  have hlookup : InsertionMap.lookup tag [(tag, (Json.string (text "Date") : Json Units ν)), (text "iso", .string iso)] =
      some (.string (text "Date")) := by
    rw [InsertionMap.lookup, if_pos rfl]
  have hiso : InsertionMap.lookup (text "iso") [(tag, (Json.string (text "Date") : Json Units ν)), (text "iso", .string iso)] =
      some (.string iso) := by
    rw [InsertionMap.lookup, if_neg (by decide), InsertionMap.lookup, if_pos rfl]
  rw [decode, hlookup]
  dsimp only
  rw [if_neg (by decide), if_neg (by decide), if_pos rfl, hiso]

theorem bufferFrom_encode (bytes : List UInt8) :
    bufferFrom platform (some (.string (encode (Base64Padded.encode bytes)))) = .ok bytes := by
  have hchars (cs : List Char) (hcs : ∀ c ∈ cs, c.toNat < 128) : (encode cs).map (fun u ↦ Char.ofNat u.toNat) = cs := by
    induction cs with
    | nil => rfl
    | cons c cs ih =>
      have hc := hcs c List.mem_cons_self
      rw [encode, List.flatMap_cons, Json.units_of_lt (by omega), List.singleton_append, List.map_cons,
        UInt16.toNat_ofNat_of_lt' (by change c.toNat < 65536; omega), Char.ofNat_toNat]
      exact congrArg (c :: ·) (ih fun d hd ↦ hcs d (List.mem_cons_of_mem _ hd))
  rw [bufferFrom, hchars _ (Base64Padded.encode_ascii bytes), Base64Padded.decode_encode]

theorem decode_buffer (bytes : List UInt8) :
    decode platform (.object [(tag, .string (text "Buffer")),
      (text "base64", .string (encode (Base64Padded.encode bytes)))]) = .ok (.buffer bytes) := by
  generalize hs : encode (Base64Padded.encode bytes) = s
  have hlookup : InsertionMap.lookup tag [(tag, (Json.string (text "Buffer") : Json Units ν)), (text "base64", .string s)] =
      some (.string (text "Buffer")) := by
    rw [InsertionMap.lookup, if_pos rfl]
  have hbase64 : InsertionMap.lookup (text "base64")
      [(tag, (Json.string (text "Buffer") : Json Units ν)), (text "base64", .string s)] = some (.string s) := by
    rw [InsertionMap.lookup, if_neg (by decide), InsertionMap.lookup, if_pos rfl]
  rw [decode, hlookup]
  dsimp only
  rw [if_neg (by decide), if_neg (by decide), if_neg (by decide), if_pos rfl, hbase64, ← hs, bufferFrom_encode]
  rfl

theorem lookup_of_absent {key : Units} {members : List (Units × α)} (h : key ∉ members.map Prod.fst) :
    InsertionMap.lookup key members = none := by
  induction members with
  | nil => rfl
  | cons m members ih =>
    rw [List.map_cons, List.mem_cons, not_or] at h
    obtain ⟨j, v⟩ := m
    rw [InsertionMap.lookup, if_neg (Ne.symm h.1), ih h.2]

theorem assign_all {members : List (Units × α)} (h : ∀ m ∈ members, m.1 ≠ protoKey) (out : List (Units × α)) :
    members.foldl (fun out m ↦ assign out m.1 m.2) out = out ++ members := by
  induction members generalizing out with
  | nil => rw [List.foldl_nil, List.append_nil]
  | cons m members ih =>
    rw [List.foldl_cons, ih fun m hm ↦ h m (List.mem_cons_of_mem _ hm), assign, if_neg (h m List.mem_cons_self),
      List.append_assoc, List.singleton_append]

theorem decode_object {α : Type} {key : α → Units} {f : α → Json Units ν} {g : α → Value ν δ} {xs : List α}
    (h : ∀ x ∈ xs, decode platform (f x) = .ok (g x)) (htag : ∀ x ∈ xs, key x ≠ tag) (hproto : ∀ x ∈ xs, key x ≠ protoKey) :
    decode platform (.object (xs.map fun x ↦ (key x, f x))) = .ok (.object (xs.map fun x ↦ (key x, g x))) := by
  have habsent : tag ∉ (xs.map fun x ↦ (key x, f x)).map Prod.fst := by
    rw [List.map_map]
    intro hmem
    obtain ⟨x, hx, hkey⟩ := List.mem_map.mp hmem
    exact htag x hx hkey
  rw [decode, lookup_of_absent habsent]
  dsimp only
  rw [decode_members h]
  refine congrArg (Except.ok ∘ Value.object) ?_
  exact assign_all (List.forall_mem_map.mpr hproto) []

theorem newMap_of_nodup {entries : List (Option Units × Value ν δ)} (h : (entries.map Prod.fst).Nodup) :
    newMap entries = entries := by
  have hgeneral (seen : List (Option Units × Value ν δ)) (hseen : ∀ e ∈ entries, e.1 ∉ seen.map Prod.fst) :
      entries.foldl (fun seen e ↦
        if e.1 ∈ seen.map Prod.fst then seen.map fun e' ↦ if e'.1 = e.1 then e else e' else seen ++ [e]) seen =
        seen ++ entries := by
    induction entries generalizing seen with
    | nil => rw [List.foldl_nil, List.append_nil]
    | cons e entries ih =>
      rw [List.map_cons, List.nodup_cons] at h
      rw [List.foldl_cons, if_neg (hseen e List.mem_cons_self), ih h.2, List.append_assoc, List.singleton_append]
      intro e' he' hmem
      rw [List.map_append, List.mem_append] at hmem
      rcases hmem with hmem | hmem
      · exact hseen e' (List.mem_cons_of_mem _ he') hmem
      · rw [List.map_singleton, List.mem_singleton] at hmem
        exact h.1 (List.mem_map.mpr ⟨e', he', hmem⟩)
  exact hgeneral [] fun e _ ↦ List.not_mem_nil

end Decoding

section Reloading

/-- What is stored of a value reads back, from its text, as what is recovered of it. -/
structure Reads (platform : Platform ν δ) (j : Json Units ν) (v : Value ν δ) : Prop where
  distinct : j.Distinct
  numbers : j.EachNumber fun n ↦ platform.finite n = true
  decoded : decode platform (j.map id platform.reread) = .ok v

def Reloads (platform : Platform ν δ) (v : Value ν δ) : Prop :=
  v.WellFormed platform → v.Storable platform → ∀ j, stored platform v = some j → Reads platform j (recovered platform v)

variable {v : Value ν δ}

theorem stored_eq_none (hv : v.Storable platform) : stored platform v = none ↔ v = .undefined := by
  cases v with
  | undefined => exact iff_of_true rfl rfl
  | null | bool b | number n | string s | date d | buffer bytes => exact iff_of_false nofun nofun
  | array => rw [stored_array]; exact iff_of_false nofun nofun
  | map => rw [stored_map]; exact iff_of_false nofun nofun
  | set => rw [stored_set]; exact iff_of_false nofun nofun
  | object => rw [stored_object]; exact iff_of_false nofun nofun
  | classInstance | other => exact hv.elim

/-- What stands for an item in an array: `null` for one that is not written. -/
def storedItem (platform : Platform ν δ) (v : Value ν δ) : Json Units ν := (stored platform v).getD .null

theorem reads_item (ih : Reloads platform v) (hwell : v.WellFormed platform) (hv : v.Storable platform) :
    Reads platform (storedItem platform v) (recoveredItem platform v) := by
  unfold storedItem recoveredItem
  by_cases hundefined : v = .undefined
  · subst hundefined
    refine ⟨trivial, trivial, ?_⟩
    change decode platform .null = .ok .null
    rw [decode]
  · rw [if_neg fun h ↦ hundefined (isUndefined_iff.mp h)]
    cases hj : stored platform v with
    | none => exact absurd ((stored_eq_none hv).mp hj) hundefined
    | some j => exact ih hwell hv j hj

theorem tagged_distinct {kind key : Units} {v : Json Units ν} (hkey : tag ≠ key) (hv : v.Distinct) :
    (Json.object [(tag, .string kind), (key, v)]).Distinct := by
  rw [Json.distinct_object]
  simp [hkey, hv]

theorem tagged_numbers {P : ν → Prop} {kind key : Units} {v : Json Units ν} (hv : v.EachNumber P) :
    (Json.object [(tag, .string kind), (key, v)]).EachNumber P := by
  rw [Json.eachNumber_object]
  simp [hv]

theorem reloads_array {items : List (Value ν δ)} (ih : ∀ v ∈ items, Reloads platform v) : Reloads platform (.array items) := by
  intro hwell hv j hj
  rw [wellFormed_array] at hwell
  rw [storable_array] at hv
  rw [stored_array] at hj
  cases hj
  have hitem : ∀ v ∈ items, Reads platform (storedItem platform v) (recoveredItem platform v) :=
    fun v hmem ↦ reads_item (ih v hmem) (hwell v hmem) (hv v hmem)
  constructor
  · rw [Json.distinct_array, List.forall_mem_map]
    exact fun v hmem ↦ (hitem v hmem).distinct
  · rw [Json.eachNumber_array, List.forall_mem_map]
    exact fun v hmem ↦ (hitem v hmem).numbers
  · have hitems := decode_items (f := fun v ↦ (storedItem platform v).map id platform.reread) fun v hmem ↦
      (hitem v hmem).decoded
    rw [Json.map_array, List.map_map, decode_array, recovered_array]
    exact congrArg (Except.map Value.array) hitems

theorem reloads_set {values : List (Value ν δ)} (ih : ∀ v ∈ values, Reloads platform v) : Reloads platform (.set values) := by
  intro hwell hv j hj
  rw [wellFormed_set] at hwell
  rw [storable_set] at hv
  rw [stored_set] at hj
  cases hj
  have hitem : ∀ v ∈ values, Reads platform (storedItem platform v) (recoveredItem platform v) :=
    fun v hmem ↦ reads_item (ih v hmem) (hwell.2 v hmem) (hv v hmem)
  constructor
  · refine tagged_distinct (by decide) ?_
    rw [Json.distinct_array, List.forall_mem_map]
    exact fun v hmem ↦ (hitem v hmem).distinct
  · refine tagged_numbers ?_
    rw [Json.eachNumber_array, List.forall_mem_map]
    exact fun v hmem ↦ (hitem v hmem).numbers
  · have hitems := decode_items (f := fun v ↦ (storedItem platform v).map id platform.reread) fun v hmem ↦
      (hitem v hmem).decoded
    simp only [Json.map_object, List.map_cons, List.map_nil, Json.map_string, Json.map_array, List.map_map, id]
    rw [decode_set, recovered_set]
    exact congrArg (Except.map fun vs ↦ Value.set (newSet platform vs)) hitems

theorem reloads_map {entries : List (Option Units × Value ν δ)} (ih : ∀ e ∈ entries, Reloads platform e.2) :
    Reloads platform (.map entries) := by
  intro hwell hv j hj
  rw [wellFormed_map] at hwell
  rw [storable_map] at hv
  rw [stored_map] at hj
  cases hj
  have hitem : ∀ e ∈ entries, Reads platform (storedItem platform e.2) (recoveredItem platform e.2) :=
    fun e hmem ↦ reads_item (ih e hmem) (hwell.2 e hmem) (hv e hmem).2
  constructor
  · refine tagged_distinct (by decide) ?_
    rw [Json.distinct_array, List.forall_mem_map]
    intro e hmem
    simp only [Json.distinct_array, List.mem_cons, List.not_mem_nil, or_false, forall_eq_or_imp, forall_eq,
      Json.distinct_string, true_and]
    exact (hitem e hmem).distinct
  · refine tagged_numbers ?_
    rw [Json.eachNumber_array, List.forall_mem_map]
    intro e hmem
    simp only [Json.eachNumber_array, List.mem_cons, List.not_mem_nil, or_false, forall_eq_or_imp, forall_eq,
      Json.eachNumber_string, true_and]
    exact (hitem e hmem).numbers
  · have hpairs := @decode_pairs ν δ platform _ (fun e : Option Units × Value ν δ ↦ e.1.getD [])
      (fun e ↦ (storedItem platform e.2).map id platform.reread) _ _ fun e hmem ↦ (hitem e hmem).decoded
    have hkeys : (entries.map fun e ↦ (some (e.1.getD []), recoveredItem platform e.2)) =
        entries.map fun e ↦ (e.1, recoveredItem platform e.2) := by
      refine List.map_congr_left fun e hmem ↦ ?_
      cases hkey : e.1 with
      | none => exact absurd hkey (hv e hmem).1
      | some => rfl
    have hnodup : ((entries.map fun e ↦ (e.1, recoveredItem platform e.2)).map Prod.fst).Nodup := by
      rw [List.map_map]
      exact hwell.1
    rw [hkeys] at hpairs
    simp only [Json.map_object, List.map_cons, List.map_nil, Json.map_string, Json.map_array, List.map_map, id]
    rw [decode_map, recovered_map]
    refine (congrArg (Except.map fun es ↦ Value.map (newMap es)) hpairs).trans ?_
    change Except.ok (Value.map (newMap _)) = _
    rw [newMap_of_nodup hnodup]

theorem reloads_object {members : List (Units × Value ν δ)} (ih : ∀ m ∈ members, Reloads platform m.2) :
    Reloads platform (.object members) := by
  intro hwell hv j hj
  rw [wellFormed_object] at hwell
  rw [storable_object] at hv
  rw [stored_object] at hj
  cases hj
  set kept := members.filter fun m ↦ !m.2.isUndefined && m.1 ≠ protoKey with hkept
  have hstored : (members.filterMap fun m ↦ if m.1 = protoKey then none else (stored platform m.2).map (m.1, ·)) =
      kept.map fun m ↦ (m.1, storedItem platform m.2) := by
    rw [hkept, ← List.filterMap_eq_map, List.filterMap_filter]
    refine List.filterMap_congr fun m hm ↦ ?_
    by_cases hkey : m.1 = protoKey
    · simp [hkey]
    · cases hj : stored platform m.2 with
      | none => simp [hkey, (stored_eq_none (hv.2 m hm)).mp hj, Value.isUndefined]
      | some =>
        have hdefined : ¬m.2.isUndefined = true := by
          intro h
          rw [isUndefined_iff.mp h] at hj
          cases hj
        simp [hkey, hdefined, storedItem, hj]
  have hmem (m : Units × Value ν δ) (hm : m ∈ kept) : m ∈ members ∧ ¬m.2.isUndefined = true ∧ m.1 ≠ protoKey := by
    rw [hkept, List.mem_filter] at hm
    simpa using hm
  have hitem : ∀ m ∈ kept, Reads platform (storedItem platform m.2) (recovered platform m.2) := by
    intro m hm
    obtain ⟨hin, hundefined, -⟩ := hmem m hm
    have hreads := reads_item (ih m hin) (hwell.2 m hin) (hv.2 m hin)
    rwa [recoveredItem, if_neg hundefined] at hreads
  rw [hstored]
  constructor
  · rw [Json.distinct_object, List.forall_mem_map, List.map_map]
    exact ⟨hwell.1.sublist (List.filter_sublist.map _), fun m hm ↦ (hitem m hm).distinct⟩
  · rw [Json.eachNumber_object, List.forall_mem_map]
    exact fun m hm ↦ (hitem m hm).numbers
  · rw [Json.map_object, List.map_map, recovered_object]
    refine @decode_object ν δ platform _ Prod.fst _ _ _ (fun m hm ↦ (hitem m hm).decoded) ?_ fun m hm ↦ (hmem m hm).2.2
    intro m hm htag
    exact hv.1 (List.mem_map.mpr ⟨m, (hmem m hm).1, htag⟩)

theorem reloads (hplatform : platform.Rereads) (v : Value ν δ) : Reloads platform v := by
  induction v with
  | undefined => exact fun _ _ j hj ↦ nomatch hj
  | null =>
    intro _ _ j hj
    cases hj
    exact ⟨trivial, trivial, by rw [Json.map_null, decode]; rfl⟩
  | bool =>
    intro _ _ j hj
    cases hj
    exact ⟨trivial, trivial, by rw [Json.map_bool, decode]; rfl⟩
  | number =>
    intro _ hn j hj
    cases hj
    exact ⟨trivial, hn, by rw [Json.map_number, decode]; rfl⟩
  | string =>
    intro _ _ j hj
    cases hj
    exact ⟨trivial, trivial, by rw [Json.map_string, decode]; rfl⟩
  | array items ih => exact reloads_array ih
  | map entries ih => exact reloads_map ih
  | set values ih => exact reloads_set ih
  | date d =>
    intro _ hd j hj
    cases hj
    refine ⟨tagged_distinct (by decide) trivial, tagged_numbers trivial, ?_⟩
    cases hiso : platform.toISOString d with
    | none => exact absurd hiso hd
    | some iso =>
      simp only [Json.map_object, List.map_cons, List.map_nil, Json.map_string, id, Option.getD_some]
      rw [decode_date, hplatform.date d iso hiso]
      rfl
  | buffer =>
    intro _ _ j hj
    cases hj
    refine ⟨tagged_distinct (by decide) trivial, tagged_numbers trivial, ?_⟩
    simp only [Json.map_object, List.map_cons, List.map_nil, Json.map_string, id]
    rw [decode_buffer]
    rfl
  | object members ih => exact reloads_object ih
  | classInstance | other => exact fun _ hv ↦ hv.elim

theorem reload_eq (hplatform : platform.Rereads) (hwell : v.WellFormed platform) (hv : v.Storable platform) :
    reload platform v =
      if v.isUndefined then .error (.other "SyntaxError") else .ok (recovered platform v) := by
  rcases encodes v (text "run") with ⟨-, e, he, hsame⟩ | ⟨hbad, -⟩
  · unfold reload
    rw [he]
    dsimp only [bind, Except.bind]
    rw [stringify, hsame]
    cases hj : stored platform v with
    | none =>
      rw [if_pos (isUndefined_iff.mpr ((stored_eq_none hv).mp hj))]
      rfl
    | some j =>
      have hdefined : ¬v.isUndefined = true := by
        intro h
        rw [isUndefined_iff.mp h] at hj
        cases hj
      obtain ⟨hdistinct, hnumbers, hdecoded⟩ := reloads hplatform v hwell hv j hj
      have hu : Json.Understands (⟨id, platform.write⟩ : Json.Writer Units ν) (⟨some, platform.read, none⟩ : Json.Reader Units ν)
          id platform.reread fun n ↦ platform.finite n = true := ⟨fun _ ↦ rfl, hplatform.reread, hplatform.numeral⟩
      have hparse := Json.parse_print hu j (Json.distinct_map hdistinct _) hnumbers (fun _ h ↦ by cases h)
      rw [if_neg hdefined, ← hdecoded, Option.map_some, Option.bind_some, parse, hparse]
  · exact absurd hv hbad

theorem comesBack_iff (hplatform : platform.Rereads) (hwell : v.WellFormed platform) :
    ComesBack platform v ↔ (v.Storable platform → v ≠ .undefined ∧ recovered platform v = v.strip) := by
  by_cases hv : v.Storable platform
  · have hencoded : ¬∃ thrown, encodeValue platform v (text "run") = .error thrown := by
      rintro ⟨thrown, hthrown⟩
      rcases encodes v (text "run") with ⟨-, e, he, -⟩ | ⟨hbad, -⟩
      · rw [hthrown] at he
        cases he
      · exact hbad hv
    rw [ComesBack, or_iff_right hencoded, reload_eq hplatform hwell hv, imp_iff_right hv]
    by_cases hundefined : v = .undefined
    · rw [if_pos (isUndefined_iff.mpr hundefined)]
      exact iff_of_false nofun fun h ↦ h.1 hundefined
    · rw [if_neg fun h ↦ hundefined (isUndefined_iff.mp h), Except.ok.injEq, and_iff_right hundefined]
  · refine iff_of_true (.inl ?_) fun h ↦ absurd h hv
    rcases encodes v (text "run") with ⟨hgood, -⟩ | ⟨-, hthrown⟩
    · exact absurd hgood hv
    · exact hthrown

end Reloading

/-- A value that is not refused comes back as it was just when it holds `undefined` only in members of objects, no
negative zero, and no member named `__proto__`. -/
theorem comes_back_iff_carried (hplatform : platform.Rereads) {v : Value ν δ} (hwell : v.WellFormed platform) :
    ComesBack platform v ↔ (v.Storable platform → v.Carried platform) := by
  rw [comesBack_iff hplatform hwell]
  refine imp_congr_right fun _ ↦ ?_
  by_cases hundefined : v = .undefined
  · subst hundefined
    exact iff_of_false (fun h ↦ h.1 rfl) id
  · rw [and_iff_right hundefined, recovered_iff hplatform.zero v hwell hundefined]

def zeros : Platform Bool Unit where
  finite := fun _ ↦ true
  shown := fun _ ↦ text "0"
  write := fun _ ↦ ['0']
  read := fun cs ↦ if cs = ['0'] then some false else none
  same := fun _ _ ↦ true
  toISOString := fun _ ↦ some (text "1970-01-01T00:00:00.000Z")
  negativeZero := id
  zero := false
  date := fun _ ↦ ()
  buffer := fun _ ↦ .ok []
  display := fun _ ↦ .ok (text "[object Object]")

theorem zeros_rereads : zeros.Rereads := by
  constructor
  · exact fun n _ ↦ ⟨'0', [], rfl, .inr rfl, nofun⟩
  · intro n _
    cases n <;> rfl
  · rfl
  · exact fun d iso _ ↦ rfl

theorem comes_back_iff_carried_map : ComesBack zeros
    (.map [(some (text "a"), .object [(text "x", .number false), (text "y", .undefined)]), (some (text "b"), .date ())]) := by
  refine (comes_back_iff_carried zeros_rereads ?_).mpr fun _ ↦ ?_
  · rw [wellFormed_map]
    refine ⟨by decide, ?_⟩
    simp only [List.mem_cons, List.not_mem_nil, or_false, forall_eq_or_imp, forall_eq, wellFormed_object]
    exact ⟨⟨by decide, trivial, trivial⟩, trivial⟩
  · rw [carried_map]
    simp only [List.mem_cons, List.not_mem_nil, or_false, forall_eq_or_imp, forall_eq, carried_object]
    exact ⟨⟨.inr ⟨by decide, rfl⟩, .inl rfl⟩, trivial⟩

/-- An item that is `undefined` comes back as `null`, and a member named `__proto__` not at all. -/
theorem undefined_item_lost : ¬ComesBack zeros (.array [.undefined]) ∧ ¬ComesBack zeros (.object [(protoKey, .null)]) := by
  constructor
  · have hwell : (Value.array [.undefined]).WellFormed zeros := by
      rw [wellFormed_array, List.forall_mem_singleton]
      trivial
    rw [comesBack_iff zeros_rereads hwell, recovered_array, strip_array]
    intro h
    refine absurd (h ?_).2 nofun
    rw [storable_array, List.forall_mem_singleton]
    trivial
  · have hwell : (Value.object [(protoKey, .null)]).WellFormed zeros := by
      rw [wellFormed_object, List.forall_mem_singleton]
      exact ⟨List.nodup_singleton _, trivial⟩
    rw [comesBack_iff zeros_rereads hwell, recovered_object, strip_object]
    intro h
    refine absurd (h ?_).2 ?_
    · rw [storable_object, List.forall_mem_singleton]
      exact ⟨by decide, trivial⟩
    · simp [Value.isUndefined]

end Noesar.Workspace.RunStore
