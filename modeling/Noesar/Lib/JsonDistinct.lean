import Noesar.Lib.JsonReading

namespace Noesar.Lib.Json

variable {σ ν : Type} [DecidableEq σ] {r : Reader σ ν} {members : List (σ × Json σ ν)} {v : Json σ ν}

omit [DecidableEq σ] in
theorem distinct_map {μ : Type} (hv : v.Distinct) (h : ν → μ) : (v.map id h).Distinct := by
  induction v with
  | null | bool | number | string => trivial
  | array items ih =>
    rw [distinct_array] at hv
    rw [map_array, distinct_array, List.forall_mem_map]
    exact fun v hmem ↦ ih v hmem (hv v hmem)
  | object members ih =>
    rw [distinct_object] at hv
    rw [map_object, distinct_object, List.forall_mem_map, List.map_map]
    exact ⟨hv.1, fun m hm ↦ ih m hm (hv.2 m hm)⟩

theorem put_keys (members : List (σ × Json σ ν)) (key : σ) (v : Json σ ν) : (put members key v).map Prod.fst =
    if key ∈ members.map Prod.fst then members.map Prod.fst else members.map Prod.fst ++ [key] := by
  rw [put]
  split
  · rw [List.map_map]
    apply List.map_congr_left
    intro m _
    by_cases hkey : m.1 = key
    · simp [hkey]
    · simp [hkey]
  · rw [List.map_append]
    rfl

theorem mem_put {key : σ} {m : σ × Json σ ν} (h : m ∈ put members key v) : m ∈ members ∨ m = (key, v) := by
  rw [put] at h
  split at h
  · obtain ⟨m', hm', rfl⟩ := List.mem_map.mp h
    by_cases hkey : m'.1 = key
    · rw [if_pos hkey]
      exact .inr rfl
    · rw [if_neg hkey]
      exact .inl hm'
  · rcases List.mem_append.mp h with h | h
    · exact .inl h
    · exact .inr (List.mem_singleton.mp h)

theorem put_nodup (key : σ) (v : Json σ ν) (h : (members.map Prod.fst).Nodup) :
    ((put members key v).map Prod.fst).Nodup := by
  rw [put_keys]
  split
  · exact h
  next hfresh =>
    rw [List.nodup_append]
    refine ⟨h, List.nodup_singleton key, ?_⟩
    rintro k hk j hj rfl
    exact hfresh (List.mem_singleton.mp hj ▸ hk)

theorem put_distinct (key : σ) (h : (object members).Distinct) (hv : v.Distinct) :
    (object (put members key v)).Distinct := by
  rw [distinct_object] at h ⊢
  refine ⟨put_nodup key v h.1, ?_⟩
  intro m hm
  rcases mem_put hm with hm | rfl
  · exact h.2 m hm
  · exact hv

def Mode.Distinct : Mode σ ν → Prop
  | .value | .numeral _ => True
  | .key members | .colon members _ => (object members).Distinct
  | .text place _ | .escaped place _ | .hex place _ _ => ∀ members, place = some members → (object members).Distinct
  | .word _ v | .after v => v.Distinct

def Frame.Distinct : Frame σ ν → Prop
  | .items before => (array before).Distinct
  | .member members _ => (object members).Distinct

def State.Distinct (s : State σ ν) : Prop := s.1.Distinct ∧ ∀ frame ∈ s.2, frame.Distinct

section

variable {s t : State σ ν} {stack : List (Frame σ ν)} {c : Char}

omit [DecidableEq σ] in
theorem distinct_empty : (object ([] : List (σ × Json σ ν))).Distinct := by
  rw [distinct_object]
  exact ⟨List.nodup_nil, nofun⟩

omit [DecidableEq σ] in
theorem distinct_items : (array ([] : List (Json σ ν))).Distinct := by
  rw [distinct_array]
  exact nofun

omit [DecidableEq σ] in
theorem distinct_snoc {items : List (Json σ ν)} (h : (array items).Distinct) (hv : v.Distinct) :
    (array (items ++ [v])).Distinct := by
  rw [distinct_array] at h ⊢
  intro u hu
  rcases List.mem_append.mp hu with hu | hu
  · exact h u hu
  · rw [List.mem_singleton.mp hu]
    exact hv

omit [DecidableEq σ] in
theorem distinct_inside {frame : Frame σ ν} (hframe : frame.Distinct) (h : ∀ frame ∈ stack, frame.Distinct) :
    ∀ f ∈ frame :: stack, f.Distinct := by
  intro f hf
  rcases List.mem_cons.mp hf with rfl | hf
  · exact hframe
  · exact h f hf

omit [DecidableEq σ] in
theorem begin_distinct (h : begin r stack c = some t) (hs : ∀ frame ∈ stack, frame.Distinct) : t.Distinct := by
  unfold begin at h
  split_ifs at h <;> cases h
  · exact ⟨nofun, hs⟩
  · exact ⟨trivial, distinct_inside distinct_items hs⟩
  · exact ⟨distinct_empty, hs⟩
  · exact ⟨trivial, hs⟩
  · exact ⟨trivial, hs⟩
  · exact ⟨trivial, hs⟩
  · exact ⟨trivial, hs⟩

theorem proceed_distinct (h : proceed v stack c = some t) (hv : v.Distinct) (hs : ∀ frame ∈ stack, frame.Distinct) :
    t.Distinct := by
  unfold proceed at h
  split at h
  · cases h
    exact ⟨hv, hs⟩
  · split at h
    · cases h
    next items stack =>
      have hitems := distinct_snoc (hs _ List.mem_cons_self) hv
      have hrest : ∀ frame ∈ stack, frame.Distinct := fun frame hmem ↦ hs frame (List.mem_cons_of_mem _ hmem)
      split_ifs at h <;> cases h
      · exact ⟨trivial, distinct_inside hitems hrest⟩
      · exact ⟨hitems, hrest⟩
    next members key stack =>
      have hmembers := put_distinct key (hs (.member members key) List.mem_cons_self) hv
      have hrest : ∀ frame ∈ stack, frame.Distinct := fun frame hmem ↦ hs frame (List.mem_cons_of_mem _ hmem)
      split_ifs at h <;> cases h
      · exact ⟨hmembers, hrest⟩
      · exact ⟨hmembers, hrest⟩

theorem step_distinct (h : step r s c = some t) (hs : s.Distinct) : t.Distinct := by
  obtain ⟨mode, stack⟩ := s
  obtain ⟨hmode, hstack⟩ := hs
  cases mode with
  | value =>
    rw [step] at h
    split at h
    · cases h
      exact ⟨trivial, hstack⟩
    · split at h
      · unfold closed at h
        split at h
        · cases h
          exact ⟨distinct_items, fun frame hmem ↦ hstack frame (List.mem_cons_of_mem _ hmem)⟩
        · cases h
      · exact begin_distinct h hstack
  | key =>
    rw [step] at h
    split_ifs at h <;> cases h
    · exact ⟨hmode, hstack⟩
    · exact ⟨fun _ hsome ↦ Option.some.inj hsome ▸ hmode, hstack⟩
    · exact ⟨distinct_empty, hstack⟩
  | colon =>
    rw [step] at h
    split_ifs at h <;> cases h
    · exact ⟨hmode, hstack⟩
    · exact ⟨trivial, distinct_inside hmode hstack⟩
  | text place =>
    rw [step] at h
    split_ifs at h
    · obtain ⟨key, -, rfl⟩ := Option.map_eq_some_iff.mp h
      refine ⟨?_, hstack⟩
      cases place with
      | none => trivial
      | some members => exact hmode members rfl
    · cases h
      exact ⟨hmode, hstack⟩
    · cases h
      exact ⟨hmode, hstack⟩
  | escaped =>
    rw [step] at h
    split_ifs at h
    · cases h
      exact ⟨hmode, hstack⟩
    · obtain ⟨u, -, rfl⟩ := Option.map_eq_some_iff.mp h
      exact ⟨hmode, hstack⟩
  | hex =>
    rw [step] at h
    obtain ⟨d, -, rfl⟩ := Option.map_eq_some_iff.mp h
    split
    · exact ⟨hmode, hstack⟩
    · exact ⟨hmode, hstack⟩
  | word left =>
    cases left with
    | nil => cases h
    | cons x left =>
      cases left with
      | nil =>
        rw [step] at h
        split_ifs at h
        cases h
        exact ⟨hmode, hstack⟩
      | cons y left =>
        rw [step] at h
        · split_ifs at h
          cases h
          exact ⟨hmode, hstack⟩
        · simp
  | numeral =>
    rw [step] at h
    split_ifs at h
    · cases h
      exact ⟨trivial, hstack⟩
    · obtain ⟨n, -, hproceed⟩ := Option.bind_eq_some_iff.mp h
      exact proceed_distinct hproceed trivial hstack
  | after => exact proceed_distinct h hmode hstack

theorem run_distinct {cs : List Char} (h : run r s cs = some t) (hs : s.Distinct) : t.Distinct := by
  induction cs generalizing s with
  | nil =>
    cases h
    exact hs
  | cons c cs ih =>
    obtain ⟨u, hu, hrest⟩ := Option.bind_eq_some_iff.mp h
    exact ih hrest (step_distinct hu hs)

theorem parse_distinct {cs : List Char} (h : parse r cs = some v) : v.Distinct := by
  obtain ⟨s, hs, hfinish⟩ := Option.bind_eq_some_iff.mp h
  have hdistinct := run_distinct hs ⟨trivial, nofun⟩
  unfold finish at hfinish
  split at hfinish
  · cases hfinish
    exact hdistinct.1
  · obtain ⟨n, -, rfl⟩ := Option.map_eq_some_iff.mp hfinish
    trivial
  · cases hfinish

end

end Noesar.Lib.Json
