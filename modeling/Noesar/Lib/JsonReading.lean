import Noesar.Lib.JsonText

namespace Noesar.Lib.Json

open Utf16 Framing

variable {σ ν τ μ : Type} {r : Reader σ ν}

section

variable {stack : List (Frame σ ν)}

def Reader.Room (r : Reader σ ν) (stack : List (Frame σ ν)) (levels : ℕ) : Prop :=
  ∀ limit, r.limit = some limit → stack.length + levels ≤ limit

theorem Reader.Room.allows {levels : ℕ} (h : r.Room stack levels) (hpos : 0 < levels) : r.allows stack = true := by
  unfold Reader.allows
  split
  · rfl
  next limit hlimit =>
    have := h limit hlimit
    rw [decide_eq_true_eq]
    omega

theorem Reader.Room.inside {levels below : ℕ} (h : r.Room stack levels) (hlt : below < levels) (frame : Frame σ ν) :
    r.Room (frame :: stack) below := by
  intro limit hlimit
  have := h limit hlimit
  rw [List.length_cons]
  omega

theorem Reader.Room.of_allows (h : r.allows stack = true) (frame : Frame σ ν) : r.Room (frame :: stack) 0 := by
  intro limit hlimit
  rw [Reader.allows, hlimit, decide_eq_true_eq] at h
  rw [List.length_cons]
  omega

theorem Reader.Room.around {levels : List ℕ} (hroom : r.allows stack = true)
    (h : ∀ n ∈ levels, ∃ frame, r.Room (frame :: stack) n) : r.Room stack (levels.foldr max 0 + 1) := by
  intro limit hlimit
  have hzero : stack.length < limit := by
    rw [Reader.allows, hlimit, decide_eq_true_eq] at hroom
    exact hroom
  induction levels with
  | nil =>
    rw [List.foldr_nil]
    omega
  | cons n levels ih =>
    obtain ⟨frame, hframe⟩ := h n (by simp)
    have hn := hframe limit hlimit
    have hrest := ih fun m hm ↦ h m (by simp [hm])
    rw [List.length_cons] at hn
    rw [List.foldr_cons]
    omega

/-- A value has been read up to its last character, or up to the one after it where it is a number. -/
inductive Rests (r : Reader σ ν) : State σ ν → Json σ ν → List (Frame σ ν) → Prop
  | after (v : Json σ ν) (stack : List (Frame σ ν)) : Rests r (.after v, stack) v stack
  | numeral {cs : List Char} {n : ν} (h : r.number cs = some n) (stack : List (Frame σ ν)) :
      Rests r (.numeral cs, stack) (.number n) stack

theorem Rests.finish {s : State σ ν} {v : Json σ ν} (h : Rests r s v []) : Json.finish r s = some v := by
  cases h with
  | after => rfl
  | numeral h => simp [Json.finish, h]

end

/-- A reader that reads all numbers that another one reads, and whatever else it does alike. -/
structure Reader.Extends (r' r : Reader σ ν) : Prop where
  string : r'.string = r.string
  limit : r'.limit = r.limit
  number : ∀ cs n, r.number cs = some n → r'.number cs = some n

theorem Reader.Extends.begin {r' : Reader σ ν} (h : r'.Extends r) (stack : List (Frame σ ν)) (c : Char) :
    Json.begin r' stack c = Json.begin r stack c := by
  have hallows : r'.allows stack = r.allows stack := by rw [Reader.allows, Reader.allows, h.limit]
  simp only [Json.begin, hallows]

variable [DecidableEq σ]

@[simp] theorem run_nil (s : State σ ν) : run r s [] = some s := rfl

theorem run_cons (s : State σ ν) (c : Char) (cs : List Char) : run r s (c :: cs) = (step r s c).bind (run r · cs) := rfl

theorem run_append (s : State σ ν) (cs ds : List Char) : run r s (cs ++ ds) = (run r s cs).bind (run r · ds) :=
  List.foldlM_append

theorem run_of_step {s t : State σ ν} {c : Char} (h : step r s c = some t) (cs : List Char) :
    run r s (c :: cs) = run r t cs := by
  rw [run_cons, h, Option.bind_some]

theorem run_of_run {s t : State σ ν} {cs : List Char} (h : run r s cs = some t) (ds : List Char) :
    run r s (cs ++ ds) = run r t ds := by
  rw [run_append, h, Option.bind_some]

section Strings

variable (place : Option (List (σ × Json σ ν))) (us : Units) (stack : List (Frame σ ν))

theorem unhex_hexDigit {n : ℕ} (h : n < 16) : unhex (hexDigit n) = some n := by
  have hall : ∀ n < 16, unhex (hexDigit n) = some n := by decide
  exact hall n h

theorem run_hex4 {n : ℕ} (h : n < 0x10000) :
    run r (.hex place us [], stack) (hex4 n) = some (.text place (us ++ [UInt16.ofNat n]), stack) := by
  have hdigit (m : ℕ) : unhex (hexDigit (m % 16)) = some (m % 16) := unhex_hexDigit (Nat.mod_lt m (by decide))
  have hsum : n / 4096 % 16 * 4096 + n / 256 % 16 * 256 + n / 16 % 16 * 16 + n % 16 = n := by
    omega
  simp only [hex4, run_cons, step, hdigit, Option.map_some, Option.bind_some, List.nil_append, List.cons_append, hsum,
    run_nil]

theorem run_unicode {n : ℕ} (h : n < 0x10000) :
    run r (.text place us, stack) ('\\' :: 'u' :: hex4 n) = some (.text place (us ++ [UInt16.ofNat n]), stack) :=
  run_hex4 place us stack h

theorem units_of_lt {c : Char} (h : c.toNat < 0x10000) : units c = [UInt16.ofNat c.toNat] := if_pos h

theorem run_escape (c : Char) :
    run r (.text place us, stack) (escape c) = some (.text place (us ++ units c), stack) := by
  unfold escape
  split
  next h => subst h; rfl
  next hquote =>
  split
  next h => subst h; rfl
  next hslash =>
  split
  next h => subst h; rfl
  split
  next h => subst h; rfl
  split
  next h => subst h; rfl
  split
  next h => subst h; rfl
  split
  next h => subst h; rfl
  split
  next h => rw [run_unicode place us stack (by omega), units_of_lt (by omega)]
  next h =>
    have hstep : step r (.text place us, stack) c = some (.text place (us ++ units c), stack) := by
      rw [step, if_neg hquote, if_neg hslash, if_neg h]
    rw [run_of_step hstep, run_nil]

theorem run_escapePoint (p : Point) :
    run r (.text place us, stack) (escapePoint p) = some (.text place (us ++ unitsOf p), stack) := by
  cases p with
  | inl c => exact run_escape place us stack c
  | inr u =>
    have h := run_unicode (r := r) place us stack u.toNat_lt
    rw [UInt16.ofNat_toNat] at h
    exact h

theorem run_points (ps : List Point) :
    run r (.text place us, stack) (ps.flatMap escapePoint) = some (.text place (us ++ ps.flatMap unitsOf), stack) := by
  induction ps generalizing us with
  | nil => simp
  | cons p ps ih =>
    rw [List.flatMap_cons, run_of_run (run_escapePoint place us stack p), ih, List.flatMap_cons, List.append_assoc]

theorem run_quote {us : Units} {s : σ} (h : r.string us = some s) :
    run r (.value, stack) (quote us) = some (.after (.string s), stack) := by
  have hstart : step r (.value, stack) '"' = some (.text none [], stack) := rfl
  have hend : step r (.text none us, stack) '"' = some (.after (.string s), stack) := by
    simp [step, quoted, h]
  rw [quote, List.cons_append, run_of_step hstart, run_of_run (run_points none [] stack _), flatMap_points,
    List.nil_append, run_of_step hend, run_nil]

theorem run_quote_key {us : Units} {s : σ} (h : r.string us = some s) (members : List (σ × Json σ ν)) :
    run r (.key members, stack) (quote us) = some (.colon members s, stack) := by
  have hstart : step r (.key members, stack) '"' = some (.text (some members) [], stack) := rfl
  have hend : step r (.text (some members) us, stack) '"' = some (.colon members s, stack) := by
    simp [step, quoted, h]
  rw [quote, List.cons_append, run_of_step hstart, run_of_run (run_points (some members) [] stack _), flatMap_points,
    List.nil_append, run_of_step hend, run_nil]

end Strings

theorem Rests.step {s : State σ ν} {v : Json σ ν} {stack : List (Frame σ ν)} (h : Rests r s v stack) {c : Char}
    (hc : isNumeral c = false) : Json.step r s c = proceed v stack c := by
  cases h with
  | after => rfl
  | numeral h => simp [Json.step, hc, h]

/-- What a writer writes is read, as the strings and numbers that the two functions give;
numbers where they have the property. -/
structure Understands (w : Writer τ μ) (r : Reader σ ν) (f : τ → σ) (g : μ → ν) (P : μ → Prop) : Prop where
  string : ∀ s, r.string (w.string s) = some (f s)
  number : ∀ n, P n → r.number (w.number n) = some (g n)
  numeral : ∀ n, P n → Numeric (w.number n)

section Values

variable {stack : List (Frame σ ν)} {w : Writer τ μ} {f : τ → σ} {g : μ → ν} {P : μ → Prop}

theorem run_numeral {cs ds : List Char} (h : ∀ d ∈ ds, isNumeral d = true) :
    run r (.numeral cs, stack) ds = some (.numeral (cs ++ ds), stack) := by
  induction ds generalizing cs with
  | nil => simp
  | cons d ds ih =>
    have hstep : step r (.numeral cs, stack) d = some (.numeral (cs ++ [d]), stack) := by
      simp [step, h d (by simp)]
    rw [run_of_step hstep, ih fun d hd ↦ h d (by simp [hd]), List.append_assoc, List.singleton_append]

theorem step_numeral {c : Char} (h : c = '-' ∨ c.isDigit = true) :
    step r (.value, stack) c = some (.numeral [c], stack) := by
  rcases h with rfl | h
  · rfl
  · have hne {d : Char} (hd : d.isDigit = false) : c ≠ d := by
      rintro rfl
      rw [h] at hd
      cases hd
    have hspace : isSpace c = false := by
      simp [isSpace, @hne ' ' rfl, @hne '\t' rfl, @hne '\n' rfl, @hne '\r' rfl]
    have hbegin : begin r stack c = some (.numeral [c], stack) := by
      simp [begin, @hne '"' rfl, @hne '[' rfl, @hne '{' rfl, @hne 't' rfl, @hne 'f' rfl, @hne 'n' rfl, h]
    rw [step, if_neg (by simp [hspace]), if_neg (@hne ']' rfl), hbegin]

theorem run_number (hu : Understands w r f g P) {n : μ} (hn : P n) :
    ∃ s, run r (.value, stack) (w.number n) = some s ∧ Rests r s (.number (g n)) stack := by
  obtain ⟨c, cs, htext, hc, hcs⟩ := hu.numeral n hn
  refine ⟨(.numeral (c :: cs), stack), ?_, .numeral ?_ stack⟩
  · rw [htext, run_of_step (step_numeral hc), run_numeral hcs, List.singleton_append]
  · rw [← htext, hu.number n hn]

theorem run_items {items : List (Json τ μ)} (hne : items ≠ []) (before : List (Json σ ν))
    (h : ∀ v ∈ items, ∀ frame, ∃ s, run r (.value, frame :: stack) (print w v) = some s ∧
      Rests r s (v.map f g) (frame :: stack)) :
    run r (.value, .items before :: stack) (joined (items.map (print w)) ++ [']']) =
      some (.after (.array (before ++ items.map (Json.map f g))), stack) := by
  induction items generalizing before with
  | nil => exact absurd rfl hne
  | cons v items ih =>
    obtain ⟨s, hs, hrests⟩ := h v (by simp) (.items before)
    cases items with
    | nil =>
      rw [List.map_singleton, joined, run_of_run hs, run_of_step (hrests.step rfl), run_nil]
      rfl
    | cons =>
      have hcomma : step r s ',' = some (.value, .items (before ++ [v.map f g]) :: stack) := hrests.step rfl
      rw [List.map_cons, List.map_cons, joined, List.append_assoc, run_of_run hs, List.cons_append,
        run_of_step hcomma, ← List.map_cons, ih (by simp) _ fun v hv ↦ h v (by simp [hv])]
      simp

theorem put_of_fresh {members : List (σ × Json σ ν)} {key : σ} (h : key ∉ members.map Prod.fst) (v : Json σ ν) :
    put members key v = members ++ [(key, v)] := if_neg h

theorem run_members (hu : Understands w r f g P) {members : List (τ × Json τ μ)} (hne : members ≠ [])
    (before : List (σ × Json σ ν)) (hnodup : (before.map Prod.fst ++ members.map fun m ↦ f m.1).Nodup)
    (h : ∀ m ∈ members, ∀ frame, ∃ s, run r (.value, frame :: stack) (print w m.2) = some s ∧
      Rests r s (m.2.map f g) (frame :: stack)) :
    run r (.key before, stack)
        (joined (members.map fun m ↦ quote (w.string m.1) ++ ':' :: print w m.2) ++ ['}']) =
      some (.after (.object (before ++ members.map fun m ↦ (f m.1, m.2.map f g))), stack) := by
  induction members generalizing before with
  | nil => exact absurd rfl hne
  | cons m members ih =>
    obtain ⟨key, v⟩ := m
    obtain ⟨s, hs, hrests⟩ := h (key, v) (by simp) (.member before (f key))
    have hfresh : f key ∉ before.map Prod.fst := by
      intro hmem
      exact (List.nodup_append.mp hnodup).2.2 _ hmem _ (by simp) rfl
    have hmember : ∀ rest, run r (.key before, stack) (quote (w.string key) ++ ':' :: print w v ++ rest) = run r s rest := by
      intro rest
      have hcolon : step r (.colon before (f key), stack) ':' = some (.value, .member before (f key) :: stack) := rfl
      rw [List.append_assoc, run_of_run (run_quote_key stack (hu.string key) before), List.cons_append,
        run_of_step hcolon, run_of_run hs]
    cases members with
    | nil =>
      rw [List.map_singleton, joined, hmember, run_of_step (t := (_, _)) (hrests.step rfl), run_nil,
        put_of_fresh hfresh]
      rfl
    | cons m members =>
      have hcomma : step r s ',' = some (.key (before ++ [(f key, v.map f g)]), stack) := by
        rw [hrests.step rfl, ← put_of_fresh hfresh]
        rfl
      have hnodup' : ((before ++ [(f key, v.map f g)]).map Prod.fst ++ (m :: members).map fun m ↦ f m.1).Nodup := by
        simpa using hnodup
      rw [List.map_cons, List.map_cons, joined, List.append_assoc]
      rw [hmember, List.cons_append, run_of_step hcomma]
      have hrest := ih (by simp) _ hnodup' fun m hm ↦ h m (by simp [hm])
      rw [List.map_cons] at hrest
      rw [hrest]
      simp

theorem print_array (w : Writer τ μ) (items : List (Json τ μ)) :
    print w (.array items) = '[' :: (joined (items.map (print w)) ++ [']']) := by
  rw [print, fold_array]
  rfl

theorem print_object (w : Writer τ μ) (members : List (τ × Json τ μ)) :
    print w (.object members) =
      '{' :: (joined (members.map fun m ↦ quote (w.string m.1) ++ ':' :: print w m.2) ++ ['}']) := by
  simp only [print, fold_object, List.map_map]
  rfl

omit [DecidableEq σ] in
theorem print_map {h : ν → μ} {w : Writer τ μ} {u : Writer σ ν} {f : σ → τ} (hstring : ∀ s, w.string (f s) = u.string s)
    (hnumber : ∀ n, w.number (h n) = u.number n) (v : Json σ ν) : print w (v.map f h) = print u v := by
  induction v with
  | null => rfl
  | bool => rfl
  | number n => exact hnumber n
  | string s => exact congrArg quote (hstring s)
  | array items ih =>
    rw [map_array, print_array, print_array, List.map_map]
    congr 3
    exact List.map_congr_left ih
  | object members ih =>
    rw [map_object, print_object, print_object, List.map_map]
    congr 3
    apply List.map_congr_left
    intro m hm
    simp only [Function.comp_apply, hstring, ih m hm]

theorem run_print (hu : Understands w r f g P) (v : Json τ μ) (hv : (v.map f g).Distinct)
    (hnumbers : v.EachNumber P) (hroom : r.Room stack v.depth) :
    ∃ s, run r (.value, stack) (print w v) = some s ∧ Rests r s (v.map f g) stack := by
  induction v generalizing stack with
  | null => exact ⟨_, rfl, .after _ _⟩
  | bool b => cases b <;> exact ⟨_, rfl, .after _ _⟩
  | number => exact run_number hu hnumbers
  | string s => exact ⟨_, run_quote stack (hu.string s), .after _ _⟩
  | array items ih =>
    have hopen : step r (.value, stack) '[' = some (.value, .items [] :: stack) := by
      have h := hroom.allows (by rw [depth_array]; omega)
      simp [step, isSpace, begin, h]
    rw [map_array, distinct_array] at hv
    rw [eachNumber_array] at hnumbers
    refine ⟨_, ?_, .after _ _⟩
    rw [print_array, run_of_step hopen, map_array]
    by_cases hne : items = []
    · subst hne
      rfl
    · apply run_items hne []
      intro v hmem frame
      exact ih v hmem (hv _ (List.mem_map_of_mem hmem)) (hnumbers v hmem) (hroom.inside (depth_lt_array hmem) frame)
  | object members ih =>
    have hopen : step r (.value, stack) '{' = some (.key [], stack) := by
      have h := hroom.allows (by rw [depth_object]; omega)
      simp [step, isSpace, begin, h]
    rw [map_object, distinct_object] at hv
    rw [eachNumber_object] at hnumbers
    refine ⟨_, ?_, .after _ _⟩
    rw [print_object, run_of_step hopen, map_object]
    by_cases hne : members = []
    · subst hne
      rfl
    · apply run_members hu hne []
      · simpa [Function.comp_def] using hv.1
      · intro m hmem frame
        have hm : (m.2.map f g).Distinct := hv.2 _ (List.mem_map_of_mem (f := fun m ↦ (f m.1, m.2.map f g)) hmem)
        exact ih m hmem hm (hnumbers m hmem) (hroom.inside (depth_lt_object hmem) frame)

theorem parse_print (hu : Understands w r f g P) (v : Json τ μ) (hv : (v.map f g).Distinct)
    (hnumbers : v.EachNumber P) (hdepth : ∀ limit, r.limit = some limit → v.depth ≤ limit) : parse r (print w v) = some (v.map f g) := by
  have hroom : r.Room [] v.depth := by
    intro limit hlimit
    simpa using hdepth limit hlimit
  obtain ⟨s, hs, hrests⟩ := run_print hu v hv hnumbers hroom
  rw [parse, hs, Option.bind_some, hrests.finish]

theorem items_read {items : List (Json τ μ)} {before : List (Json σ ν)} {s : State σ ν}
    (h : ∀ v ∈ items, ∀ frame t, run r (.value, frame :: stack) (print w v) = some t →
      Rests r t (v.map f g) (frame :: stack))
    (hrun : run r (.value, .items before :: stack) (joined (items.map (print w)) ++ [']']) = some s) :
    ∀ v ∈ items, ∃ frame t, run r (.value, frame :: stack) (print w v) = some t := by
  induction items generalizing before with
  | nil => simp
  | cons v items ih =>
    cases items with
    | nil =>
      rw [List.map_singleton, joined, run_append] at hrun
      obtain ⟨t, ht, -⟩ := Option.bind_eq_some_iff.mp hrun
      intro u hu
      cases List.mem_singleton.mp hu
      exact ⟨_, t, ht⟩
    | cons =>
      rw [List.map_cons, List.map_cons, joined, List.append_assoc, run_append] at hrun
      obtain ⟨t, ht, hrest⟩ := Option.bind_eq_some_iff.mp hrun
      have hcomma : step r t ',' = some (.value, .items (before ++ [v.map f g]) :: stack) :=
        (h v (by simp) _ t ht).step rfl
      rw [List.cons_append, run_of_step hcomma, ← List.map_cons] at hrest
      intro x hx
      rcases List.mem_cons.mp hx with rfl | hx
      · exact ⟨_, t, ht⟩
      · exact ih (fun v hv ↦ h v (by simp [hv])) hrest x hx

theorem members_read (hu : Understands w r f g P) {members : List (τ × Json τ μ)} {before : List (σ × Json σ ν)}
    {s : State σ ν} (h : ∀ m ∈ members, ∀ frame t, run r (.value, frame :: stack) (print w m.2) = some t →
      Rests r t (m.2.map f g) (frame :: stack))
    (hrun : run r (.key before, stack)
      (joined (members.map fun m ↦ quote (w.string m.1) ++ ':' :: print w m.2) ++ ['}']) = some s) :
    ∀ m ∈ members, ∃ frame t, run r (.value, frame :: stack) (print w m.2) = some t := by
  induction members generalizing before with
  | nil => simp
  | cons m members ih =>
    have hcolon : step r (.colon before (f m.1), stack) ':' = some (.value, .member before (f m.1) :: stack) := rfl
    cases members with
    | nil =>
      rw [List.map_singleton, joined, List.append_assoc, run_of_run (run_quote_key stack (hu.string m.1) before),
        List.cons_append, run_of_step hcolon, run_append] at hrun
      obtain ⟨t, ht, -⟩ := Option.bind_eq_some_iff.mp hrun
      intro u hu
      cases List.mem_singleton.mp hu
      exact ⟨_, t, ht⟩
    | cons =>
      rw [List.map_cons, List.map_cons, joined, List.append_assoc, List.append_assoc,
        run_of_run (run_quote_key stack (hu.string m.1) before), List.cons_append, run_of_step hcolon,
        run_append] at hrun
      obtain ⟨t, ht, hrest⟩ := Option.bind_eq_some_iff.mp hrun
      have hcomma : step r t ',' = some (.key (put before (f m.1) (m.2.map f g)), stack) :=
        (h m (by simp) _ t ht).step rfl
      rw [List.cons_append, run_of_step hcomma] at hrest
      intro x hx
      rcases List.mem_cons.mp hx with rfl | hx
      · exact ⟨_, t, ht⟩
      · exact ih (fun m hm ↦ h m (by simp [hm])) hrest x hx

theorem room_of_run (hu : Understands w r f g P) (v : Json τ μ) (hv : (v.map f g).Distinct)
    (hnumbers : v.EachNumber P) (hroom : r.Room stack 0) {s : State σ ν}
    (hrun : run r (.value, stack) (print w v) = some s) : r.Room stack v.depth := by
  induction v generalizing stack s with
  | null | bool | number | string => exact hroom
  | array items ih =>
    rw [map_array, distinct_array, List.forall_mem_map] at hv
    rw [eachNumber_array] at hnumbers
    rw [print_array] at hrun
    obtain ⟨t, ht, hrest⟩ := Option.bind_eq_some_iff.mp hrun
    have hopen : begin r stack '[' = some t := ht
    simp only [begin, Char.reduceEq, if_false, if_true] at hopen
    split at hopen
    next hallows =>
      cases hopen
      have hinside {v : Json τ μ} (hmem : v ∈ items) {frame : Frame σ ν} {t : State σ ν}
          (ht : run r (.value, frame :: stack) (print w v) = some t) : r.Room (frame :: stack) v.depth :=
        ih v hmem (hv v hmem) (hnumbers v hmem) (.of_allows hallows frame) ht
      have hread := items_read (f := f) (g := g) (fun v hmem frame t ht ↦ ?_) hrest
      · rw [depth_array]
        refine .around hallows fun n hn ↦ ?_
        obtain ⟨v, hmem, rfl⟩ := List.mem_map.mp hn
        obtain ⟨frame, t, ht⟩ := hread v hmem
        exact ⟨frame, hinside hmem ht⟩
      · obtain ⟨t', ht', hrests⟩ := run_print hu v (hv v hmem) (hnumbers v hmem) (hinside hmem ht)
        rw [ht] at ht'
        cases ht'
        exact hrests
    next => cases hopen
  | object members ih =>
    rw [map_object, distinct_object, List.forall_mem_map] at hv
    rw [eachNumber_object] at hnumbers
    rw [print_object] at hrun
    obtain ⟨t, ht, hrest⟩ := Option.bind_eq_some_iff.mp hrun
    have hopen : begin r stack '{' = some t := ht
    simp only [begin, Char.reduceEq, if_false, if_true] at hopen
    split at hopen
    next hallows =>
      cases hopen
      have hinside {m : τ × Json τ μ} (hmem : m ∈ members) {frame : Frame σ ν} {t : State σ ν}
          (ht : run r (.value, frame :: stack) (print w m.2) = some t) : r.Room (frame :: stack) m.2.depth :=
        ih m hmem (hv.2 m hmem) (hnumbers m hmem) (.of_allows hallows frame) ht
      have hread := members_read hu (fun m hmem frame t ht ↦ ?_) hrest
      · rw [depth_object]
        refine .around hallows fun n hn ↦ ?_
        obtain ⟨m, hmem, rfl⟩ := List.mem_map.mp hn
        obtain ⟨frame, t, ht⟩ := hread m hmem
        exact ⟨frame, hinside hmem ht⟩
      · obtain ⟨t', ht', hrests⟩ := run_print hu m.2 (hv.2 m hmem) (hnumbers m hmem) (hinside hmem ht)
        rw [ht] at ht'
        cases ht'
        exact hrests
    next => cases hopen

theorem parse_too_deep (hu : Understands w r f g P) (v : Json τ μ) (hv : (v.map f g).Distinct)
    (hnumbers : v.EachNumber P) {limit : ℕ} (hlimit : r.limit = some limit) (hdepth : limit < v.depth) :
    parse r (print w v) = none := by
  cases hrun : run r (.value, []) (print w v) with
  | none => rw [parse, hrun, Option.bind_none]
  | some =>
    have hzero : r.Room [] 0 := fun _ _ ↦ Nat.zero_le _
    have hroom := room_of_run hu v hv hnumbers hzero hrun limit hlimit
    simp only [List.length_nil, Nat.zero_add] at hroom
    omega

end Values

/-! ### A reader that reads more -/

section

variable {r' : Reader σ ν}

theorem Reader.Extends.step (h : r'.Extends r) {s t : State σ ν} {c : Char} (hstep : Json.step r s c = some t) :
    Json.step r' s c = some t := by
  obtain ⟨mode, stack⟩ := s
  cases mode with
  | value => simpa only [Json.step, h.begin] using hstep
  | text => simpa only [Json.step, h.string] using hstep
  | numeral cs =>
    rw [Json.step] at hstep ⊢
    split
    next hc => rwa [if_pos hc] at hstep
    next hc =>
      rw [if_neg hc] at hstep
      obtain ⟨n, hn, hproceed⟩ := Option.bind_eq_some_iff.mp hstep
      rw [h.number cs n hn, Option.bind_some, hproceed]
  | key | colon | escaped | hex | word | after => exact hstep

theorem Reader.Extends.run (h : r'.Extends r) {s t : State σ ν} {cs : List Char} (hrun : Json.run r s cs = some t) :
    Json.run r' s cs = some t := by
  induction cs generalizing s with
  | nil => exact hrun
  | cons c cs ih =>
    rw [run_cons] at hrun ⊢
    obtain ⟨u, hu, hrest⟩ := Option.bind_eq_some_iff.mp hrun
    rw [h.step hu, Option.bind_some, ih hrest]

theorem Reader.Extends.parse (h : r'.Extends r) {cs : List Char} {v : Json σ ν} (hparse : Json.parse r cs = some v) :
    Json.parse r' cs = some v := by
  rw [Json.parse] at hparse ⊢
  obtain ⟨⟨mode, stack⟩, hrun, hfinish⟩ := Option.bind_eq_some_iff.mp hparse
  rw [h.run hrun, Option.bind_some]
  unfold Json.finish at hfinish ⊢
  split at hfinish
  · exact hfinish
  · obtain ⟨n, hn, hv⟩ := Option.map_eq_some_iff.mp hfinish
    rw [h.number _ n hn, Option.map_some, hv]
  · cases hfinish

end

end Noesar.Lib.Json
