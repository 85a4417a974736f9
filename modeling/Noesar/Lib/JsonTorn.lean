import Noesar.Lib.JsonReading

namespace Noesar.Lib.Json

open Utf16 Framing

variable {σ ν τ μ : Type} {r : Reader σ ν} {s t : State σ ν} {c : Char}

def Inside : State σ ν → Prop
  | (.value, stack) => stack ≠ []
  | (.word left _, stack) => stack ≠ [] ∧ ∀ c ∈ left, c.toNat < 0x80
  | (.numeral _, stack) => stack ≠ []
  | (.text place _, stack) => place = none → stack ≠ []
  | (.escaped place _, stack) => place = none → stack ≠ []
  | (.hex place _ _, stack) => place = none → stack ≠ []
  | _ => True

theorem begin_inside {stack : List (Frame σ ν)} (h : begin r stack c = some t) (hne : stack ≠ []) : Inside t := by
  unfold begin at h
  split_ifs at h <;> cases h <;> simp [Inside, hne]

section

variable (hc : 0x80 ≤ c.toNat)

include hc

theorem ne_of_outside {d : Char} (hd : d.toNat < 0x80) : c ≠ d := by
  rintro rfl
  omega

theorem isDigit_of_outside : c.isDigit = false := by
  cases hd : c.isDigit with
  | false => rfl
  | true =>
    simp only [Char.isDigit, Bool.and_eq_true, decide_eq_true_eq, UInt32.le_iff_toNat_le] at hd
    have hval : c.val.toNat ≤ 57 := hd.2
    have hnat : c.toNat = c.val.toNat := rfl
    omega

theorem isSpace_of_outside : isSpace c = false := by
  have hne {d : Char} (hd : d.toNat < 0x80) : c ≠ d := ne_of_outside hc hd
  simp [isSpace, @hne ' ' (by decide), @hne '\t' (by decide), @hne '\n' (by decide), @hne '\r' (by decide)]

theorem begin_of_outside (stack : List (Frame σ ν)) : begin r stack c = none := by
  have hne {d : Char} (hd : d.toNat < 0x80) : c ≠ d := ne_of_outside hc hd
  simp [begin, @hne '"' (by decide), @hne '[' (by decide), @hne '{' (by decide), @hne 't' (by decide),
    @hne 'f' (by decide), @hne 'n' (by decide), @hne '-' (by decide), isDigit_of_outside hc]

end

variable [DecidableEq σ]

theorem proceed_inside {v : Json σ ν} {stack : List (Frame σ ν)} (h : proceed v stack c = some t) : Inside t := by
  unfold proceed at h
  split at h
  · cases h
    trivial
  · split at h
    · cases h
    · split_ifs at h <;> cases h <;> simp [Inside]
    · split_ifs at h <;> cases h <;> simp [Inside]

theorem step_inside (h : step r s c = some t) (hs : Inside s) : Inside t := by
  obtain ⟨mode, stack⟩ := s
  cases mode with
  | value =>
    rw [step] at h
    split at h
    · cases h
      exact hs
    · split at h
      · unfold closed at h
        split at h
        · cases h
          trivial
        · cases h
      · exact begin_inside h hs
  | key | colon =>
    rw [step] at h
    split_ifs at h <;> cases h <;> simp [Inside]
  | text place =>
    rw [step] at h
    split_ifs at h
    · obtain ⟨key, -, rfl⟩ := Option.map_eq_some_iff.mp h
      cases place <;> trivial
    · cases h
      exact hs
    · cases h
      exact hs
  | escaped =>
    rw [step] at h
    split_ifs at h
    · cases h
      exact hs
    · obtain ⟨u, -, rfl⟩ := Option.map_eq_some_iff.mp h
      exact hs
  | hex =>
    rw [step] at h
    obtain ⟨d, -, rfl⟩ := Option.map_eq_some_iff.mp h
    split <;> exact hs
  | word left =>
    cases left with
    | nil => cases h
    | cons x left =>
      cases left with
      | nil =>
        rw [step] at h
        split_ifs at h
        cases h
        trivial
      | cons y left =>
        rw [step] at h
        · split_ifs at h
          cases h
          exact ⟨hs.1, fun c hc ↦ hs.2 c (by simp [hc])⟩
        · simp
  | numeral =>
    rw [step] at h
    split_ifs at h
    · cases h
      exact hs
    · obtain ⟨n, -, hproceed⟩ := Option.bind_eq_some_iff.mp h
      exact proceed_inside hproceed
  | after => exact proceed_inside h

theorem run_inside {cs : List Char} (h : run r s cs = some t) (hs : Inside s) : Inside t := by
  induction cs generalizing s with
  | nil =>
    cases h
    exact hs
  | cons c cs ih =>
    obtain ⟨u, hu, hrest⟩ := Option.bind_eq_some_iff.mp h
    exact ih hrest (step_inside hu hs)

theorem run_ended {v : Json σ ν} {cs : List Char} (h : run r (.after v, []) cs = some t) :
    ∀ c ∈ cs, isSpace c = true := by
  induction cs with
  | nil => simp
  | cons c cs ih =>
    obtain ⟨u, hu, hrest⟩ := Option.bind_eq_some_iff.mp h
    have hproceed : proceed v [] c = some u := hu
    unfold proceed at hproceed
    split at hproceed
    next hspace =>
      cases hproceed
      intro d hd
      rcases List.mem_cons.mp hd with rfl | hd
      · exact hspace
      · exact ih hrest d hd
    · cases hproceed

section Outside

variable (hc : 0x80 ≤ c.toNat)

include hc

theorem proceed_of_outside (v : Json σ ν) (stack : List (Frame σ ν)) : proceed v stack c = none := by
  have hne {d : Char} (hd : d.toNat < 0x80) : c ≠ d := ne_of_outside hc hd
  unfold proceed
  rw [if_neg (by simp [isSpace_of_outside hc])]
  split
  · rfl
  · rw [if_neg (@hne ',' (by decide)), if_neg (@hne ']' (by decide))]
  · rw [if_neg (@hne ',' (by decide)), if_neg (@hne '}' (by decide))]

theorem unescape_of_outside : unescape c = none := by
  have hne {d : Char} (hd : d.toNat < 0x80) : c ≠ d := ne_of_outside hc hd
  simp [unescape, @hne '"' (by decide), @hne '\\' (by decide), @hne '/' (by decide), @hne 'b' (by decide),
    @hne 'f' (by decide), @hne 'n' (by decide), @hne 'r' (by decide), @hne 't' (by decide)]

theorem unhex_of_outside : unhex c = none := by
  have hle {d : Char} (hd : d.toNat < 0x80) : ¬ c ≤ d := by
    rw [Char.le_def, UInt32.le_iff_toNat_le]
    have hnat : c.toNat = c.val.toNat := rfl
    have hnat' : d.toNat = d.val.toNat := rfl
    omega
  simp [unhex, isDigit_of_outside hc, @hle 'f' (by decide), @hle 'F' (by decide)]

theorem text_of_step (h : step r s c = some t) (hs : Inside s) : ∃ place us stack, s = (.text place us, stack) := by
  obtain ⟨mode, stack⟩ := s
  have hspace : ¬ isSpace c = true := by simp [isSpace_of_outside hc]
  have hne {d : Char} (hd : d.toNat < 0x80) : c ≠ d := ne_of_outside hc hd
  cases mode with
  | value =>
    rw [step, if_neg hspace, if_neg (@hne ']' (by decide)), begin_of_outside hc] at h
    cases h
  | key =>
    rw [step, if_neg hspace, if_neg (@hne '"' (by decide)), if_neg fun h ↦ @hne '}' (by decide) h.1] at h
    cases h
  | colon =>
    rw [step, if_neg hspace, if_neg (@hne ':' (by decide))] at h
    cases h
  | text place us => exact ⟨place, us, stack, rfl⟩
  | escaped =>
    rw [step, if_neg (@hne 'u' (by decide)), unescape_of_outside hc] at h
    cases h
  | hex =>
    rw [step, unhex_of_outside hc] at h
    cases h
  | word left =>
    cases left with
    | nil => cases h
    | cons x left =>
      cases left with
      | nil =>
        rw [step, if_neg (hne (hs.2 x (by simp)))] at h
        cases h
      | cons y left =>
        rw [step, if_neg (hne (hs.2 x (by simp)))] at h
        · cases h
        · simp
  | numeral =>
    have hnumeral : isNumeral c = false := by
      simp [isNumeral, isDigit_of_outside hc, @hne '-' (by decide), @hne '+' (by decide), @hne '.' (by decide),
        @hne 'e' (by decide), @hne 'E' (by decide)]
    rw [step, if_neg (by simp [hnumeral])] at h
    obtain ⟨n, -, hproceed⟩ := Option.bind_eq_some_iff.mp h
    rw [proceed_of_outside hc] at hproceed
    cases hproceed
  | after =>
    rw [step, proceed_of_outside hc] at h
    cases h

end Outside

section

variable {w : Writer τ μ} {f : τ → σ} {g : μ → ν} {P : μ → Prop} {members : List (τ × Json τ μ)}
  {front back : List Char}

theorem brace_mem_back (hsplit : print w (.object members) = front ++ back) (hback : back ≠ []) : '}' ∈ back := by
  rw [print_object, ← List.cons_append] at hsplit
  have hlast := congrArg List.getLast? hsplit
  rw [List.getLast?_append_of_ne_nil _ hback] at hlast
  simp only [List.getLast?_append, List.getLast?_singleton, Option.some_or] at hlast
  exact List.mem_of_getLast? hlast.symm

variable (hu : Understands w r f g P) (hv : ((object members).map f g).Distinct)
  (hnumbers : (object members).EachNumber P) (hlimit : r.limit = none)

include hu hv hnumbers hlimit

theorem run_object : run r (.value, []) (print w (.object members)) = some (.after ((object members).map f g), []) := by
  have hroom : r.Room [] (object members).depth := by
    intro limit h
    rw [hlimit] at h
    cases h
  obtain ⟨s, hs, hrests⟩ := run_print hu (.object members) hv hnumbers hroom
  rw [map_object] at hrests ⊢
  cases hrests with
  | after => exact hs

theorem run_front (hsplit : print w (.object members) = front ++ back) (hfront : front ≠ []) :
    ∃ s, run r (.value, []) front = some s ∧ Inside s ∧
      run r s back = some (.after ((object members).map f g), []) := by
  have hrun := run_object hu hv hnumbers hlimit
  rw [hsplit, run_append] at hrun
  obtain ⟨s, hs, hback⟩ := Option.bind_eq_some_iff.mp hrun
  refine ⟨s, hs, ?_, hback⟩
  cases front with
  | nil => exact absurd rfl hfront
  | cons =>
    rw [print_object, List.cons_append, List.cons.injEq] at hsplit
    obtain ⟨rfl, -⟩ := hsplit
    obtain ⟨t, ht, hrest⟩ := Option.bind_eq_some_iff.mp hs
    refine run_inside hrest ?_
    have hbegin : begin r [] '{' = some t := ht
    simp only [begin, Reader.allows, hlimit] at hbegin
    cases hbegin
    trivial

theorem parse_torn (hsplit : print w (.object members) = front ++ back) (hback : back ≠ []) : parse r front = none := by
  by_cases hfront : front = []
  · subst hfront
    rfl
  obtain ⟨s, hs, hinside, hrest⟩ := run_front hu hv hnumbers hlimit hsplit hfront
  rw [parse, hs, Option.bind_some]
  have hbrace := brace_mem_back hsplit hback
  obtain ⟨mode, stack⟩ := s
  cases stack with
  | cons => cases mode <;> rfl
  | nil =>
    cases mode with
    | after =>
      have hspace := run_ended hrest _ hbrace
      cases hspace
    | numeral => exact absurd rfl hinside
    | _ => rfl

theorem parse_torn_inside {c d : Char} (hsplit : print w (.object members) = front ++ c :: back)
    (hc : 0x80 ≤ c.toNat) (hd : 0x80 ≤ d.toNat) : parse r (front ++ [d]) = none := by
  have hfront : front ≠ [] := by
    rintro rfl
    rw [print_object, List.nil_append, List.cons.injEq] at hsplit
    obtain ⟨rfl, -⟩ := hsplit
    exact absurd hc (by decide)
  obtain ⟨s, hs, hinside, hrest⟩ := run_front hu hv hnumbers hlimit hsplit hfront
  obtain ⟨t, ht, -⟩ := Option.bind_eq_some_iff.mp hrest
  obtain ⟨place, us, stack, rfl⟩ := text_of_step hc ht hinside
  have hstep : step r (.text place us, stack) d = some (.text place (us ++ units d), stack) := by
    rw [step, if_neg (ne_of_outside hd (by decide)), if_neg (ne_of_outside hd (by decide)), if_neg (by omega)]
  rw [parse, run_of_run hs, run_of_step hstep]
  rfl

end

section Printable

theorem printable_hexDigit (n : ℕ) : 0x20 ≤ (hexDigit n).toNat := by
  have hall : ∀ n < 16, 0x20 ≤ (hexDigit n).toNat := by decide
  rcases Nat.lt_or_ge n 16 with h | h
  · exact hall n h
  · rw [hexDigit, List.getD_eq_getElem?_getD, List.getElem?_eq_none (by simpa using h)]
    decide

theorem printable_hex4 {n : ℕ} (h : c ∈ '\\' :: 'u' :: hex4 n) : 0x20 ≤ c.toNat := by
  simp only [hex4, List.mem_cons, List.not_mem_nil, or_false] at h
  rcases h with rfl | rfl | rfl | rfl | rfl | rfl
  · decide
  · decide
  all_goals exact printable_hexDigit _

theorem printable_escape {d : Char} (h : d ∈ escape c) : 0x20 ≤ d.toNat := by
  have hpair {x : Char} (hx : 0x20 ≤ x.toNat) (h : d ∈ ['\\', x]) : 0x20 ≤ d.toNat := by
    rcases List.mem_pair.mp h with rfl | rfl
    · decide
    · exact hx
  unfold escape at h
  split_ifs at h
  · exact hpair (by decide) h
  · exact hpair (by decide) h
  · exact hpair (by decide) h
  · exact hpair (by decide) h
  · exact hpair (by decide) h
  · exact hpair (by decide) h
  · exact hpair (by decide) h
  · exact printable_hex4 h
  · cases List.mem_singleton.mp h
    omega

theorem printable_quote {us : Units} (h : c ∈ quote us) : 0x20 ≤ c.toNat := by
  simp only [quote, List.cons_append, List.mem_cons, List.mem_append, List.mem_flatMap, List.not_mem_nil, or_false] at h
  rcases h with rfl | ⟨p, -, hc⟩ | rfl
  · decide
  · cases p with
    | inl => exact printable_escape hc
    | inr => exact printable_hex4 hc
  · decide

theorem mem_joined {ts : List (List Char)} (h : c ∈ joined ts) : c = ',' ∨ ∃ t ∈ ts, c ∈ t := by
  induction ts using joined.induct with
  | case1 => cases h
  | case2 t => exact .inr ⟨t, by simp, h⟩
  | case3 t u ts ih =>
    rw [joined, List.mem_append, List.mem_cons] at h
    rcases h with h | h | h
    · exact .inr ⟨t, by simp, h⟩
    · exact .inl h
    · rcases ih h with h | ⟨t, ht, hc⟩
      · exact .inl h
      · exact .inr ⟨t, List.mem_cons_of_mem _ ht, hc⟩

theorem printable_numeric {cs : List Char} (h : Numeric cs) (hc : c ∈ cs) : 0x20 ≤ c.toNat := by
  have hdigit {d : Char} (hd : d.isDigit = true) : 0x20 ≤ d.toNat := by
    simp only [Char.isDigit, ge_iff_le, Bool.and_eq_true, decide_eq_true_eq, UInt32.le_iff_toNat_le] at hd
    exact le_trans (by decide) hd.1
  have hnumeral {d : Char} (hd : isNumeral d = true) : 0x20 ≤ d.toNat := by
    simp only [isNumeral, Bool.or_eq_true, decide_eq_true_eq] at hd
    rcases hd with ((((hd | rfl) | rfl) | rfl) | rfl) | rfl
    · exact hdigit hd
    all_goals decide
  obtain ⟨d, ds, rfl, hd, hds⟩ := h
  rcases List.mem_cons.mp hc with rfl | hc
  · rcases hd with rfl | hd
    · decide
    · exact hdigit hd
  · exact hnumeral (hds c hc)

theorem printable_print {w : Writer τ μ} {v : Json τ μ} (h : v.EachNumber fun n ↦ Numeric (w.number n))
    (hc : c ∈ print w v) : 0x20 ≤ c.toNat := by
  induction v generalizing c with
  | null =>
    have hall : ("null".toList.all fun c ↦ decide (0x20 ≤ c.toNat)) = true := by decide
    exact of_decide_eq_true (List.all_eq_true.mp hall c hc)
  | bool b =>
    have hall : ∀ b : Bool, ((if b then "true" else "false").toList.all fun c ↦ decide (0x20 ≤ c.toNat)) = true := by decide
    exact of_decide_eq_true (List.all_eq_true.mp (hall b) c hc)
  | number => exact printable_numeric h hc
  | string => exact printable_quote hc
  | array items ih =>
    rw [eachNumber_array] at h
    rw [print_array, List.mem_cons, List.mem_append, List.mem_singleton] at hc
    rcases hc with rfl | hc | rfl
    · decide
    · rcases mem_joined hc with rfl | ⟨t, ht, hc⟩
      · decide
      · obtain ⟨v, hv, rfl⟩ := List.mem_map.mp ht
        exact ih v hv (h v hv) hc
    · decide
  | object members ih =>
    rw [eachNumber_object] at h
    rw [print_object, List.mem_cons, List.mem_append, List.mem_singleton] at hc
    rcases hc with rfl | hc | rfl
    · decide
    · rcases mem_joined hc with rfl | ⟨t, ht, hc⟩
      · decide
      · obtain ⟨m, hm, rfl⟩ := List.mem_map.mp ht
        rw [List.mem_append, List.mem_cons] at hc
        rcases hc with hc | rfl | hc
        · exact printable_quote hc
        · decide
        · exact ih m hm (h m hm) hc
    · decide

end Printable

end Noesar.Lib.Json
