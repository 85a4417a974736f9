import Mathlib

/-! Patterns whose ways to match are tried in an order, and what of a text matches them, from left to right. -/

namespace Noesar.Lib

/-- A place in a text: what is before it, the nearest first, and what is after it. -/
structure Place (α : Type) where
  before : List α
  after : List α

inductive Pattern (α : Type)
  | look (p : List α → List α → Bool)
  | one (p : α → Bool)
  | seq (first second : Pattern α)
  | alt (first second : Pattern α)
  | greedy (least : ℕ) (most : Option ℕ) (body : Pattern α)

namespace Pattern

variable {α β : Type}

def times (f : Place α → List (Place α)) : ℕ → Place α → List (Place α)
  | 0, s => [s]
  | n + 1, s => (f s).flatMap (times f n)

/-- So many times at most, the longest row first. What matches nothing is not repeated. -/
def upTo (f : Place α → List (Place α)) : ℕ → Place α → List (Place α)
  | 0, s => [s]
  | n + 1, s => ((f s).filter fun e ↦ e.after.length < s.after.length).flatMap (upTo f n) ++ [s]

def ends : Pattern α → Place α → List (Place α)
  | look p, s => if p s.before s.after then [s] else []
  | one p, s => match s.after with
    | [] => []
    | c :: after => if p c then [⟨c :: s.before, after⟩] else []
  | seq first second, s => (first.ends s).flatMap second.ends
  | alt first second, s => first.ends s ++ second.ends s
  | greedy least most body, s =>
    (times body.ends least s).flatMap fun e ↦ upTo body.ends (most.elim e.after.length (· - least)) e

def run (p : α → Bool) : Pattern α := greedy 1 none (one p)

def many (p : α → Bool) : Pattern α := greedy 0 none (one p)

def optional (pat : Pattern α) : Pattern α := greedy 0 (some 1) pat

def exactly (n : ℕ) (p : α → Bool) : Pattern α := greedy n (some n) (one p)

def between (least most : ℕ) (p : α → Bool) : Pattern α := greedy least (some most) (one p)

def cat : List (Pattern α) → Pattern α
  | [] => look fun _ _ ↦ true
  | [pat] => pat
  | pat :: pats => seq pat (cat pats)

def anyOf : List (Pattern α) → Pattern α
  | [] => look fun _ _ ↦ false
  | [pat] => pat
  | pat :: pats => alt pat (anyOf pats)

def firstEnd (pat : Pattern α) (s : Place α) : Option (Place α) := (pat.ends s).head?

/-- A text comes apart into what matches and what is passed over. -/
inductive Piece (α : Type)
  | skipped (c : α)
  | found (m : List α)

def Piece.text : Piece α → List α
  | skipped c => [c]
  | found m => m

/-- The search goes on where a match ends, or one further, where nothing was matched. -/
def pieces (pat : Pattern α) : ℕ → Place α → List (Piece α)
  | 0, _ => []
  | fuel + 1, s => match s.after, pat.firstEnd s with
    | [], none => []
    | [], some _ => [.found []]
    | c :: after, none => .skipped c :: pieces pat fuel ⟨c :: s.before, after⟩
    | c :: after, some e =>
      if e.after.length < (c :: after).length then
        .found ((c :: after).take ((c :: after).length - e.after.length)) :: pieces pat fuel e
      else .found [] :: .skipped c :: pieces pat fuel ⟨c :: s.before, after⟩

def split (pat : Pattern α) (text : List α) : List (Piece α) := pieces pat (text.length + 1) ⟨[], text⟩

def findAll (pat : Pattern α) (text : List α) : List (List α) :=
  (pat.split text).filterMap fun | .skipped _ => none | .found m => some m

def test (pat : Pattern α) (text : List α) : Bool := !(pat.findAll text).isEmpty

def replace (pat : Pattern α) (f : List α → List α) (text : List α) : List α :=
  (pat.split text).flatMap fun | .skipped c => [c] | .found m => f m

def Within (q : α → Prop) : Pattern α → Prop
  | look _ => True
  | one p => ∀ c, p c = true → q c
  | seq first second | alt first second => first.Within q ∧ second.Within q
  | greedy _ _ body => body.Within q

section Ends

def Reads (q : α → Prop) (s e : Place α) : Prop := ∃ m, s.after = m ++ e.after ∧ ∀ c ∈ m, q c

variable {q : α → Prop}

theorem Reads.refl (s : Place α) : Reads q s s := ⟨[], rfl, nofun⟩

theorem Reads.trans {s e e' : Place α} (h : Reads q s e) (h' : Reads q e e') : Reads q s e' := by
  obtain ⟨m, hm, hq⟩ := h
  obtain ⟨m', hm', hq'⟩ := h'
  refine ⟨m ++ m', by rw [hm, hm', List.append_assoc], fun c hc ↦ ?_⟩
  exact (List.mem_append.mp hc).elim (hq c) (hq' c)

variable {f : Place α → List (Place α)} (hf : ∀ s, ∀ e ∈ f s, Reads q s e)

include hf

theorem times_reads (n : ℕ) (s : Place α) : ∀ e ∈ times f n s, Reads q s e := by
  induction n generalizing s with
  | zero =>
    intro e he
    rw [List.mem_singleton.mp he]
    exact .refl s
  | succ n ih =>
    intro e he
    obtain ⟨e', he', he⟩ := List.mem_flatMap.mp he
    exact (hf s e' he').trans (ih e' e he)

theorem upTo_reads (n : ℕ) (s : Place α) : ∀ e ∈ upTo f n s, Reads q s e := by
  induction n generalizing s with
  | zero =>
    intro e he
    rw [List.mem_singleton.mp he]
    exact .refl s
  | succ n ih =>
    intro e he
    rcases List.mem_append.mp he with he | he
    · obtain ⟨e', he', he⟩ := List.mem_flatMap.mp he
      exact (hf s e' (List.mem_of_mem_filter he')).trans (ih e' e he)
    · rw [List.mem_singleton.mp he]
      exact .refl s

omit hf

theorem ends_reads {pat : Pattern α} (h : pat.Within q) (s : Place α) : ∀ e ∈ pat.ends s, Reads q s e := by
  induction pat generalizing s with
  | look =>
    intro e he
    rw [ends] at he
    split at he
    · rw [List.mem_singleton.mp he]
      exact .refl s
    · exact absurd he List.not_mem_nil
  | one =>
    intro e he
    obtain ⟨before, after⟩ := s
    cases after with
    | nil => exact absurd he List.not_mem_nil
    | cons c =>
      simp only [ends] at he
      split at he
      next hc =>
        rw [List.mem_singleton.mp he]
        refine ⟨[c], rfl, fun d hd ↦ ?_⟩
        rw [List.mem_singleton.mp hd]
        exact h c hc
      next => exact absurd he List.not_mem_nil
  | seq first second ih ih' =>
    intro e he
    obtain ⟨e', he', he⟩ := List.mem_flatMap.mp he
    exact (ih h.1 s e' he').trans (ih' h.2 e' e he)
  | alt first second ih ih' =>
    intro e he
    exact (List.mem_append.mp he).elim (ih h.1 s e) (ih' h.2 s e)
  | greedy least most body ih =>
    intro e he
    obtain ⟨e', he', he⟩ := List.mem_flatMap.mp he
    exact (times_reads (ih h) least s e' he').trans (upTo_reads (ih h) _ e' e he)

theorem within_true (pat : Pattern α) : pat.Within fun _ ↦ True := by
  induction pat with
  | look => trivial
  | one => exact fun _ _ ↦ trivial
  | seq first second ih ih' => exact ⟨ih, ih'⟩
  | alt first second ih ih' => exact ⟨ih, ih'⟩
  | greedy least most body ih => exact ih

theorem within_run (p : α → Bool) : (run p).Within (p · = true) := fun _ h ↦ h

theorem firstEnd_reads {pat : Pattern α} (h : pat.Within q) {s e : Place α} (he : pat.firstEnd s = some e) :
    Reads q s e := ends_reads h s e (List.mem_of_mem_head? he)

end Ends

section Pieces

theorem Reads.take {q : α → Prop} {s e : Place α} (h : Reads q s e) :
    s.after.take (s.after.length - e.after.length) ++ e.after = s.after ∧
      ∀ c ∈ s.after.take (s.after.length - e.after.length), q c := by
  obtain ⟨m, hm, hq⟩ := h
  have htake : s.after.take (s.after.length - e.after.length) = m := by
    rw [hm, List.length_append, Nat.add_sub_cancel]
    exact List.take_left
  rw [htake]
  exact ⟨hm.symm, hq⟩

variable {pat : Pattern α}

theorem text_pieces (fuel : ℕ) (s : Place α) (h : s.after.length < fuel) :
    (pieces pat fuel s).flatMap Piece.text = s.after := by
  induction fuel generalizing s with
  | zero => omega
  | succ fuel ih =>
    obtain ⟨before, after⟩ := s
    cases after with
    | nil =>
      simp only [pieces]
      cases pat.firstEnd ⟨before, []⟩ with
      | none => rfl
      | some => rfl
    | cons c after =>
      dsimp only [List.length_cons] at h
      simp only [pieces]
      cases he : pat.firstEnd ⟨before, c :: after⟩ with
      | none =>
        simp only [List.flatMap_cons, Piece.text]
        rw [ih _ (by dsimp only; omega)]
        rfl
      | some e =>
        dsimp only
        split
        next hlt =>
          dsimp only [List.length_cons] at hlt
          simp only [List.flatMap_cons, Piece.text]
          rw [ih e (by omega)]
          exact (firstEnd_reads (within_true pat) he).take.1
        next =>
          simp only [List.flatMap_cons, Piece.text]
          rw [ih _ (by dsimp only; omega)]
          rfl

theorem text_split (pat : Pattern α) (text : List α) : (pat.split text).flatMap Piece.text = text :=
  text_pieces _ _ (Nat.lt_succ_self _)

theorem found_pieces {q : α → Prop} (hq : pat.Within q) {m : List α} (fuel : ℕ) (s : Place α)
    (h : .found m ∈ pieces pat fuel s) : ∀ c ∈ m, q c := by
  induction fuel generalizing s with
  | zero => exact absurd h List.not_mem_nil
  | succ fuel ih =>
    obtain ⟨before, after⟩ := s
    cases after with
    | nil =>
      simp only [pieces] at h
      cases he : pat.firstEnd ⟨before, []⟩ with
      | none =>
        rw [he] at h
        exact absurd h List.not_mem_nil
      | some =>
        rw [he] at h
        cases List.mem_singleton.mp h
        exact nofun
    | cons c after =>
      simp only [pieces] at h
      cases he : pat.firstEnd ⟨before, c :: after⟩ with
      | none =>
        rw [he] at h
        rcases List.mem_cons.mp h with h | h
        · cases h
        · exact ih _ h
      | some =>
        rw [he] at h
        dsimp only at h
        split at h
        · rcases List.mem_cons.mp h with h | h
          · cases h
            exact (firstEnd_reads hq he).take.2
          · exact ih _ h
        · rcases List.mem_cons.mp h with h | h
          · cases h
            exact nofun
          rcases List.mem_cons.mp h with h | h
          · cases h
          · exact ih _ h

theorem mem_findAll {m text : List α} : m ∈ pat.findAll text ↔ .found m ∈ pat.split text := by
  rw [findAll, List.mem_filterMap]
  constructor
  · rintro ⟨piece, hpiece, h⟩
    cases piece with
    | skipped => cases h
    | found =>
      cases h
      exact hpiece
  · exact fun h ↦ ⟨_, h, rfl⟩

theorem findAll_within {q : α → Prop} (hq : pat.Within q) {m text : List α} (h : m ∈ pat.findAll text) : ∀ c ∈ m, q c :=
  found_pieces hq _ _ (mem_findAll.mp h)

theorem replace_eq_self {f : List α → List α} {text : List α} (h : ∀ m ∈ pat.findAll text, f m = m) :
    pat.replace f text = text := by
  conv_rhs => rw [← text_split pat text]
  refine List.flatMap_congr fun piece hpiece ↦ ?_
  cases piece with
  | skipped => rfl
  | found m => exact h m (mem_findAll.mpr hpiece)

theorem filter_replace {p : α → Bool} {f : List α → List α} {text : List α}
    (h : ∀ m ∈ pat.findAll text, (f m).filter p = m.filter p) : (pat.replace f text).filter p = text.filter p := by
  conv_rhs => rw [← text_split pat text]
  rw [replace, List.filter_flatMap, List.filter_flatMap]
  refine List.flatMap_congr fun piece hpiece ↦ ?_
  cases piece with
  | skipped => rfl
  | found m => exact h m (mem_findAll.mpr hpiece)

end Pieces

section Runs

variable {p : α → Bool}

theorem firstEnd_run {c : α} (hc : p c = true) (before after : List α) :
    ∃ e, (run p).firstEnd ⟨before, c :: after⟩ = some e ∧ e.after.length < (c :: after).length := by
  have hone : times (one p).ends 1 ⟨before, c :: after⟩ = [⟨c :: before, after⟩] := by
    simp [times, ends, hc]
  have hne : upTo (one p).ends after.length ⟨c :: before, after⟩ ≠ [] := by
    cases after with
    | nil => exact List.cons_ne_nil _ _
    | cons => exact List.append_ne_nil_of_right_ne_nil _ (List.cons_ne_nil _ _)
  have hends : (run p).ends ⟨before, c :: after⟩ = upTo (one p).ends after.length ⟨c :: before, after⟩ := by
    rw [run, ends, hone]
    exact List.flatMap_singleton _ _
  obtain ⟨e, rest, heq⟩ := List.exists_cons_of_ne_nil hne
  refine ⟨e, by rw [firstEnd, hends, heq]; rfl, ?_⟩
  obtain ⟨m, hm, -⟩ := upTo_reads (ends_reads (within_true (one p))) _ _ e (heq ▸ List.mem_cons_self)
  have hlength := congrArg List.length hm
  rw [List.length_append] at hlength
  dsimp only [List.length_cons] at hlength ⊢
  omega

theorem skipped_pieces_run {c : α} (fuel : ℕ) (s : Place α) (h : .skipped c ∈ pieces (run p) fuel s) : p c = false := by
  induction fuel generalizing s with
  | zero => exact absurd h List.not_mem_nil
  | succ fuel ih =>
    obtain ⟨before, after⟩ := s
    cases after with
    | nil =>
      simp only [pieces] at h
      cases he : (run p).firstEnd ⟨before, []⟩ with
      | none =>
        rw [he] at h
        exact absurd h List.not_mem_nil
      | some =>
        rw [he] at h
        cases List.mem_singleton.mp h
    | cons d after =>
      simp only [pieces] at h
      cases hd : p d with
      | true =>
        obtain ⟨e, he, hlt⟩ := firstEnd_run hd before after
        rw [he] at h
        dsimp only at h
        rw [if_pos hlt] at h
        rcases List.mem_cons.mp h with h | h
        · cases h
        · exact ih _ h
      | false =>
        have hnone : (run p).firstEnd ⟨before, d :: after⟩ = none := by
          simp [firstEnd, run, ends, times, hd]
        rw [hnone] at h
        rcases List.mem_cons.mp h with h | h
        · cases h
          exact hd
        · exact ih _ h

theorem flatten_findAll_run (p : α → Bool) (text : List α) : ((run p).findAll text).flatten = text.filter p := by
  have hpieces : ∀ piece ∈ (run p).split text, (match piece with
      | .skipped _ => none
      | .found m => some m : Option (List α)).toList.flatten = piece.text.filter p := by
    intro piece hpiece
    cases piece with
    | skipped => simp [Piece.text, skipped_pieces_run _ _ hpiece]
    | found =>
      have hm := findAll_within (within_run p) (mem_findAll.mpr hpiece)
      simp [Piece.text, List.filter_eq_self.mpr hm]
  conv_rhs => rw [← text_split (run p) text]
  rw [List.filter_flatMap, ← List.flatMap_congr hpieces, findAll, List.filterMap_eq_flatMap_toList]
  simp only [← List.flatMap_id', List.flatMap_assoc]

end Runs

end Pattern

end Noesar.Lib
