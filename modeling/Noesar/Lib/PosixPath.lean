import Mathlib

namespace Noesar.Lib.PosixPath

def splitChars (sep : Char → Bool) : List Char → List (List Char)
  | [] => [[]]
  | c :: cs =>
    if sep c then [] :: splitChars sep cs
    else match splitChars sep cs with
      | [] => [[c]]
      | w :: ws => (c :: w) :: ws

def splitOn (sep : Char → Bool) (s : String) : List String :=
  (splitChars sep s.toList).map String.ofList

def segments (path : String) : List String := splitOn (· = '/') path

def isAbsolute (path : String) : Bool := path.toList.head? = some '/'

/-- One segment read onto the stack of segments kept so far, innermost first.
With `above`, a `..` that has nothing to remove is kept. -/
def push (above : Bool) (stack : List String) (seg : String) : List String :=
  if seg = "" ∨ seg = "." then stack
  else if seg = ".." then
    match stack with
    | [] => if above then [".."] else []
    | last :: rest => if last = ".." then (if above then ".." :: stack else stack) else rest
  else seg :: stack

def normalizeSegments (above : Bool) (segs : List String) : List String :=
  (segs.foldl (push above) []).reverse

/-- The segments of `normalize(path)` for a relative path. -/
def normalize (path : String) : List String := normalizeSegments true (segments path)

/-- `resolve(root, path)` for an absolute root, as the list of its segments. -/
def resolve (root : List String) (path : String) : List String :=
  normalizeSegments false (root ++ segments path)

def Plain (seg : String) : Prop := seg ≠ "" ∧ seg ≠ "." ∧ seg ≠ ".."

instance (seg : String) : Decidable (Plain seg) := inferInstanceAs (Decidable (_ ∧ _))

theorem push_plain {above : Bool} {stack : List String} {seg : String} (h : Plain seg) :
    push above stack seg = seg :: stack := by
  obtain ⟨h₁, h₂, h₃⟩ := h
  simp [push, h₁, h₂, h₃]

theorem foldl_push_plain {above : Bool} {segs : List String} (h : ∀ s ∈ segs, Plain s)
    (stack : List String) : segs.foldl (push above) stack = segs.reverse ++ stack := by
  induction segs generalizing stack with
  | nil => rfl
  | cons s segs ih =>
    rw [List.foldl_cons, push_plain (h s (by simp)), ih (fun t ht ↦ h t (by simp [ht]))]
    simp

theorem push_cases (above : Bool) (stack : List String) (seg : String) :
    push above stack seg = stack ∨ (∃ last, last ≠ ".." ∧ stack = last :: push above stack seg) ∨
      (seg ≠ "" ∧ seg ≠ "." ∧ push above stack seg = seg :: stack ∧
        (seg = ".." → ∀ s ∈ stack.head?, s = "..")) := by
  by_cases h : seg = "" ∨ seg = "."
  · exact .inl (by simp [push, h])
  obtain ⟨h₁, h₂⟩ := not_or.mp h
  by_cases hd : seg = ".."
  · subst hd
    cases stack with
    | nil => cases above <;> simp [push]
    | cons last =>
      by_cases hl : last = ".."
      · cases above <;> simp [push, hl]
      · exact .inr (.inl ⟨last, hl, by simp [push, hl]⟩)
  · exact .inr (.inr ⟨h₁, h₂, by simp [push, h₁, h₂, hd], fun he ↦ absurd he hd⟩)

theorem plain_normalizeSegments {segs : List String} : ∀ name ∈ normalizeSegments false segs, Plain name := by
  have hgeneral (stack : List String) (hstack : ∀ name ∈ stack, Plain name) :
      ∀ name ∈ segs.foldl (push false) stack, Plain name := by
    induction segs generalizing stack with
    | nil => exact hstack
    | cons seg segs ih =>
      apply ih
      intro name hname
      rcases push_cases false stack seg with hsame | ⟨last, -, hdropped⟩ | ⟨hempty, hdot, hpush, htop⟩
      · exact hstack name (hsame ▸ hname)
      · exact hstack name (hdropped ▸ List.mem_cons_of_mem _ hname)
      · have hdots : seg ≠ ".." := by
          rintro rfl
          cases stack with
          | nil => cases hpush
          | cons top => exact (hstack top List.mem_cons_self).2.2 (htop rfl top rfl)
        rw [hpush] at hname
        rcases List.mem_cons.mp hname with rfl | hname
        · exact ⟨hempty, hdot, hdots⟩
        · exact hstack name hname
  intro name hname
  exact hgeneral [] (fun _ h ↦ absurd h List.not_mem_nil) name (List.mem_reverse.mp hname)

theorem bottom_stays {stack segs : List String} (h : stack.getLast? = some "..") :
    (segs.foldl (push true) stack).getLast? = some ".." := by
  induction segs generalizing stack with
  | nil => exact h
  | cons seg segs ih =>
    apply ih
    rcases push_cases true stack seg with he | ⟨last, hl, he⟩ | ⟨_, _, he, _⟩
    · rw [he]; exact h
    · rw [he, List.getLast?_cons] at h
      cases hp : (push true stack seg).getLast? with
      | none => simp [hp, hl] at h
      | some => simpa [hp] using h
    · rw [he, List.getLast?_cons, h]; rfl

theorem foldl_push_floor {floor segs stack : List String} (hplain : ∀ s ∈ stack, Plain s)
    (h : ".." ∉ segs.foldl (push true) stack) :
    segs.foldl (push false) (stack ++ floor) = segs.foldl (push true) stack ++ floor := by
  induction segs generalizing stack with
  | nil => rfl
  | cons seg segs ih =>
    simp only [List.foldl_cons] at h ⊢
    by_cases hb : seg = ".." ∧ stack = []
    · obtain ⟨rfl, rfl⟩ := hb
      exact absurd (List.mem_of_getLast? (bottom_stays rfl)) h
    · have hstep : push false (stack ++ floor) seg = push true stack seg ++ floor := by
        cases stack with
        | nil => simp_all [push]; split <;> rfl
        | cons last =>
          have hl := (hplain last (by simp)).2.2
          simp only [push, List.cons_append, hl, if_false]
          split
          · rfl
          · split <;> rfl
      have hplain' : ∀ s ∈ push true stack seg, Plain s := by
        intro s hs
        rcases push_cases true stack seg with he | ⟨last, _, he⟩ | ⟨h₁, h₂, he, hd⟩
        · exact hplain s (he ▸ hs)
        · exact hplain s (he ▸ List.mem_cons_of_mem last hs)
        · rw [he] at hs
          rcases List.mem_cons.mp hs with rfl | hs
          · refine ⟨h₁, h₂, fun hdd ↦ ?_⟩
            cases stack with
            | nil => exact hb ⟨hdd, rfl⟩
            | cons last => exact (hplain last (by simp)).2.2 (hd hdd last rfl)
          · exact hplain s hs
      rw [hstep, ih hplain' h]

theorem resolve_eq_append {root : List String} {path : String} (hroot : ∀ s ∈ root, Plain s)
    (h : ".." ∉ normalize path) : resolve root path = root ++ normalize path := by
  have h' : ".." ∉ (segments path).foldl (push true) [] := by
    simpa [normalize, normalizeSegments] using h
  have hf := @foldl_push_floor root.reverse _ _ (by simp) h'
  simp only [List.nil_append] at hf
  simp [resolve, normalize, normalizeSegments, List.foldl_append, foldl_push_plain hroot, hf]

def joinChars : List (List Char) → List Char
  | [] => []
  | [w] => w
  | w :: v :: ws => w ++ '/' :: joinChars (v :: ws)

def joined (names : List String) : String := String.ofList (joinChars (names.map String.toList))

theorem splitChars_word {w : List Char} (hw : '/' ∉ w) : splitChars (· = '/') w = [w] := by
  induction w with
  | nil => rfl
  | cons c cs ih =>
    have hc : c ≠ '/' := fun h ↦ hw (by simp [h])
    simp [splitChars, hc, ih (fun h ↦ hw (List.mem_cons_of_mem c h))]

theorem splitChars_append {w : List Char} (hw : '/' ∉ w) (cs : List Char) :
    splitChars (· = '/') (w ++ '/' :: cs) = w :: splitChars (· = '/') cs := by
  induction w with
  | nil => simp [splitChars]
  | cons c w ih =>
    have hc : c ≠ '/' := fun h ↦ hw (by simp [h])
    simp [splitChars, hc, ih (fun h ↦ hw (List.mem_cons_of_mem c h))]

theorem splitChars_joinChars {ws : List (List Char)} (hne : ws ≠ []) (h : ∀ w ∈ ws, '/' ∉ w) :
    splitChars (· = '/') (joinChars ws) = ws := by
  induction ws with
  | nil => exact absurd rfl hne
  | cons w ws ih =>
    cases ws with
    | nil => exact splitChars_word (h w (by simp))
    | cons =>
      rw [joinChars, splitChars_append (h w (by simp)), ih (by simp) fun u hu ↦ h u (List.mem_cons_of_mem w hu)]

theorem normalize_joined {names : List String} (hne : names ≠ []) (h : ∀ n ∈ names, Plain n ∧ '/' ∉ n.toList) :
    normalize (joined names) = names := by
  have hsegs : segments (joined names) = names := by
    have hs : ∀ w ∈ names.map String.toList, '/' ∉ w := by
      intro w hw
      obtain ⟨n, hn, rfl⟩ := List.mem_map.mp hw
      exact (h n hn).2
    simp only [segments, splitOn, joined, String.toList_ofList]
    rw [splitChars_joinChars (by simpa using hne) hs]
    simp
  rw [normalize, hsegs, normalizeSegments, foldl_push_plain fun n hn ↦ (h n hn).1]
  simp

end Noesar.Lib.PosixPath
