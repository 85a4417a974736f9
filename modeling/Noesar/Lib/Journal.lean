import Noesar.Lib.InsertionMap

namespace Noesar.Lib.Journal

variable {κ ν : Type} [DecidableEq κ]

def overwrite (m : InsertionMap κ ν) (ws : List (κ × ν)) : InsertionMap κ ν :=
  ws.foldl (fun m w ↦ m.set w.1 w.2) m

def journal : InsertionMap κ ν → List (κ × ν) → List (κ × Option ν)
  | _, [] => []
  | m, w :: ws => (w.1, m.get w.1) :: journal (m.set w.1 w.2) ws

def undo (m : InsertionMap κ ν) (e : κ × Option ν) : InsertionMap κ ν :=
  match e.2 with
  | some v => m.set e.1 v
  | none => m.delete e.1

def replay (m : InsertionMap κ ν) (es : List (κ × Option ν)) : InsertionMap κ ν := es.foldl undo m

theorem get_undo (m : InsertionMap κ ν) (e : κ × Option ν) (k : κ) :
    (undo m e).get k = if e.1 = k then e.2 else m.get k := by
  unfold undo
  split
  next v h => rw [InsertionMap.get_set, h]
  next h => rw [InsertionMap.get_delete, h]

theorem overwrite_snoc (m : InsertionMap κ ν) (ws : List (κ × ν)) (w : κ × ν) :
    overwrite m (ws ++ [w]) = (overwrite m ws).set w.1 w.2 := by
  simp [overwrite]

def Copies (source : κ → Option ν) (ws : List (κ × ν)) : Prop := ∀ w ∈ ws, source w.1 = some w.2

variable {source : κ → Option ν} {ws : List (κ × ν)}

omit [DecidableEq κ] in
theorem Copies.tail {w : κ × ν} (h : Copies source (w :: ws)) : Copies source ws :=
  fun v hv ↦ h v (List.mem_cons_of_mem w hv)

theorem get_overwrite (h : Copies source ws) (m : InsertionMap κ ν) (k : κ) :
    (overwrite m ws).get k = if k ∈ ws.map Prod.fst then source k else m.get k := by
  induction ws generalizing m with
  | nil => simp [overwrite]
  | cons w ws ih =>
    have hrest := ih h.tail (m.set w.1 w.2)
    simp only [overwrite, List.foldl_cons] at hrest ⊢
    rw [hrest, InsertionMap.get_set]
    by_cases hk : k ∈ ws.map Prod.fst
    · rw [if_pos hk, List.map_cons, if_pos (List.mem_cons_of_mem _ hk)]
    · rw [if_neg hk]
      by_cases hw : w.1 = k
      · rw [if_pos hw, if_pos (by simp [hw]), ← hw, h w (by simp)]
      · rw [if_neg hw, if_neg]
        simp only [List.map_cons, List.mem_cons, not_or]
        exact ⟨Ne.symm hw, hk⟩

theorem find_journal (m : InsertionMap κ ν) {k : κ} (hk : k ∈ ws.map Prod.fst) :
    (journal m ws).find? (fun e ↦ e.1 = k) = some (k, m.get k) := by
  induction ws generalizing m with
  | nil => simp at hk
  | cons w ws ih =>
    by_cases hw : w.1 = k
    · simp [journal, hw]
    · have hrest : k ∈ ws.map Prod.fst := by simpa [Ne.symm hw] using hk
      simp only [journal, List.find?_cons, hw, decide_false]
      rw [ih (m.set w.1 w.2) hrest, InsertionMap.get_set_ne _ _ (Ne.symm hw)]

def times (ws : List (κ × ν)) (k : κ) : ℕ := ws.countP fun w ↦ w.1 = k

theorem one_le_times {k : κ} : 1 ≤ times ws k ↔ k ∈ ws.map Prod.fst := by
  simp [times, List.one_le_countP_iff]

theorem get_replay (h : Copies source ws) (m m' : InsertionMap κ ν) (k : κ) :
    (replay m' (journal m ws)).get k =
      if 2 ≤ times ws k then source k else if k ∈ ws.map Prod.fst then m.get k else m'.get k := by
  induction ws generalizing m m' with
  | nil => simp [replay, journal, times]
  | cons w ws ih =>
    have hrest := ih h.tail (m.set w.1 w.2) (undo m' (w.1, m.get w.1))
    simp only [replay, journal, List.foldl_cons] at hrest ⊢
    rw [hrest, InsertionMap.get_set, get_undo, List.map_cons]
    by_cases hw : w.1 = k
    · subst hw
      have hsucc : times (w :: ws) w.1 = times ws w.1 + 1 := by simp [times]
      by_cases hk : w.1 ∈ ws.map Prod.fst
      · have hpos := one_le_times.mpr hk
        have htwice : 2 ≤ times (w :: ws) w.1 := by omega
        rw [if_pos htwice, if_pos rfl, if_pos rfl, if_pos hk, h w (by simp)]
        split
        · rfl
        · rfl
      · have hzero : ¬ 1 ≤ times ws w.1 := fun hone ↦ hk (one_le_times.mp hone)
        have honce : ¬ 2 ≤ times (w :: ws) w.1 := by omega
        have hnone : ¬ 2 ≤ times ws w.1 := by omega
        rw [if_neg honce, if_neg hnone, if_neg hk, if_pos rfl, if_pos (by simp)]
    · have hsame : times (w :: ws) k = times ws k := by simp [times, hw]
      have hk : (k ∈ w.1 :: ws.map Prod.fst) ↔ k ∈ ws.map Prod.fst := by simp [Ne.symm hw]
      simp only [hsame, hk, if_neg hw]

/-- The forward replay of a journal gives back the map the writes started from exactly
when no key was written twice, but for keys where the writes changed nothing. -/
theorem replay_restores_iff (h : Copies source ws) (m : InsertionMap κ ν) :
    (∀ k, (replay (overwrite m ws) (journal m ws)).get k = m.get k) ↔
      ∀ k, 2 ≤ times ws k → source k = m.get k := by
  refine forall_congr' fun k ↦ ?_
  rw [get_replay h, get_overwrite h]
  by_cases htwice : 2 ≤ times ws k
  · simp [htwice]
  · by_cases hk : k ∈ ws.map Prod.fst
    · simp only [htwice, hk, if_false, if_true, false_imp_iff]
    · simp only [htwice, hk, if_false, false_imp_iff]

end Noesar.Lib.Journal
