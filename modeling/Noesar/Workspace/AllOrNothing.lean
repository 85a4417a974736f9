import Noesar.Workspace.Promotion

namespace Noesar.Workspace

open Lib Lib.Framing Lib.Journal Capability Shadow

namespace Orchestrator

variable {site : Site}

section

variable (env : Env) (step : Capability.Step RawLimits) (shadow : ShadowWorkspace) (workspace : Files)
  (outcomes : List Outcome)

/-- Every file outcome before the `k`-th is copied. -/
def Reaches (k : ℕ) : Prop :=
  ∀ j < k, (∃ p bytes, Ready env step shadow workspace outcomes j p bytes) ∧ (env.promoteFaults j).write = none

def Tears (p : Place) (left : Bytes) : Prop :=
  ∃ k bytes, Reaches env step shadow workspace outcomes k ∧ Ready env step shadow workspace outcomes k p bytes ∧
    (env.promoteFaults k).write = some (some left)

def Writes (p : Place) (bytes : Bytes) : Prop :=
  ∃ k, Reaches env step shadow workspace outcomes k ∧ Ready env step shadow workspace outcomes k p bytes ∧
    (env.promoteFaults k).write = none

/-- Whatever the copying reaches, it leaves the bytes that were there. -/
structure Harmless : Prop where
  torn : ∀ p left, Tears env step shadow workspace outcomes p left → workspace.get p = some left
  written : ∀ p bytes, Writes env step shadow workspace outcomes p bytes →
    (∀ left, ¬ Tears env step shadow workspace outcomes p left) → workspace.get p = some bytes

end

variable {env : Env} {step : Capability.Step RawLimits} {shadow : ShadowWorkspace} {workspace : Files}
  {outcomes : List Outcome} {ws : List (Place × Bytes)}

theorem Ready.unique {k : ℕ} {p q : Place} {b c : Bytes} (h : Ready env step shadow workspace outcomes k p b)
    (h' : Ready env step shadow workspace outcomes k q c) : p = q ∧ b = c := by
  obtain ⟨o, ho, -, hp⟩ := h.named
  obtain ⟨o', ho', -, hq⟩ := h'.named
  rw [ho] at ho'
  cases ho'
  rw [hp] at hq
  cases hq
  have hb := h.bytes_eq
  rw [h'.bytes_eq] at hb
  cases hb
  exact ⟨rfl, rfl⟩

theorem Copied.reaches (h : Copied env step shadow workspace outcomes ws) {k : ℕ} (hk : k ≤ ws.length) :
    Reaches env step shadow workspace outcomes k := by
  intro j hj
  have hlt : j < ws.length := by omega
  exact ⟨⟨_, _, h.ready j (ws[j]).1 (ws[j]).2 (List.getElem?_eq_getElem hlt)⟩, h.write j hlt⟩

def Ends (env : Env) (step : Capability.Step RawLimits) (shadow : ShadowWorkspace) (workspace : Files)
    (outcomes : List Outcome) (ws : List (Place × Bytes)) : Prop :=
  ∀ p bytes, Ready env step shadow workspace outcomes ws.length p bytes → (env.promoteFaults ws.length).write ≠ none

theorem Ends.le (hend : Ends env step shadow workspace outcomes ws) {k : ℕ}
    (hk : Reaches env step shadow workspace outcomes k) : k ≤ ws.length := by
  by_contra hlt
  obtain ⟨⟨p, bytes, hready⟩, hwrite⟩ := hk ws.length (by omega)
  exact hend p bytes hready hwrite

section

variable (h : Copied env step shadow workspace outcomes ws)

include h

theorem Copied.writes_iff (hend : Ends env step shadow workspace outcomes ws) {p : Place} {bytes : Bytes} : Writes env
    step shadow workspace outcomes p bytes ↔ (p, bytes) ∈ ws := by
  constructor
  · rintro ⟨k, hreaches, hready, hwrite⟩
    have hle := hend.le hreaches
    have hne : k ≠ ws.length := by
      rintro rfl
      exact hend p bytes hready hwrite
    have hlt : k < ws.length := by omega
    have hget := List.getElem?_eq_getElem hlt
    obtain ⟨rfl, rfl⟩ := hready.unique (h.ready k (ws[k]).1 (ws[k]).2 hget)
    exact List.mem_of_getElem? hget
  · intro hmem
    obtain ⟨k, hk⟩ := List.mem_iff_getElem?.mp hmem
    have hlt := (List.getElem?_eq_some_iff.mp hk).1
    exact ⟨k, h.reaches (by omega), h.ready k p bytes hk, h.write k hlt⟩

theorem Copied.tears_iff (hend : Ends env step shadow workspace outcomes ws) {p : Place} {left : Bytes} : Tears env step
    shadow workspace outcomes p left ↔ (∃ bytes, Ready env step shadow workspace outcomes ws.length p bytes) ∧
    (env.promoteFaults ws.length).write = some (some left) := by
  constructor
  · rintro ⟨k, bytes, hreaches, hready, hwrite⟩
    have hle := hend.le hreaches
    have hge : ¬ k < ws.length := by
      intro hlt
      rw [h.write k hlt] at hwrite
      cases hwrite
    obtain rfl : k = ws.length := by omega
    exact ⟨⟨bytes, hready⟩, hwrite⟩
  · rintro ⟨⟨bytes, hready⟩, hwrite⟩
    exact ⟨ws.length, bytes, h.reaches le_rfl, hready, hwrite⟩

theorem Copied.same_iff (hend : Ends env step shadow workspace outcomes ws) (hwhole : ∀ p left, ¬ Tears env step shadow
    workspace outcomes p left) : (∀ p, (overwrite workspace ws).get p = workspace.get p) ↔ Harmless env step shadow
    workspace outcomes := by
  constructor
  · intro hsame
    refine ⟨fun p left ht ↦ absurd ht (hwhole p left), fun p bytes hw _ ↦ ?_⟩
    have hmem := (h.writes_iff hend).mp hw
    have hget := get_overwrite h.copies workspace p
    rw [if_pos (List.mem_map.mpr ⟨_, hmem, rfl⟩), hsame p, h.copies _ hmem] at hget
    exact hget
  · intro hharmless p
    rw [get_overwrite h.copies]
    split
    next hp =>
      obtain ⟨w, hw, rfl⟩ := List.mem_map.mp hp
      rw [h.copies w hw]
      exact (hharmless.written w.1 w.2 ((h.writes_iff hend).mpr hw) (hwhole w.1)).symm
    next => rfl

theorem Copied.torn_same_iff {p : Place} {bytes left : Bytes} (hready : Ready env step shadow workspace outcomes
    ws.length p bytes) (hwrite : (env.promoteFaults ws.length).write = some (some left)) : (∀ q, ((overwrite workspace
    ws).set p left).get q = workspace.get q) ↔ Harmless env step shadow workspace outcomes := by
  have hend : Ends env step shadow workspace outcomes ws := by
    intro q b _ hnone
    rw [hnone] at hwrite
    cases hwrite
  have htears : ∀ {q left'}, Tears env step shadow workspace outcomes q left' ↔ q = p ∧ left' = left := by
    intro q left'
    rw [h.tears_iff hend, hwrite]
    constructor
    · rintro ⟨⟨b, hb⟩, hl⟩
      cases hl
      exact ⟨(hb.unique hready).1, rfl⟩
    · rintro ⟨rfl, rfl⟩
      exact ⟨⟨bytes, hready⟩, rfl⟩
  constructor
  · intro hsame
    refine ⟨fun q left' ht ↦ ?_, fun q b hw hnot ↦ ?_⟩
    · obtain ⟨rfl, rfl⟩ := htears.mp ht
      rw [← hsame q, InsertionMap.get_set_self]
    · have hne : q ≠ p := by
        rintro rfl
        exact hnot left (htears.mpr ⟨rfl, rfl⟩)
      have hmem := (h.writes_iff hend).mp hw
      rw [← hsame q, InsertionMap.get_set_ne _ _ hne, get_overwrite h.copies,
        if_pos (List.mem_map.mpr ⟨_, hmem, rfl⟩)]
      exact h.copies _ hmem
  · intro hharmless q
    rw [InsertionMap.get_set]
    split
    next hq =>
      subst hq
      exact (hharmless.torn p left (htears.mpr ⟨rfl, rfl⟩)).symm
    next hne =>
      rw [get_overwrite h.copies]
      split
      next hq =>
        obtain ⟨w, hw, rfl⟩ := List.mem_map.mp hq
        rw [h.copies w hw]
        refine (hharmless.written w.1 w.2 ((h.writes_iff hend).mpr hw) fun left' ht ↦ hne ?_).symm
        exact (htears.mp ht).1.symm
      next => rfl

end

theorem Promoted.same_iff {workspace' : Files} {r : Except Thrown (List Backup)}
    (h : Promoted env step shadow workspace outcomes [] workspace' r) :
    (∀ p, workspace'.get p = workspace.get p) ↔ Harmless env step shadow workspace outcomes := by
  cases h with
  | @whole ws' backups hcopied hall hbackups =>
    have hend : Ends env step shadow workspace outcomes ([] ++ ws') := by
      intro p bytes hready
      obtain ⟨o, ho, -⟩ := hready.named
      rw [hall, List.getElem?_eq_none le_rfl] at ho
      cases ho
    refine hcopied.same_iff hend fun p left ht ↦ ?_
    obtain ⟨⟨bytes, hready⟩, hwrite⟩ := (hcopied.tears_iff hend).mp ht
    obtain ⟨o, ho, -⟩ := hready.named
    rw [hall, List.getElem?_eq_none le_rfl] at ho
    cases ho
  | @stopped ws' e hcopied hstop =>
    have hend : Ends env step shadow workspace outcomes ([] ++ ws') := by
      intro p bytes hready hnone
      rw [hstop p bytes hready] at hnone
      cases hnone
    refine hcopied.same_iff hend fun p left ht ↦ ?_
    obtain ⟨⟨bytes, hready⟩, hwrite⟩ := (hcopied.tears_iff hend).mp ht
    rw [hstop p bytes hready] at hwrite
    cases hwrite
  | torn e hcopied hready hwrite => exact hcopied.torn_same_iff hready hwrite

def Restorable (s : Orchestrator site) (runId : String) (files : Files) : Prop :=
  ∃ env nowUnix, (restore env s runId nowUnix).2.isOk = true ∧
    ∀ p, (restore env s runId nowUnix).1.workspace.get p = files.get p

theorem not_restorable {s : Orchestrator site} {runId : String} {run : Run} (hrun : s.runs.get runId = some run)
    (hstatus : run.status = .measured) (files : Files) : ¬ Restorable s runId files := by
  rintro ⟨env, nowUnix, hok, -⟩
  simp [restore, hrun, hstatus, Except.isOk, Except.toBool] at hok

theorem approve_throws_run {env : Env} {s : Orchestrator site} {runId approverId : String} {nowUnix : Number}
    (h : (approve env s runId approverId nowUnix).2.isOk = false) :
    (approve env s runId approverId nowUnix).1.runs.get runId = s.runs.get runId := by
  obtain ⟨_, _, _, _, run', _, -, hat, happroving⟩ := approve_effect env s runId approverId nowUnix
  rw [hat.runs, if_pos rfl]
  generalize (approve env s runId approverId nowUnix).2 = answer at h happroving
  cases happroving with
  | notGranted => rfl
  | undecided => rfl
  | refused => cases h
  | broken | unrecorded => rfl
  | promoted => cases h

/-- An approval that throws is undone, or can be, exactly when every write it reached was
harmless: nothing of what was copied is kept for a restoration. -/
theorem approve_all_or_nothing_iff {env : Env} {s : Orchestrator site} {runId approverId : String}
    {nowUnix : Number} (h : (approve env s runId approverId nowUnix).2.isOk = false) :
    ((∀ p, (approve env s runId approverId nowUnix).1.workspace.get p = s.workspace.get p) ∨
      Restorable (approve env s runId approverId nowUnix).1 runId s.workspace) ↔
    ∀ change token minter result, Promotes env s runId approverId nowUnix change token minter result →
      Harmless env change.step change.shadow s.workspace (fileOutcomes result) := by
  constructor
  · intro hundone change token minter result hp
    obtain ⟨hrun, hstatus, -⟩ := hp.run
    have hthrown := approve_throws_run h
    rw [hrun] at hthrown
    have hsame := hundone.resolve_right (not_restorable hthrown hstatus s.workspace)
    rw [hp.approve_workspace] at hsame
    exact hp.ends.same_iff.mp hsame
  · intro hharmless
    left
    by_cases hsome : ∃ change token minter result, Promotes env s runId approverId nowUnix change token minter result
    · obtain ⟨change, token, minter, result, hp⟩ := hsome
      rw [hp.approve_workspace]
      exact hp.ends.same_iff.mpr (hharmless change token minter result hp)
    · push Not at hsome
      rw [approve_workspace_of_not_promotes hsome]
      exact fun p ↦ rfl

def refusingWrite (position : ℕ) : Env :=
  { Env.calm with promoteFaults := fun k ↦ ⟨false, false, false, if k = position then some none else none⟩ }

def twoChanges : Orchestrator Site.sample := measuredSample twoFiles [⟨"a.txt", "new"⟩, ⟨"b.txt", "new"⟩]

theorem approve_all_or_nothing_first_write_refused :
    (approve (refusingWrite 0) twoChanges "r1" "bob" (.ofRat 2)).2.isOk = false ∧
    (((∀ p, (approve (refusingWrite 0) twoChanges "r1" "bob" (.ofRat 2)).1.workspace.get p =
        twoChanges.workspace.get p) ∨
      Restorable (approve (refusingWrite 0) twoChanges "r1" "bob" (.ofRat 2)).1 "r1" twoChanges.workspace) ↔
    ∀ change token minter result, Promotes (refusingWrite 0) twoChanges "r1" "bob" (.ofRat 2) change token minter result →
      Harmless (refusingWrite 0) change.step change.shadow twoChanges.workspace (fileOutcomes result)) := by
  have hthrows : (approve (refusingWrite 0) twoChanges "r1" "bob" (.ofRat 2)).2.isOk = false := by decide +kernel
  exact ⟨hthrows, approve_all_or_nothing_iff hthrows⟩

theorem approve_leaves_half :
    (approve (refusingWrite 1) twoChanges "r1" "bob" (.ofRat 2)).2.isOk = false ∧
    ¬ ((∀ p, (approve (refusingWrite 1) twoChanges "r1" "bob" (.ofRat 2)).1.workspace.get p =
        twoChanges.workspace.get p) ∨
      Restorable (approve (refusingWrite 1) twoChanges "r1" "bob" (.ofRat 2)).1 "r1" twoChanges.workspace) := by
  obtain ⟨hthrows, hchanged, hstatus⟩ :
      (approve (refusingWrite 1) twoChanges "r1" "bob" (.ofRat 2)).2.isOk = false ∧
      (approve (refusingWrite 1) twoChanges "r1" "bob" (.ofRat 2)).1.workspace.get ["a.txt"] ≠
        twoChanges.workspace.get ["a.txt"] ∧
      (approve (refusingWrite 1) twoChanges "r1" "bob" (.ofRat 2)).1.statusOf "r1" = some .measured := by
    decide +kernel
  refine ⟨hthrows, ?_⟩
  rintro (hsame | hrestorable)
  · exact hchanged (hsame _)
  · obtain ⟨run, hrun, hmeasured⟩ := Option.map_eq_some_iff.mp hstatus
    exact not_restorable hrun hmeasured _ hrestorable

end Orchestrator

end Noesar.Workspace
