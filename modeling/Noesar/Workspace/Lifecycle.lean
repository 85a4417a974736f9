import Noesar.Workspace.Moves

namespace Noesar.Workspace

open Lib Lib.Framing Capability Shadow

/-- The changes of status that leave what a person has decided: none, or the promoted
files are restored. -/
def Status.Stays (before after : Status) : Prop :=
  after = before ∨ before = .promoted ∧ after = .restored

theorem Status.Stays.trans {a b c : Status} (hab : a.Stays b) (hbc : b.Stays c) : a.Stays c := by
  rcases hab with rfl | ⟨rfl, rfl⟩
  · exact hbc
  · rcases hbc with rfl | ⟨hb, -⟩
    · exact .inr ⟨rfl, rfl⟩
    · cases hb

theorem Status.Stays.decided {a b : Status} (h : a.Stays b) (ha : a.decided = true) : b.decided = true := by
  rcases h with rfl | ⟨rfl, rfl⟩
  · exact ha
  · rfl

namespace Orchestrator

variable {site : Site}

def Keeps (s : Orchestrator site) (c : Command) : Prop :=
  ∀ id run, s.runs.get id = some run → run.status.decided = true →
    ∃ run', (s.step c).runs.get id = some run' ∧ run.status.Stays run'.status

/-- No wait of a repair, and none of an answer, ends well on a run that was decided
in the meantime. -/
def Undisturbed (s : Orchestrator site) : Command → Prop
  | .resume index reply => match s.tasks[index]? with
    | some (.repairing id _ _ _ _) => reply.authored.isOk = true → reply.env.recordFails 0 = false →
        ∀ run, s.runs.get id = some run → run.status.decided = false
    | some (.answering id _ _ _) => reply.env.recordFails 0 = false →
        ∀ run, s.runs.get id = some run → run.status.decided = true → run.status = .answered
    | _ => True
  | _ => True

variable {s : Orchestrator site} {id : String} {run : Run} {c : Command}

theorem Guarded.stays {run' : Option Run} {shadow' : Option ShadowWorkspace} (h : Guarded s id run' shadow')
    (hrun : s.runs.get id = some run) (hdecided : run.status.decided = true) :
    ∃ r, run' = some r ∧ run.status.Stays r.status := by
  cases h with
  | kept | dropped => exact ⟨run, hrun, .inl rfl⟩
  | planned args draft hnone =>
    rw [hnone] at hrun
    cases hrun
  | reproduced reproduction h =>
    rw [h] at hrun
    cases hrun
    exact ⟨_, rfl, .inl rfl⟩
  | measured h hopen =>
    rw [h] at hrun
    cases hrun
    rcases hopen.2 with hs | ⟨hs, -⟩
    · rw [hs] at hdecided
      cases hdecided
    · rw [hs] at hdecided
      cases hdecided
  | approved backups by_ nowUnix h hstatus =>
    rw [h] at hrun
    cases hrun
    rw [hstatus] at hdecided
    cases hdecided
  | rejected by_ nowUnix h hstatus =>
    rw [h] at hrun
    cases hrun
    rcases hstatus with hs | hs
    · rw [hs] at hdecided
      cases hdecided
    · rw [hs] at hdecided
      cases hdecided
  | restored nowUnix h hstatus =>
    rw [h] at hrun
    cases hrun
    exact ⟨_, rfl, .inr ⟨hstatus, rfl⟩⟩

theorem At.keeps {run' : Option Run} {shadow' : Option ShadowWorkspace} (hat : At s (s.step c) id run' shadow')
    (hid : ∀ run, s.runs.get id = some run → run.status.decided = true →
      ∃ r, run' = some r ∧ run.status.Stays r.status) : Keeps s c := by
  intro j run hrun hdecided
  rw [hat.runs]
  by_cases h : id = j
  · subst h
    rw [if_pos rfl]
    exact hid run hrun hdecided
  · rw [if_neg h]
    exact ⟨run, hrun, .inl rfl⟩

theorem step_resume_repairing {index : ℕ} {reply : Reply} {actor : String} {nowUnix : Number} {brief : List String}
    {iteration : Option Iteration} {authored : Authored}
    (htask : s.tasks[index]? = some (.repairing id actor nowUnix brief iteration))
    (hauthored : reply.authored = .ok authored) (hrecord : reply.env.recordFails 0 = false)
    (hrun : s.runs.get id = some run) :
    (s.step (.resume index reply)).runs.get id = some (repairedRun run brief authored) := by
  simp only [step, htask, finish, finishRepair, hauthored, hrun, hrecord]
  cases reply.env.recordFails 1 with
  | true => exact InsertionMap.get_set_self _ _ _
  | false =>
    cases iteration with
    | none | some => exact InsertionMap.get_set_self _ _ _

theorem step_resume_answering {index : ℕ} {reply : Reply} {successor actor : String} {nowUnix : Number}
    (htask : s.tasks[index]? = some (.answering id successor actor nowUnix))
    (hrecord : reply.env.recordFails 0 = false) (hrun : s.runs.get id = some run) :
    ∃ run', (s.step (.resume index reply)).runs.get id = some run' ∧ run'.status = .answered := by
  simp only [step, htask, finish, finishAnswer, hrun, hrecord]
  exact ⟨_, InsertionMap.get_set_self _ _ _, rfl⟩

theorem Keeps.undisturbed (h : Keeps s c) : Undisturbed s c := by
  cases c with
  | resume index reply =>
    rw [Undisturbed]
    split
    next id actor nowUnix brief iteration htask =>
      intro hauthored hrecord run hrun
      obtain ⟨authored, hauthored⟩ : ∃ authored, reply.authored = .ok authored := by
        cases ha : reply.authored with
        | error =>
          rw [ha] at hauthored
          cases hauthored
        | ok authored => exact ⟨authored, rfl⟩
      by_contra hdecided
      obtain ⟨run', hrun', hstays⟩ := h id run hrun (eq_true_of_ne_false hdecided)
      rw [step_resume_repairing htask hauthored hrecord hrun] at hrun'
      cases hrun'
      have hpending : Status.decided .pendingApproval = true := hstays.decided (eq_true_of_ne_false hdecided)
      cases hpending
    next id successor actor nowUnix htask =>
      intro hrecord run hrun hdecided
      obtain ⟨run', hrun', hanswered⟩ := step_resume_answering htask hrecord hrun
      obtain ⟨run'', hrun'', hstays⟩ := h id run hrun hdecided
      rw [hrun'] at hrun''
      cases hrun''
      rw [hanswered] at hstays
      rcases hstays with hs | ⟨-, hs⟩
      · exact hs.symm
      · cases hs
    next => trivial
  | _ => trivial

theorem Undisturbed.keeps (h : Undisturbed s c) : Keeps s c := by
  cases step_moves s c with
  | guarded hat hguarded => exact hat.keeps fun run hrun hdecided ↦ hguarded.stays hrun hdecided
  | repaired hc htask hauthored hrecord hrun hat =>
    refine hat.keeps fun run hr hdecided ↦ ?_
    subst hc
    rw [Undisturbed, htask] at h
    have hopen := h (by rw [hauthored]; rfl) hrecord run hr
    rw [hopen] at hdecided
    cases hdecided
  | answered hc htask hrecord hrun hat =>
    refine hat.keeps fun run hr hdecided ↦ ⟨_, rfl, ?_⟩
    subst hc
    rw [Undisturbed, htask] at h
    exact .inl (h hrecord run hr hdecided).symm

def promotes (id : String) (s : Orchestrator site) : Command → Bool
  | .approve env runId approverId nowUnix => runId = id &&
    match grantChange env s runId approverId nowUnix with
    | (s, .ok (change, token)) => change.run.clean && (match change.run.result with
      | some result => (promote env change.shadow token nowUnix 0 s.minter s.workspace (fileOutcomes result)).2.2.isOk
      | none => false)
    | (_, .error _) => false
  | _ => false

def restores (id : String) (s : Orchestrator site) : Command → Bool
  | .restore env runId _ => runId = id &&
    match s.runs.get runId with
    | some run => run.status = .promoted && (restoreAll env 0 s.workspace (run.backups.getD [])).2.isOk
    | none => false
  | _ => false

def Recorded (s : Orchestrator site) : Command → Prop
  | .approve env id approverId nowUnix =>
    promotes id s (.approve env id approverId nowUnix) = true → env.recordFails 2 = false
  | .restore env id nowUnix => restores id s (.restore env id nowUnix) = true → env.recordFails 0 = false
  | _ => True

theorem promotes_iff :
    promotes id s c = true ↔ ∃ env approverId nowUnix change token minter result minter' workspace' backups,
      c = .approve env id approverId nowUnix ∧ Promotes env s id approverId nowUnix change token minter result ∧
      promote env change.shadow token nowUnix 0 minter s.workspace (fileOutcomes result) =
        (minter', workspace', .ok backups) := by
  constructor
  · intro h
    cases c with
    | approve env runId approverId nowUnix =>
      obtain ⟨minter, hstate⟩ := grantChange_state env s runId approverId nowUnix
      rcases hgrant : grantChange env s runId approverId nowUnix with ⟨s₁, r₁⟩
      rw [hgrant] at hstate
      dsimp only at hstate
      subst hstate
      simp only [promotes, hgrant, Bool.and_eq_true, decide_eq_true_eq] at h
      obtain ⟨rfl, h⟩ := h
      cases r₁ with
      | error => cases h
      | ok granted =>
        simp only [Bool.and_eq_true] at h
        cases hresult : granted.1.run.result with
        | none => simp [hresult] at h
        | some result =>
          simp only [hresult] at h
          obtain ⟨backups, hbackups⟩ := isOk_iff.mp h.2
          exact ⟨env, approverId, nowUnix, granted.1, granted.2, minter, result, _, _, backups, rfl,
            ⟨hgrant, hresult, h.1⟩, Prod.ext rfl (Prod.ext rfl hbackups)⟩
    | _ => cases h
  · rintro ⟨env, approverId, nowUnix, change, token, minter, result, minter', workspace', backups, rfl,
      ⟨hgrant, hresult, hclean⟩, hpromote⟩
    simp [promotes, hgrant, hresult, hclean, hpromote, Except.isOk, Except.toBool]

theorem restores_iff :
    restores id s c = true ↔ ∃ env nowUnix run workspace', c = .restore env id nowUnix ∧
      s.runs.get id = some run ∧ run.status = .promoted ∧
      restoreAll env 0 s.workspace (run.backups.getD []) = (workspace', .ok ()) := by
  constructor
  · intro h
    cases c with
    | restore env runId nowUnix =>
      simp only [restores, Bool.and_eq_true, decide_eq_true_eq] at h
      obtain ⟨rfl, h⟩ := h
      cases hrun : s.runs.get runId with
      | none => simp [hrun] at h
      | some run =>
        simp only [hrun, Bool.and_eq_true, decide_eq_true_eq] at h
        obtain ⟨u, hu⟩ := isOk_iff.mp h.2
        exact ⟨env, nowUnix, run, _, rfl, rfl, h.1, Prod.ext rfl hu⟩
    | _ => cases h
  · rintro ⟨env, nowUnix, run, workspace', rfl, hrun, hstatus, hrestore⟩
    simp [restores, hrun, hstatus, hrestore, Except.isOk, Except.toBool]

def isAt (test : Status → Bool) (id : String) (s : Orchestrator site) : Bool :=
  match s.runs.get id with
  | some run => test run.status
  | none => false

theorem isAt_iff {test : Status → Bool} :
    isAt test id s = true ↔ ∃ run, s.runs.get id = some run ∧ test run.status = true := by
  unfold isAt
  cases s.runs.get id with
  | none => simp
  | some => simp

theorem Keeps.isAt (h : Keeps s c) {test : Status → Bool}
    (htest : ∀ a b, Status.Stays a b → test a = true → a.decided = true ∧ test b = true) (hs : isAt test id s = true) :
    isAt test id (s.step c) = true := by
  obtain ⟨run, hrun, ht⟩ := isAt_iff.mp hs
  obtain ⟨run', hrun', hstays⟩ := h id run hrun (htest _ _ (.inl rfl) ht).1
  exact isAt_iff.mpr ⟨run', hrun', (htest _ _ hstays ht).2⟩

def isRestored : Status → Bool
  | .restored => true
  | _ => false

theorem isRestored_iff {status : Status} : isRestored status = true ↔ status = .restored := by
  cases status <;> simp [isRestored]

theorem promotes_passes (hrecorded : Recorded s c) (h : promotes id s c = true) :
    isAt Status.decided id s = false ∧ isAt Status.decided id (s.step c) = true := by
  have hfull := h
  obtain ⟨env, approverId, nowUnix, change, token, minter, result, minter', workspace', backups, rfl, hp, hpromote⟩ :=
    promotes_iff.mp h
  have hrecord := hrecorded hfull
  obtain ⟨hrun, hstatus, -⟩ := hp.run
  constructor
  · simp [isAt, hrun, hstatus, Status.decided]
  · rw [step, approve_of_promote hp hpromote hrecord]
    simp [isAt, decidedRun, Status.decided]

theorem restores_passes (hrecorded : Recorded s c) (h : restores id s c = true) :
    isAt isRestored id s = false ∧ isAt isRestored id (s.step c) = true := by
  have hfull := h
  obtain ⟨env, nowUnix, run, workspace', rfl, hrun, hstatus, hrestore⟩ := restores_iff.mp h
  have hrecord := hrecorded hfull
  constructor
  · simp [isAt, hrun, hstatus, isRestored]
  · rw [step, restore_of_restoreAll hrun hstatus hrestore hrecord]
    simp [isAt, isRestored]

theorem along_keeps {cs : List Command} (h : Run.Along step Undisturbed s cs) :
    ∀ id run, s.runs.get id = some run → run.status.decided = true →
      ∃ run', (Run.after step s cs).runs.get id = some run' ∧ run.status.Stays run'.status := by
  intro id run hrun hdecided
  refine h.invariant (I := fun t ↦ ∃ run', t.runs.get id = some run' ∧ run.status.Stays run'.status) ?_
    ⟨run, hrun, .inl rfl⟩
  intro t c ht hundisturbed
  obtain ⟨run₁, hrun₁, hstays₁⟩ := ht
  obtain ⟨run₂, hrun₂, hstays₂⟩ := hundisturbed.keeps id run₁ hrun₁ (hstays₁.decided hdecided)
  exact ⟨run₂, hrun₂, hstays₁.trans hstays₂⟩

/-- In every run of the machine whose steps are undisturbed and recorded, a decided run
stays decided, and each run is promoted once and restored once at most. -/
theorem decided_stays_decided (s : Orchestrator site) (cs : List Command)
    (h : Run.Along step (fun s c ↦ Undisturbed s c ∧ Recorded s c) s cs) :
    (∀ before after, cs = before ++ after → ∀ id run, (Run.after step s before).runs.get id = some run →
      run.status.decided = true →
      ∃ run', (Run.after step s cs).runs.get id = some run' ∧ run'.status.decided = true ∧
        (run'.status = run.status ∨ run.status = .promoted ∧ run'.status = .restored)) ∧
    ∀ id, Run.count step (promotes id) s cs ≤ 1 ∧ Run.count step (restores id) s cs ≤ 1 := by
  refine ⟨?_, fun id ↦ ⟨?_, ?_⟩⟩
  · rintro before after rfl id run hrun hdecided
    have hafter := ((Run.Along.append.mp h).2).mono fun _ _ h ↦ h.1
    obtain ⟨run', hrun', hstays⟩ := along_keeps hafter id run hrun hdecided
    rw [Run.after_append]
    exact ⟨run', hrun', hstays.decided hdecided, hstays⟩
  · refine h.count_le_one (isAt Status.decided id) ?_ ?_
    · intro s c hC
      exact hC.1.keeps.isAt fun a b hab ha ↦ ⟨ha, hab.decided ha⟩
    · intro s c hC
      exact promotes_passes hC.2
  · refine h.count_le_one (isAt isRestored id) ?_ ?_
    · intro s c hC
      refine hC.1.keeps.isAt fun a b hab ha ↦ ?_
      obtain rfl := isRestored_iff.mp ha
      rcases hab with rfl | ⟨h, -⟩
      · exact ⟨rfl, rfl⟩
      · cases h
    · intro s c hC
      exact restores_passes hC.2

def promotedAndRestored : List Command :=
  planned "r1" [⟨"a.txt", "new"⟩] ++
    [.measure .calm "r1" "ada" (.ofRat 1), .approve .calm "r1" "bob" (.ofRat 2), .restore .calm "r1" (.ofRat 3)]

theorem decided_stays_decided_promoted_and_restored :
    (Run.after step (sample oneFile) promotedAndRestored).statusOf "r1" = some .restored ∧
    ∀ id, Run.count step (promotes id) (sample oneFile) promotedAndRestored ≤ 1 ∧
      Run.count step (restores id) (sample oneFile) promotedAndRestored ≤ 1 := by
  refine ⟨by decide +kernel, (decided_stays_decided (sample oneFile) promotedAndRestored ?_).2⟩
  refine ⟨⟨trivial, trivial⟩, ⟨?_, trivial⟩, ⟨trivial, trivial⟩, ⟨trivial, fun _ ↦ rfl⟩, ⟨trivial, fun _ ↦ rfl⟩, trivial⟩
  trivial

def repairedAfterRejection : List Command :=
  planned "r1" [⟨"a.txt", "old"⟩] ++
    [.measure .calm "r1" "ada" (.ofRat 1), .repair "r1" "ada" (.ofRat 2), .reject .calm "r1" "bob" (.ofRat 3),
      .resume 0 (authoring [("a.txt", "new")])]

theorem decided_run_reopened :
    (Run.after step (sample oneFile) (repairedAfterRejection.take 5)).statusOf "r1" = some .rejected ∧
    (Run.after step (sample oneFile) repairedAfterRejection).statusOf "r1" = some .pendingApproval := by
  decide +kernel

end Orchestrator

end Noesar.Workspace
