import Noesar.Workspace.Measurement
import Noesar.Lib.Fallible

namespace Noesar.Workspace

open Lib Lib.Framing Lib.Journal Capability Shadow

theorem Measured.before {site : Site} {workspace : Files} {run : Run} {shadow : ShadowWorkspace}
    (h : Measured site workspace run shadow) {diff : List DiffEntry} (hdiff : run.diff = some diff)
    {entry : DiffEntry} (hentry : entry ∈ diff) {p : Place} (hplace : place entry.path = .ok p) :
    entry.before = (readTextIfSmall workspace p).join := by
  obtain ⟨_, _, _, _, _, _, _, diff', _, _, -, -, -, -, hdiffOf, hrun⟩ := h
  have hdiff' : run.diff = some diff' := by
    rw [hrun]
    rfl
  rw [hdiff] at hdiff'
  cases hdiff'
  obtain ⟨outcome, -, ho⟩ := mem_of_mapM_ok hdiffOf hentry
  unfold diffEntry at ho
  cases hq : place outcome.path with
  | error => simp [hq, bind, Except.bind] at ho
  | ok =>
    simp only [hq, bind, Except.bind, pure, Except.pure, Except.ok.injEq] at ho
    subst ho
    rw [hq] at hplace
    cases hplace
    rfl

namespace Orchestrator

variable {site : Site}

/-- The command is an approval or a restoration of a run, and the place is one of those
the run would write there. -/
def Touches (s : Orchestrator site) (p : Place) : Command → Prop
  | .approve _ id _ _ => ∃ run result, s.runs.get id = some run ∧ run.result = some result ∧
      ∃ outcome ∈ fileOutcomes result, place outcome.path = .ok p
  | .restore _ id _ => ∃ run, s.runs.get id = some run ∧ ∃ backup ∈ run.backups.getD [], place backup.path = .ok p
  | _ => False

variable {p : Place} {s : Orchestrator site}

theorem afterFailedWrite_get_ne (files : Files) {q : Place} (left : Option Bytes) (h : p ≠ q) :
    (afterFailedWrite files q left).get p = files.get p := by
  cases left with
  | none => rfl
  | some => exact InsertionMap.get_set_ne _ _ h

theorem restoreFile_get {fault : Option (Option Bytes)} {workspace : Files} {backup : Backup}
    (h : place backup.path ≠ .ok p) : (restoreFile fault workspace backup).1.get p = workspace.get p := by
  unfold restoreFile
  split
  · rfl
  next q hq =>
    have hne : p ≠ q := by
      rintro rfl
      exact h hq
    split
    · split
      · exact InsertionMap.get_set_ne _ _ hne
      · exact afterFailedWrite_get_ne _ _ hne
      · rfl
    · split
      · split
        · rfl
        · exact InsertionMap.get_delete_ne _ hne
      · rfl

theorem restoreAll_get (env : Env) {backups : List Backup} (h : ∀ backup ∈ backups, place backup.path ≠ .ok p)
    (position : ℕ) (workspace : Files) :
    (restoreAll env position workspace backups).1.get p = workspace.get p := by
  induction backups generalizing position workspace with
  | nil => rfl
  | cons backup backups ih =>
    have hfirst : (restoreFile (env.restoreFault position) workspace backup).1.get p = workspace.get p :=
      restoreFile_get (h backup (by simp))
    rw [restoreAll]
    split
    next he =>
      rw [he] at hfirst
      exact hfirst
    next workspace' he =>
      rw [he] at hfirst
      rw [ih (fun b hb ↦ h b (List.mem_cons_of_mem backup hb))]
      exact hfirst

theorem restore_untouched {env : Env} {id : String} {nowUnix : Number} (h : ¬ Touches s p (.restore env id nowUnix)) :
    (restore env s id nowUnix).1.workspace.get p = s.workspace.get p := by
  have hframe : ∀ run, s.runs.get id = some run →
      (restoreAll env 0 s.workspace (run.backups.getD [])).1.get p = s.workspace.get p := by
    intro run hrun
    refine restoreAll_get env (fun backup hbackup hplace ↦ h ?_) 0 s.workspace
    exact ⟨run, hrun, backup, hbackup, hplace⟩
  obtain ⟨workspace', _, _, hs, -, hrestoring⟩ := restore_effect env s id nowUnix
  rw [hs]
  generalize (restore env s id nowUnix).2 = answer at hrestoring
  cases hrestoring with
  | notStarted => rfl
  | broken hrun hstatus hrestore | unrecorded hrun hstatus hrestore | restored hrun hstatus hrestore =>
    have hget := hframe _ hrun
    rw [hrestore] at hget
    exact hget

theorem approve_untouched {env : Env} {id approverId : String} {nowUnix : Number}
    (h : ¬ Touches s p (.approve env id approverId nowUnix)) :
    (approve env s id approverId nowUnix).1.workspace.get p = s.workspace.get p := by
  by_contra hchanged
  obtain ⟨run, shadow, result, outcome, hrun, -, hresult, -, ho, hplace, -⟩ := approve_changes hchanged
  exact h ⟨run, result, hrun, hresult, outcome, ho, hplace⟩

theorem finish_workspace (s : Orchestrator site) (task : Task) (reply : Reply) :
    (finish s task reply).1.workspace = s.workspace := by
  cases task with
  | planning args answering =>
    obtain ⟨_, _, _, hs, -⟩ := finishPlan_effect s args answering reply
    rw [finish, hs]
  | answering runId successor actor nowUnix =>
    rcases finishAnswer_effect s runId successor actor nowUnix reply with hs | ⟨_, _, -, -, -, hs⟩
    · rw [finish, hs]
    · rw [finish, hs]
  | repairing runId actor nowUnix brief iteration =>
    rcases finishRepair_effect s runId actor nowUnix brief iteration reply
      with hs | ⟨_, _, _, _, _, -, -, -, -, -, hs, -⟩
    · rw [finish, hs]
    · rw [finish, hs]
  | iterating runId actor nowUnix iteration =>
    obtain ⟨_, _, -, -, hs, -⟩ := iterateTurn_effect reply.env s runId actor nowUnix iteration
    rw [finish, hs]

theorem step_untouched {c : Command} (h : ¬ Touches s p c) :
    (s.step c).workspace.get p = s.workspace.get p := by
  cases c with
  | plan args =>
    obtain ⟨_, hs, -⟩ := beginPlan_effect s args none
    rw [step, hs]
  | measure env runId actor nowUnix =>
    obtain ⟨_, _, _, _, _, hs, -⟩ := measure_effect env s runId actor nowUnix
    rw [step, hs]
  | repair runId actor nowUnix =>
    obtain ⟨_, hs, -⟩ := repair_effect s runId actor nowUnix none
    rw [step, hs]
  | iterate env runId actor nowUnix maxAttempts =>
    obtain ⟨_, _, -, -, hs, -⟩ := iterate_effect env s runId actor nowUnix maxAttempts
    rw [step, hs]
  | approve => exact approve_untouched h
  | answer runId answers actor nowUnix =>
    obtain ⟨_, hs, -⟩ := answer_effect s runId answers actor nowUnix
    rw [step, hs]
  | reject env runId approverId nowUnix =>
    obtain ⟨_, _, _, _, hs, -⟩ := reject_effect env s runId approverId nowUnix
    rw [step, hs]
  | restore => exact restore_untouched h
  | resume index reply =>
    rw [step]
    cases s.tasks[index]? with
    | none => rfl
    | some task => exact congrArg (fun files ↦ InsertionMap.get files p) (finish_workspace _ task reply)

theorem along_untouched {cs : List Command} (h : Run.Along step (fun s c ↦ ¬ Touches s p c) s cs) :
    (Run.after step s cs).workspace.get p = s.workspace.get p :=
  h.invariant (I := fun t ↦ t.workspace.get p = s.workspace.get p)
    (fun _ _ ht hc ↦ (step_untouched hc).trans ht) rfl

theorem find_saves {backups : List Backup} {es : List (Place × Option Bytes)} (h : List.Forall₂ Saves backups es)
    {before : Option Bytes} (hfind : es.find? (fun e ↦ e.1 = p) = some (p, before)) :
    ∃ backup, backups.find? (fun b ↦ place b.path = .ok p) = some backup ∧
      backup.existedBefore = before.isSome ∧ backup.beforeContent = before := by
  induction h with
  | nil => cases hfind
  | @cons backup e backups es hsaves _ ih =>
    by_cases he : e.1 = p
    · have hplace : place backup.path = .ok p := he ▸ hsaves.1
      simp only [List.find?_cons, he, decide_true, Option.some.injEq] at hfind
      subst hfind
      exact ⟨backup, by simp [hplace], hsaves.2.1, hsaves.2.2⟩
    · have hplace : place backup.path ≠ .ok p := by
        rw [hsaves.1]
        intro h
        cases h
        exact he rfl
      simp only [List.find?_cons, he, decide_false] at hfind
      simp only [List.find?_cons, hplace, decide_false]
      exact ih hfind

/-- Between a measurement and the approval of what it measured, and between the approval
and a restoration, a place that no approval and no restoration touches keeps its bytes: the
approval finds those the measurement recorded, keeps them in the first backup of the place
and writes those of the shadow, and the restoration finds these. -/
theorem overwrites_known_bytes {env : Env} {s s₁ : Orchestrator site} {runId actor : String} {nowUnix : Number}
    {run : Run} {p : Place} {between : List Command} (hmeasure : (measure env s runId actor nowUnix).2 = .ok run)
    (hs₁ : s₁ = Run.after step (measure env s runId actor nowUnix).1 between)
    (hbetween : Run.Along step (fun s c ↦ ¬ Touches s p c) (measure env s runId actor nowUnix).1 between) :
    s₁.workspace.get p = s.workspace.get p ∧
    (∀ diff, run.diff = some diff → ∀ entry ∈ diff, place entry.path = .ok p →
      entry.before = (readTextIfSmall s.workspace p).join) ∧
    ∀ env₂ approverId nowUnix₂ shadow result, s₁.runs.get runId = some run → s₁.shadows.get runId = some shadow →
      run.result = some result → run.clean = true → (approve env₂ s₁ runId approverId nowUnix₂).2.isOk = true →
      (∃ outcome ∈ fileOutcomes result, place outcome.path = .ok p) →
      (∃ backups backup, (approve env₂ s₁ runId approverId nowUnix₂).1.runs.get runId =
          some (decidedRun run .promoted (some backups) approverId nowUnix₂) ∧
        backups.find? (fun b ↦ place b.path = .ok p) = some backup ∧
        backup.existedBefore = (s.workspace.get p).isSome ∧ backup.beforeContent = s.workspace.get p) ∧
      ∀ later,
        Run.Along step (fun s c ↦ ¬ Touches s p c) (approve env₂ s₁ runId approverId nowUnix₂).1 later →
        (Run.after step (approve env₂ s₁ runId approverId nowUnix₂).1 later).workspace.get p =
          shadow.files.get p := by
  obtain ⟨_, _, _, _, _, hs, -, -, hmeasured⟩ := measure_effect env s runId actor nowUnix
  obtain ⟨-, source, -, hsource⟩ := hmeasured run hmeasure
  have hfound : s₁.workspace.get p = s.workspace.get p := by
    rw [hs₁, along_untouched hbetween, hs]
  refine ⟨hfound, fun diff hdiff entry hentry hplace ↦ hsource.before hdiff hentry hplace, ?_⟩
  intro env₂ approverId nowUnix₂ shadow result hrun hshadow hresult hclean hok hnamed
  obtain ⟨plan, ws, backups, hcopied, hall, hbackups, hafter, hdecided⟩ :=
    approve_ok hrun hresult hshadow hclean hok
  have hmem : p ∈ ws.map Prod.fst := by
    obtain ⟨outcome, ho, hplace⟩ := hnamed
    obtain ⟨j, hj⟩ := List.mem_iff_getElem?.mp ho
    exact hcopied.mem_iff.mpr ⟨j, hall ▸ (List.getElem?_eq_some_iff.mp hj).1, outcome, hj, hplace⟩
  constructor
  · obtain ⟨backup, hfind, hexisted, hbefore⟩ := find_saves hbackups (find_journal _ hmem)
    rw [hfound] at hexisted hbefore
    exact ⟨backups, backup, hdecided, hfind, hexisted, hbefore⟩
  · intro later hlater
    rw [along_untouched hlater, hafter, get_overwrite hcopied.copies, if_pos hmem]

def plannedOne : Orchestrator Site.sample := Run.after step (sample oneFile) (planned "r1" [⟨"a.txt", "new"⟩])

/-- Another run is planned between the measurement and the approval. -/
theorem overwrites_known_bytes_one_file :
    ∃ run, (measure .calm plannedOne "r1" "ada" (.ofRat 1)).2 = .ok run ∧
      (Run.after step (measure .calm plannedOne "r1" "ada" (.ofRat 1)).1
        (planned "r2" [⟨"b.txt", "new"⟩])).workspace.get ["a.txt"] = plannedOne.workspace.get ["a.txt"] := by
  have hok : (measure .calm plannedOne "r1" "ada" (.ofRat 1)).2.isOk = true := by decide +kernel
  have huntouched : Run.Along step (fun s c ↦ ¬ Touches s ["a.txt"] c)
      (measure .calm plannedOne "r1" "ada" (.ofRat 1)).1 (planned "r2" [⟨"b.txt", "new"⟩]) := ⟨id, id, trivial⟩
  obtain ⟨run, hrun⟩ := isOk_iff.mp hok
  exact ⟨run, hrun, (overwrites_known_bytes hrun rfl huntouched).1⟩

def twoRuns : Orchestrator Site.sample :=
  Run.after step (sample oneFile) (planned "r1" [⟨"a.txt", "one"⟩] ++ planned "r2" [⟨"a.txt", "two"⟩] ++
    [.measure .calm "r1" "ada" (.ofRat 1), .measure .calm "r2" "ada" (.ofRat 1)])

def approvedBoth : Orchestrator Site.sample :=
  Run.after step twoRuns [.approve .calm "r1" "bob" (.ofRat 2), .approve .calm "r2" "bob" (.ofRat 3)]

def beforeOf (s : Orchestrator Site.sample) (runId : String) : Option (List (Option Bytes)) :=
  (s.runs.get runId).bind fun run ↦ run.diff.map fun diff ↦ diff.map DiffEntry.before

theorem approve_overwrites_another_run :
    beforeOf twoRuns "r2" = some [some (utf8 "old")] ∧
    (twoRuns.step (.approve .calm "r1" "bob" (.ofRat 2))).workspace.get ["a.txt"] = some (utf8 "one") ∧
    approvedBoth.statusOf "r2" = some .promoted ∧ approvedBoth.workspace.get ["a.txt"] = some (utf8 "two") ∧
    (approvedBoth.step (.restore .calm "r1" (.ofRat 4))).statusOf "r1" = some .restored ∧
    (approvedBoth.step (.restore .calm "r1" (.ofRat 4))).workspace.get ["a.txt"] = some (utf8 "old") := by
  decide +kernel

end Orchestrator

end Noesar.Workspace
