import Noesar.Workspace.Moves
import Noesar.Workspace.Promotion

namespace Noesar.Workspace

open Lib Lib.Framing Lib.Journal Capability Shadow

def Task.asks : Task → Option String
  | .planning _ forRun => forRun
  | .answering runId _ _ _ => some runId
  | .repairing _ _ _ _ _ => none
  | .iterating _ _ _ _ => none

theorem Measured.status_eq {site : Site} {workspace : Files} {run : Run} {shadow : ShadowWorkspace}
    (h : Measured site workspace run shadow) : run.status = .measured := by
  obtain ⟨_, _, _, _, _, _, _, _, _, _, -, -, -, -, -, hrun⟩ := h
  rw [hrun]
  rfl

namespace Orchestrator

variable {site : Site}

/-- Every shadow that is held belongs to a measured run whose record was computed from
it, and no answer is on its way to a run that asked nothing. -/
structure Sound (s : Orchestrator site) : Prop where
  held : ∀ id shadow, s.shadows.get id = some shadow → ∃ run workspace, s.runs.get id = some run ∧
    run.questions = [] ∧ Measured site workspace run shadow
  asked : ∀ task ∈ s.tasks, ∀ id, task.asks = some id → ∃ run, s.runs.get id = some run ∧ run.questions ≠ []

variable {s : Orchestrator site} {id : String}

theorem Guarded.questions {run' : Option Run} {shadow' : Option ShadowWorkspace} (h : Guarded s id run' shadow')
    {run : Run} (hrun : s.runs.get id = some run) :
    ∃ r, run' = some r ∧ r.questions = run.questions := by
  cases h with
  | kept | dropped => exact ⟨run, hrun, rfl⟩
  | planned args draft hnone =>
    rw [hnone] at hrun
    cases hrun
  | reproduced reproduction h =>
    rw [h] at hrun
    cases hrun
    exact ⟨_, rfl, rfl⟩
  | measured h hopen hquestions =>
    rw [h] at hrun
    cases hrun
    exact ⟨_, rfl, hquestions.trans hopen.1.symm⟩
  | approved backups by_ nowUnix h | rejected by_ nowUnix h | restored nowUnix h =>
    rw [h] at hrun
    cases hrun
    exact ⟨_, rfl, rfl⟩

theorem step_questions (s : Orchestrator site) (c : Command) {run : Run} (hrun : s.runs.get id = some run) :
    ∃ run', (s.step c).runs.get id = some run' ∧ run'.questions = run.questions := by
  have hat : ∀ {j : String} {run' : Option Run} {shadow' : Option ShadowWorkspace},
      At s (s.step c) j run' shadow' →
      (∀ r, s.runs.get j = some r → ∃ r', run' = some r' ∧ r'.questions = r.questions) →
      ∃ run', (s.step c).runs.get id = some run' ∧ run'.questions = run.questions := by
    intro j run' shadow' hat hj
    rw [hat.runs]
    split
    next h =>
      subst h
      exact hj run hrun
    next => exact ⟨run, hrun, rfl⟩
  cases step_moves s c with
  | guarded h hguarded => exact hat h fun r hr ↦ hguarded.questions hr
  | repaired hc htask hauthored hrecord hr h | answered hc htask hrecord hr h =>
    refine hat h fun r hr' ↦ ⟨_, rfl, ?_⟩
    rw [hr] at hr'
    cases hr'
    rfl

theorem Guarded.held (hsound : s.Sound) {run' : Option Run} {shadow : ShadowWorkspace}
    (h : Guarded s id run' (some shadow)) :
    ∃ r workspace, run' = some r ∧ r.questions = [] ∧ Measured site workspace r shadow := by
  generalize hshadow' : some shadow = shadow' at h
  cases h with
  | kept => exact hsound.held id shadow hshadow'.symm
  | dropped => cases hshadow'
  | planned args draft hnone =>
    obtain ⟨run, _, hrun, -⟩ := hsound.held id shadow hshadow'.symm
    rw [hnone] at hrun
    cases hrun
  | @reproduced run _ reproduction hrun hopen hshadow =>
    rcases hshadow with rfl | rfl
    · obtain ⟨r, workspace, hr, -, hmeasured⟩ := hsound.held id shadow hshadow'.symm
      rw [hrun] at hr
      cases hr
      rcases hopen.2 with hpending | ⟨-, hnone⟩
      · rw [hmeasured.status_eq] at hpending
        cases hpending
      · rw [hnone] at hshadow'
        cases hshadow'
    · cases hshadow'
  | measured hrun hopen hquestions hmeasured =>
    cases hshadow'
    exact ⟨_, _, rfl, hquestions, hmeasured⟩
  | approved | rejected => cases hshadow'
  | restored nowUnix hrun hstatus =>
    obtain ⟨r, workspace, hr, -, hmeasured⟩ := hsound.held id shadow hshadow'.symm
    rw [hrun] at hr
    cases hr
    rw [hmeasured.status_eq] at hstatus
    cases hstatus

theorem step_held (hsound : s.Sound) (c : Command) :
    ∀ id shadow, (s.step c).shadows.get id = some shadow → ∃ run workspace, (s.step c).runs.get id = some run ∧
      run.questions = [] ∧ Measured site workspace run shadow := by
  have hat : ∀ {j : String} {run' : Option Run} {shadow' : Option ShadowWorkspace},
      At s (s.step c) j run' shadow' →
      (∀ shadow, shadow' = some shadow →
        ∃ r workspace, run' = some r ∧ r.questions = [] ∧ Measured site workspace r shadow) →
      ∀ id shadow, (s.step c).shadows.get id = some shadow → ∃ run workspace, (s.step c).runs.get id = some run ∧
        run.questions = [] ∧ Measured site workspace run shadow := by
    intro j run' shadow' hat hj id shadow hshadow
    rw [hat.shadows] at hshadow
    rw [hat.runs]
    split at hshadow
    next h =>
      rw [if_pos h]
      exact hj shadow hshadow
    next h =>
      rw [if_neg h]
      exact hsound.held id shadow hshadow
  cases step_moves s c with
  | guarded h hguarded =>
    refine hat h fun shadow hshadow ↦ ?_
    subst hshadow
    exact hguarded.held hsound
  | repaired hc htask hauthored hrecord hr h => exact hat h fun shadow hshadow ↦ by cases hshadow
  | answered hc htask hrecord hr h =>
    -- the run is waited for because it asked something, so no shadow of it is held
    refine hat h fun shadow hshadow ↦ ?_
    obtain ⟨run, hrun, hasked⟩ := hsound.asked _ (List.mem_of_getElem? htask) _ rfl
    obtain ⟨run', _, hrun', hnone, -⟩ := hsound.held _ shadow hshadow
    rw [hrun] at hrun'
    cases hrun'
    exact absurd hnone hasked

def Asked (s : Orchestrator site) (tasks : List Task) : Prop :=
  ∀ task ∈ tasks, ∀ id, task.asks = some id →
    (∃ t ∈ s.tasks, t.asks = some id) ∨ ∃ run, s.runs.get id = some run ∧ run.questions ≠ []

theorem Asked.same {tasks : List Task} (h : ∀ task ∈ tasks, task ∈ s.tasks) :
    Asked s tasks := fun task htask _ hid ↦ .inl ⟨task, h task htask, hid⟩

theorem Asked.snoc {tasks : List Task} (h : Asked s tasks) {task : Task} (htask : ∀ id, task.asks = some id →
      (∃ t ∈ s.tasks, t.asks = some id) ∨ ∃ run, s.runs.get id = some run ∧ run.questions ≠ []) :
    Asked s (tasks ++ [task]) := by
  intro t ht id hid
  rcases List.mem_append.mp ht with ht | ht
  · exact h t ht id hid
  · cases List.mem_singleton.mp ht
    exact htask id hid

theorem finish_asked {index : ℕ} {task : Task} (htask : s.tasks[index]? = some task) (reply : Reply) :
    Asked s (finish { s with tasks := s.tasks.eraseIdx index } task reply).1.tasks := by
  have hrest : Asked s (s.tasks.eraseIdx index) := Asked.same fun t ht ↦ List.mem_of_mem_eraseIdx ht
  cases task with
  | planning args answering =>
    obtain ⟨_, tasks, _, hs, -, -, htasks⟩ :=
      finishPlan_effect { s with tasks := s.tasks.eraseIdx index } args answering reply
    rw [finish, hs]
    rcases htasks with rfl | ⟨id, hid, rfl⟩
    · exact hrest
    · refine hrest.snoc fun j hj ↦ .inl ⟨_, List.mem_of_getElem? htask, ?_⟩
      exact hid.trans hj
  | answering runId successor actor nowUnix =>
    rcases finishAnswer_effect { s with tasks := s.tasks.eraseIdx index } runId successor actor nowUnix reply
      with hs | ⟨run, runs', -, -, -, hs⟩
    · rw [finish, hs]
      exact hrest
    · rw [finish, hs]
      exact hrest
  | repairing runId actor nowUnix brief iteration =>
    rcases finishRepair_effect { s with tasks := s.tasks.eraseIdx index } runId actor nowUnix brief iteration reply
      with hs | ⟨run, authored, runs', shadows', tasks, -, -, -, -, -, hs, htasks⟩
    · rw [finish, hs]
      exact hrest
    · rw [finish, hs]
      rcases htasks with rfl | ⟨next, rfl⟩
      · exact hrest
      · exact hrest.snoc fun j hj ↦ by cases hj
  | iterating runId actor nowUnix iteration =>
    obtain ⟨_, _, -, -, -, htasks⟩ :=
      iterateTurn_effect reply.env { s with tasks := s.tasks.eraseIdx index } runId actor nowUnix iteration
    rw [finish]
    rcases htasks with htasks | ⟨brief, next, htasks⟩
    · rw [htasks]
      exact hrest
    · rw [htasks]
      exact hrest.snoc fun j hj ↦ by cases hj

theorem step_asked (s : Orchestrator site) (c : Command) : Asked s (s.step c).tasks := by
  have hsame : Asked s s.tasks := Asked.same fun _ h ↦ h
  cases c with
  | plan args =>
    obtain ⟨tasks, hs, htasks⟩ := beginPlan_effect s args none
    rw [step, hs]
    rcases htasks with rfl | rfl
    · exact hsame
    · exact hsame.snoc fun id hid ↦ by cases hid
  | measure env runId actor nowUnix =>
    obtain ⟨_, _, _, _, _, hs, -⟩ := measure_effect env s runId actor nowUnix
    rw [step, hs]
    exact hsame
  | repair runId actor nowUnix =>
    obtain ⟨tasks, hs, htasks⟩ := repair_effect s runId actor nowUnix none
    rw [step, hs]
    rcases htasks with rfl | ⟨brief, rfl⟩
    · exact hsame
    · exact hsame.snoc fun id hid ↦ by cases hid
  | iterate env runId actor nowUnix maxAttempts =>
    obtain ⟨_, _, -, -, -, htasks⟩ := iterate_effect env s runId actor nowUnix maxAttempts
    rw [step]
    rcases htasks with htasks | ⟨brief, next, htasks⟩
    · rw [htasks]
      exact hsame
    · rw [htasks]
      exact hsame.snoc fun id hid ↦ by cases hid
  | approve env runId approverId nowUnix =>
    obtain ⟨_, _, _, _, _, _, hs, -⟩ := approve_effect env s runId approverId nowUnix
    rw [step, hs]
    exact hsame
  | answer runId answers actor nowUnix =>
    obtain ⟨tasks, hs, htasks⟩ := answer_effect s runId answers actor nowUnix
    rw [step, hs]
    rcases htasks with rfl | ⟨⟨args, rfl⟩, hrun⟩
    · exact hsame
    · refine hsame.snoc fun id hid ↦ .inr ?_
      cases hid
      exact hrun
  | reject env runId approverId nowUnix =>
    obtain ⟨_, _, _, _, hs, -⟩ := reject_effect env s runId approverId nowUnix
    rw [step, hs]
    exact hsame
  | restore env runId nowUnix =>
    obtain ⟨_, _, _, hs, -⟩ := restore_effect env s runId nowUnix
    rw [step, hs]
    exact hsame
  | resume index reply =>
    rw [step]
    cases htask : s.tasks[index]? with
    | none => exact hsame
    | some => exact finish_asked htask reply

theorem Sound.step (hsound : s.Sound) (c : Command) : (s.step c).Sound := by
  refine ⟨step_held hsound c, fun task htask id hid ↦ ?_⟩
  have hasked : ∃ run, s.runs.get id = some run ∧ run.questions ≠ [] := by
    rcases step_asked s c task htask id hid with ⟨t, ht, htid⟩ | hrun
    · exact hsound.asked t ht id htid
    · exact hrun
  obtain ⟨run, hrun, hquestions⟩ := hasked
  obtain ⟨run', hrun', hsame⟩ := step_questions s c hrun
  exact ⟨run', hrun', hsame ▸ hquestions⟩

def reached (workspace : Files) (minter : JsMinter site.host) (runs : InsertionMap String Run)
    (cs : List Command) : Orchestrator site :=
  Run.after step ⟨workspace, minter, runs, .empty, []⟩ cs

theorem reached_sound (workspace : Files) (minter : JsMinter site.host) (runs : InsertionMap String Run)
    (cs : List Command) : (reached workspace minter runs cs).Sound :=
  Run.invariant (fun _ c h ↦ h.step c) ⟨by simp, by simp⟩ cs

theorem approve_changes {env : Env} {approverId : String} {nowUnix : Number} {p : Place}
    (hchanged : (approve env s id approverId nowUnix).1.workspace.get p ≠ s.workspace.get p) :
    ∃ run shadow result outcome, s.runs.get id = some run ∧ s.shadows.get id = some shadow ∧
      run.result = some result ∧ run.clean = true ∧ outcome ∈ fileOutcomes result ∧ place outcome.path = .ok p ∧
      ((approve env s id approverId nowUnix).1.workspace.get p = shadow.files.get p ∨
        (approve env s id approverId nowUnix).2.isOk = false ∧ ∃ k left,
          (env.promoteFaults k).write = some (some left) ∧
            (approve env s id approverId nowUnix).1.workspace.get p = some left) := by
  obtain ⟨_, workspace', _, _, _, _, hs, -, happroving⟩ := approve_effect env s id approverId nowUnix
  rw [hs] at hchanged ⊢
  generalize (approve env s id approverId nowUnix).2 = answer at happroving ⊢
  cases happroving with
  | notGranted | undecided | refused => exact absurd rfl hchanged
  | broken hp hpromote =>
    have hends := hp.ends
    rw [hpromote] at hends
    obtain ⟨hrun, -, hshadow⟩ := hp.run
    obtain ⟨⟨outcome, ho, hplace⟩, hbytes⟩ := (hends.get p).resolve_left hchanged
    exact ⟨_, _, _, outcome, hrun, hshadow, hp.2.1, hp.2.2, ho, hplace, hbytes⟩
  | unrecorded hp hpromote | promoted hp hpromote =>
    have hends := hp.ends
    rw [hpromote] at hends
    obtain ⟨hrun, -, hshadow⟩ := hp.run
    obtain ⟨⟨outcome, ho, hplace⟩, hbytes⟩ := (hends.get p).resolve_left hchanged
    exact ⟨_, _, _, outcome, hrun, hshadow, hp.2.1, hp.2.2, ho, hplace, hbytes.imp_right fun h ↦ by cases h.1⟩

/-- In every state reached: a shadow is held for measured runs only, whose record was
computed from it and from the contents the run holds; and what `approve` changes is at the
places of performed file outcomes of a clean measurement, with the bytes of its shadow.
Where the operating system fails a write, what is left there is its doing. -/
theorem promoted_is_measured (workspace : Files) (minter : JsMinter site.host) (runs : InsertionMap String Run)
    (cs : List Command) :
    (∀ id shadow, (reached workspace minter runs cs).shadows.get id = some shadow →
      ∃ run source, (reached workspace minter runs cs).runs.get id = some run ∧ run.status = .measured ∧
        Measured site source run shadow) ∧
    ∀ env id approverId nowUnix p,
      (approve env (reached workspace minter runs cs) id approverId nowUnix).1.workspace.get p ≠
        (reached workspace minter runs cs).workspace.get p →
      ∃ run source shadow result outcome, (reached workspace minter runs cs).runs.get id = some run ∧
        (reached workspace minter runs cs).shadows.get id = some shadow ∧ Measured site source run shadow ∧
        run.result = some result ∧ run.clean = true ∧ outcome ∈ result.outcomes ∧ outcome.performed = true ∧
        outcome.operation ≠ "EXECUTE" ∧ outcome.path ≠ reproductionPath ∧ place outcome.path = .ok p ∧
        ((approve env (reached workspace minter runs cs) id approverId nowUnix).1.workspace.get p =
            shadow.files.get p ∨
          (approve env (reached workspace minter runs cs) id approverId nowUnix).2.isOk = false ∧ ∃ k left,
            (env.promoteFaults k).write = some (some left) ∧
              (approve env (reached workspace minter runs cs) id approverId nowUnix).1.workspace.get p = some left) := by
  have hsound := reached_sound workspace minter runs cs
  constructor
  · intro id shadow hshadow
    obtain ⟨run, source, hrun, -, hmeasured⟩ := hsound.held id shadow hshadow
    exact ⟨run, source, hrun, hmeasured.status_eq, hmeasured⟩
  · intro env id approverId nowUnix p hchanged
    obtain ⟨run, shadow, result, outcome, hrun, hshadow, hresult, hclean, ho, hplace, hbytes⟩ :=
      approve_changes hchanged
    obtain ⟨run', source, hrun', -, hmeasured⟩ := hsound.held id shadow hshadow
    rw [hrun] at hrun'
    cases hrun'
    obtain ⟨hmem, hfile⟩ := List.mem_filter.mp ho
    simp only [isFileOutcome, Bool.and_eq_true, decide_eq_true_eq] at hfile
    exact ⟨run, source, shadow, result, outcome, hrun, hshadow, hmeasured, hresult, hclean, hmem, hfile.1.1,
      hfile.1.2, hfile.2, hplace, hbytes⟩

def oneMeasurement : List Command :=
  planned "r1" [⟨"a.txt", "new"⟩] ++ [.measure .calm "r1" "ada" (.ofRat 1)]

theorem promoted_is_measured_one_change :
    ∃ shadow, (reached oneFile (sample oneFile).minter .empty oneMeasurement).shadows.get "r1" = some shadow ∧
      (approve .calm (reached oneFile (sample oneFile).minter .empty oneMeasurement) "r1" "bob"
        (.ofRat 2)).1.workspace.get ["a.txt"] = shadow.files.get ["a.txt"] := by
  have hchanged : (approve .calm (reached oneFile (sample oneFile).minter .empty oneMeasurement) "r1" "bob"
      (.ofRat 2)).1.workspace.get ["a.txt"] ≠
        (reached oneFile (sample oneFile).minter .empty oneMeasurement).workspace.get ["a.txt"] := by
    decide +kernel
  obtain ⟨_, _, shadow, _, _, -, hshadow, -, -, -, -, -, -, -, -, hbytes⟩ :=
    (promoted_is_measured oneFile (sample oneFile).minter .empty oneMeasurement).2 .calm "r1" "bob" (.ofRat 2)
      ["a.txt"] hchanged
  refine ⟨shadow, hshadow, hbytes.resolve_right ?_⟩
  rintro ⟨-, k, left, hwrite, -⟩
  cases hwrite

end Orchestrator

end Noesar.Workspace
