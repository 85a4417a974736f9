import Noesar.Workspace.Effects

namespace Noesar.Workspace

open Lib Lib.Framing Capability Shadow

namespace Orchestrator

variable {site : Site}

/-- A step takes a guarded move on one run, or it ends a wait of `repair` or of `answer`,
which write the record whatever its status has become. -/
inductive Moves (s : Orchestrator site) (c : Command) (s' : Orchestrator site) : Prop
  | guarded {id : String} {run' : Option Run} {shadow' : Option ShadowWorkspace} (hat : At s s' id run' shadow')
      (hguarded : Guarded s id run' shadow')
  | repaired {index : ℕ} {reply : Reply} {id actor : String} {nowUnix : Number} {brief : List String}
      {iteration : Option Iteration} {run : Run} {authored : Authored} (hc : c = .resume index reply)
      (htask : s.tasks[index]? = some (.repairing id actor nowUnix brief iteration))
      (hauthored : reply.authored = .ok authored) (hrecord : reply.env.recordFails 0 = false)
      (hrun : s.runs.get id = some run) (hat : At s s' id (some (repairedRun run brief authored)) none)
  | answered {index : ℕ} {reply : Reply} {id successor actor : String} {nowUnix : Number} {run : Run}
      (hc : c = .resume index reply) (htask : s.tasks[index]? = some (.answering id successor actor nowUnix))
      (hrecord : reply.env.recordFails 0 = false) (hrun : s.runs.get id = some run)
      (hat : At s s' id (some { run with
        status := .answered
        answeredBy := some successor
        decidedBy := some actor
        decidedAtUnix := some nowUnix }) (s.shadows.get id))

theorem Guarded.of_tasks {s : Orchestrator site} {tasks : List Task} {id : String} {run' : Option Run}
    {shadow' : Option ShadowWorkspace} (h : Guarded { s with tasks := tasks } id run' shadow') :
    Guarded s id run' shadow' := by
  cases h with
  | kept => exact .kept
  | dropped => exact .dropped
  | planned args draft hnone => exact .planned args draft hnone
  | reproduced reproduction hrun hopen hshadow => exact .reproduced reproduction hrun hopen hshadow
  | measured hrun hopen hquestions hmeasured => exact .measured hrun hopen hquestions hmeasured
  | approved backups by_ nowUnix hrun hstatus hdecided => exact .approved backups by_ nowUnix hrun hstatus hdecided
  | rejected by_ nowUnix hrun hstatus => exact .rejected by_ nowUnix hrun hstatus
  | restored nowUnix hrun hstatus => exact .restored nowUnix hrun hstatus

theorem beginPlan_effect (s : Orchestrator site) (args : PlanArgs) (answering : Option String) :
    ∃ tasks, (beginPlan s args answering).1 = { s with tasks := tasks } ∧
      (tasks = s.tasks ∨ tasks = s.tasks ++ [.planning args answering]) := by
  unfold beginPlan
  split
  · exact ⟨_, rfl, .inl rfl⟩
  · exact ⟨_, rfl, .inr rfl⟩

theorem repair_effect (s : Orchestrator site) (runId actor : String) (nowUnix : Number)
    (iteration : Option Iteration) :
    ∃ tasks, (repair s runId actor nowUnix iteration).1 = { s with tasks := tasks } ∧
      (tasks = s.tasks ∨ ∃ brief, tasks = s.tasks ++ [.repairing runId actor nowUnix brief iteration]) := by
  unfold repair
  split
  · exact ⟨_, rfl, .inl rfl⟩
  next brief _ => exact ⟨_, rfl, .inr ⟨brief, rfl⟩⟩

theorem answer_effect (s : Orchestrator site) (runId answers actor : String) (nowUnix : Number) :
    ∃ tasks, (answer s runId answers actor nowUnix).1 = { s with tasks := tasks } ∧
      (tasks = s.tasks ∨ (∃ args, tasks = s.tasks ++ [.planning args (some runId)]) ∧
        ∃ run, s.runs.get runId = some run ∧ run.questions ≠ []) := by
  unfold answer
  split
  · exact ⟨_, rfl, .inl rfl⟩
  next run hrun =>
    split
    · exact ⟨_, rfl, .inl rfl⟩
    · split
      · exact ⟨_, rfl, .inl rfl⟩
      next hquestions =>
        split
        · exact ⟨_, rfl, .inl rfl⟩
        · obtain ⟨tasks, hs, htasks⟩ := beginPlan_effect s
            { files := if run.grounded then [] else run.files
              claims := run.claims
              commands := run.commands
              conversationId := run.conversationId
              answers := some answers
              actor := actor
              nowUnix := nowUnix } (some runId)
          rcases htasks with htasks | htasks
          · exact ⟨tasks, hs, .inl htasks⟩
          · exact ⟨tasks, hs, .inr ⟨⟨_, htasks⟩, run, hrun, hquestions⟩⟩

theorem finishPlan_effect (s : Orchestrator site) (args : PlanArgs) (answering : Option String) (reply : Reply) :
    ∃ runs' tasks run', (finishPlan s args answering reply).1 = { s with runs := runs', tasks := tasks } ∧
      At s (finishPlan s args answering reply).1 reply.runId run' (s.shadows.get reply.runId) ∧
      Guarded s reply.runId run' (s.shadows.get reply.runId) ∧
      (tasks = s.tasks ∨
        ∃ id, answering = some id ∧ tasks = s.tasks ++ [.answering id reply.runId args.actor args.nowUnix]) := by
  unfold finishPlan
  split
  · exact ⟨_, _, _, rfl, At.kept rfl rfl _, .kept, .inl rfl⟩
  next draft _ =>
    split
    · exact ⟨_, _, _, rfl, At.kept rfl rfl _, .kept, .inl rfl⟩
    next hfresh =>
      have hnone : s.runs.get reply.runId = none := by
        simp only [Bool.or_eq_true, not_or, InsertionMap.has, Bool.not_eq_true, Option.isSome_eq_false_iff,
          Option.isNone_iff_eq_none] at hfresh
        exact hfresh.2
      dsimp only
      split
      · exact ⟨_, _, _, rfl, At.set rfl rfl, .planned args draft hnone, .inl rfl⟩
      next answered =>
        exact ⟨_, _, _, rfl, At.set rfl rfl, .planned args draft hnone, .inr ⟨answered, rfl, rfl⟩⟩

theorem finishAnswer_effect (s : Orchestrator site) (runId successor actor : String) (nowUnix : Number)
    (reply : Reply) :
    (finishAnswer s runId successor actor nowUnix reply).1 = s ∨
      ∃ run runs', s.runs.get runId = some run ∧ reply.env.recordFails 0 = false ∧
        runs' = s.runs.set runId { run with
          status := .answered
          answeredBy := some successor
          decidedBy := some actor
          decidedAtUnix := some nowUnix } ∧
        (finishAnswer s runId successor actor nowUnix reply).1 = { s with runs := runs' } := by
  unfold finishAnswer
  split
  · exact .inl rfl
  next run hrun =>
    split
    · exact .inl rfl
    next hrecord => exact .inr ⟨run, _, hrun, Bool.eq_false_of_not_eq_true hrecord, rfl, rfl⟩

theorem finishRepair_effect (s : Orchestrator site) (runId actor : String) (nowUnix : Number)
    (brief : List String) (iteration : Option Iteration) (reply : Reply) :
    (finishRepair s runId actor nowUnix brief iteration reply).1 = s ∨
      ∃ run authored runs' shadows' tasks, s.runs.get runId = some run ∧ reply.authored = .ok authored ∧
        reply.env.recordFails 0 = false ∧ runs' = s.runs.set runId (repairedRun run brief authored) ∧
        shadows' = s.shadows.delete runId ∧
        (finishRepair s runId actor nowUnix brief iteration reply).1 =
          { s with runs := runs', shadows := shadows', tasks := tasks } ∧
        (tasks = s.tasks ∨ ∃ next, tasks = s.tasks ++ [.iterating runId actor nowUnix next]) := by
  unfold finishRepair
  split
  · exact .inl rfl
  · exact .inl rfl
  next authored run hauthored hrun =>
    split
    · exact .inl rfl
    next hrecord =>
      have hrecord' := Bool.eq_false_of_not_eq_true hrecord
      dsimp only
      split
      · exact .inr ⟨run, authored, _, _, _, hrun, hauthored, hrecord', rfl, rfl, rfl, .inl rfl⟩
      · split
        · exact .inr ⟨run, authored, _, _, _, hrun, hauthored, hrecord', rfl, rfl, rfl, .inl rfl⟩
        · exact .inr ⟨run, authored, _, _, _, hrun, hauthored, hrecord', rfl, rfl, rfl, .inr ⟨_, rfl⟩⟩

/-- What a turn of the iteration does: the run is moved as it may be, and a repair of it may wait to be done. -/
def Turned (s s' : Orchestrator site) (runId actor : String) (nowUnix : Number) : Prop :=
  ∃ run' shadow', At s s' runId run' shadow' ∧ Guarded s runId run' shadow' ∧ s'.workspace = s.workspace ∧
    (s'.tasks = s.tasks ∨ ∃ brief next, s'.tasks = s.tasks ++ [.repairing runId actor nowUnix brief next])

theorem iterateTurn_effect (env : Env) (s : Orchestrator site) (runId actor : String) (nowUnix : Number)
    (iteration : Iteration) :
    Turned s (iterateTurn env s runId actor nowUnix iteration).1 runId actor nowUnix := by
  obtain ⟨minter, runs', shadows', run', shadow', hs, hat, hguarded, -⟩ := measure_effect env s runId actor nowUnix
  unfold iterateTurn
  rcases hm : measure env s runId actor nowUnix with ⟨s₁, r₁⟩
  rw [hm] at hs hat
  dsimp only at hs hat
  subst hs
  cases r₁ with
  | error => exact ⟨run', shadow', hat, hguarded, rfl, .inl rfl⟩
  | ok =>
    dsimp only
    split
    · exact ⟨run', shadow', hat, hguarded, rfl, .inl rfl⟩
    · unfold repair
      split
      · exact ⟨run', shadow', hat, hguarded, rfl, .inl rfl⟩
      next brief _ =>
        exact ⟨run', shadow', ⟨hat.runs, hat.shadows⟩, hguarded, rfl, .inr ⟨brief, _, rfl⟩⟩

theorem iterate_effect (env : Env) (s : Orchestrator site) (runId actor : String) (nowUnix : Number) (maxAttempts : ℕ) :
    Turned s (iterate env s runId actor nowUnix maxAttempts).1 runId actor nowUnix := by
  unfold iterate
  split
  · exact ⟨_, _, At.kept rfl rfl runId, .kept, rfl, .inl rfl⟩
  · exact iterateTurn_effect env s runId actor nowUnix ⟨0, maxAttempts, false⟩

theorem step_moves (s : Orchestrator site) (c : Command) : Moves s c (s.step c) := by
  have hkept : ∀ tasks, Moves s c { s with tasks := tasks } := fun tasks ↦
    .guarded (At.kept (by rfl) (by rfl) "") .kept
  cases c with
  | plan args =>
    obtain ⟨tasks, hs, -⟩ := beginPlan_effect s args none
    rw [step, hs]
    exact hkept tasks
  | measure env runId actor nowUnix =>
    obtain ⟨_, _, _, run', shadow', -, hat, hguarded, -⟩ := measure_effect env s runId actor nowUnix
    exact .guarded hat hguarded
  | repair runId actor nowUnix =>
    obtain ⟨tasks, hs, -⟩ := repair_effect s runId actor nowUnix none
    rw [step, hs]
    exact hkept tasks
  | iterate env runId actor nowUnix maxAttempts =>
    obtain ⟨run', shadow', hat, hguarded, -⟩ := iterate_effect env s runId actor nowUnix maxAttempts
    exact .guarded hat hguarded
  | approve env runId approverId nowUnix =>
    obtain ⟨_, _, _, _, run', shadow', -, hat, happroving⟩ := approve_effect env s runId approverId nowUnix
    exact .guarded hat happroving.guarded
  | answer runId answers actor nowUnix =>
    obtain ⟨tasks, hs, -⟩ := answer_effect s runId answers actor nowUnix
    rw [step, hs]
    exact hkept tasks
  | reject env runId approverId nowUnix =>
    obtain ⟨_, _, run', shadow', -, hat, hguarded⟩ := reject_effect env s runId approverId nowUnix
    exact .guarded hat hguarded
  | restore env runId nowUnix =>
    obtain ⟨_, _, run', -, hat, hrestoring⟩ := restore_effect env s runId nowUnix
    exact .guarded hat hrestoring.guarded
  | resume index reply =>
    rw [step]
    cases htask : s.tasks[index]? with
    | none => exact hkept s.tasks
    | some task =>
      cases task with
      | planning args answering =>
        obtain ⟨_, _, run', -, hat, hguarded, -⟩ :=
          finishPlan_effect { s with tasks := s.tasks.eraseIdx index } args answering reply
        exact .guarded ⟨hat.runs, hat.shadows⟩ hguarded.of_tasks
      | answering runId successor actor nowUnix =>
        rcases finishAnswer_effect { s with tasks := s.tasks.eraseIdx index } runId successor actor nowUnix reply
          with hs | ⟨run, runs', hrun, hrecord, rfl, hs⟩
        · simp only [finish, hs]
          exact hkept _
        · simp only [finish, hs]
          exact .answered rfl htask hrecord hrun (At.set rfl rfl)
      | repairing runId actor nowUnix brief iteration =>
        rcases finishRepair_effect { s with tasks := s.tasks.eraseIdx index } runId actor nowUnix brief iteration reply
          with hs | ⟨run, authored, runs', shadows', tasks, hrun, hauthored, hrecord, rfl, rfl, hs, -⟩
        · simp only [finish, hs]
          exact hkept _
        · simp only [finish, hs]
          exact .repaired rfl htask hauthored hrecord hrun (At.setDropped rfl rfl)
      | iterating runId actor nowUnix iteration =>
        obtain ⟨run', shadow', hat, hguarded, -⟩ :=
          iterateTurn_effect reply.env { s with tasks := s.tasks.eraseIdx index } runId actor nowUnix iteration
        exact .guarded ⟨hat.runs, hat.shadows⟩ hguarded.of_tasks

end Orchestrator

end Noesar.Workspace
