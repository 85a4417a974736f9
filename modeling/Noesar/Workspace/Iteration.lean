import Noesar.Lib.Fallible
import Noesar.Workspace.Measurement

namespace Noesar.Workspace

open Lib Lib.Framing Capability Shadow

/-- What one turn of the loop meets: the surroundings of its measurement, and what the author of its repair answers. -/
structure Turn where
  measuring : Env
  repairing : Orchestrator.Reply

/-- An entry of `attempts`. -/
structure Attempt where
  attempt : ℕ
  clean : Bool
  failure : List String
  repairRefused : Option (String × String)
  repairedTo : Option String

inductive Stopped
  | clean
  | exhausted
  | repeated
  | refused
  deriving DecidableEq

structure Decision where
  abstained : Bool
  probability : ℚ
  promptDigest : Option String

inductive Decided
  | answered (decision : Decision)
  | unavailable (reason : String)
  | failed

inductive Confidence
  | available (abstained : Bool) (probability : Option ℚ) (promptDigest : Option String)
  | unavailable (reason : String)

structure Iterated where
  runId : String
  status : Status
  clean : Bool
  stopped : Stopped
  attempts : List Attempt
  result : Option Result
  diff : Option (List DiffEntry)
  coverage : Option (List String)
  reproduction : Option Reproduction
  confidence : Option Confidence

def Attempt.ofMeasured (attempt : ℕ) (run : Run) : Attempt :=
  ⟨attempt, run.clean, if run.clean then [] else repairBrief run.result, none, none⟩

namespace Orchestrator

variable {site : Site}

/-- `repair`, whose author answers before anything else happens. -/
def repairNow (s : Orchestrator site) (runId actor : String) (nowUnix : Number) (reply : Reply) : Step site Authored :=
  match s.checkRepair runId actor with
  | .error e => (s, .error e)
  | .ok brief =>
    let finished := s.finishRepair runId actor nowUnix brief none reply
    (finished.1, finished.2.bind fun _ ↦ reply.authored)

section Loop

variable (shortDigest : String → String) (turns : ℕ → Turn) (runId actor : String) (nowUnix : Number)

/-- The loop of `iterate`, of which `left` turns are allowed after this one, and the measurements it took. -/
def iterateLoop : ℕ → ℕ → Bool → List Attempt → List Run → Orchestrator site →
    Orchestrator site × List Run × Except Thrown (Stopped × List Attempt)
  | left, attempt, repeated, attempts, taken, s =>
    match measure (turns attempt).measuring s runId actor nowUnix with
    | (s, .error e) => (s, taken, .error e)
    | (s, .ok run) =>
      let taken := taken ++ [run]
      let entry := Attempt.ofMeasured attempt run
      if run.clean then (s, taken, .ok (.clean, attempts ++ [entry]))
      -- the bytes of the repeat have been measured, and there is nothing left to ask for
      else if repeated then (s, taken, .ok (.repeated, attempts ++ [entry]))
      else match left with
        | 0 => (s, taken, .ok (.exhausted, attempts ++ [entry]))
        | left + 1 => match repairNow s runId actor nowUnix (turns attempt).repairing with
          | (s, .error .failed) => (s, taken, .error .failed)
          | (s, .error (.refused kind reason)) =>
            (s, taken, .ok (.refused, attempts ++ [{ entry with repairRefused := some (kind, reason) }]))
          | (s, .ok authored) => iterateLoop left (attempt + 1) (authored.novelty = .repeated)
              (attempts ++ [{ entry with repairedTo := some (shortDigest authored.attemptDigest) }]) taken s

end Loop

/-- `#assessConfidence`: the run has a confidence only where its diff shows a file. -/
def assessConfidence (env : Env) (decider : Option Decided) (run : Run) : Except Thrown (Option Confidence) :=
  match decider with
  | none => .ok none
  | some decided =>
    if !(run.diff.getD []).any fun entry ↦ entry.after.isSome then .ok none
    else match decided with
      | .failed => .error .failed
      | .unavailable reason => if env.recordFails 1 then .error .failed else .ok (some (.unavailable reason))
      | .answered decision => if env.recordFails 1 then .error .failed else
        .ok (some (.available decision.abstained (if decision.abstained then none else some decision.probability)
          decision.promptDigest))

/-- `iterate` with no other operation in between, and the measurements it took. -/
def iterateAlone (shortDigest : String → String) (turns : ℕ → Turn) (env : Env) (decider : Option Decided)
    (s : Orchestrator site) (runId actor : String) (nowUnix : Number) (maxAttempts : ℕ) :
    Orchestrator site × List Run × Except Thrown Iterated :=
  if maxAttempts < 1 then
    (s, [], .error (.refused "INVALID_ATTEMPTS" s!"maxAttempts must be a positive integer, received `{maxAttempts}`"))
  else match iterateLoop shortDigest turns runId actor nowUnix (maxAttempts - 1) 1 false [] [] s with
    | (s, taken, .error e) => (s, taken, .error e)
    | (s, taken, .ok (stopped, attempts)) => match s.runs.get runId with
      | none => (s, taken, .error .failed)
      | some run =>
        if env.recordFails 0 then (s, taken, .error .failed)
        else (s, taken, (assessConfidence env decider run).map fun confidence ↦
          { runId, status := run.status, clean := stopped = .clean, stopped, attempts, result := run.result
            diff := run.diff, coverage := run.coverage, reproduction := run.reproduction, confidence })

section Loop

variable {shortDigest : String → String} {turns : ℕ → Turn} {runId actor : String} {nowUnix : Number}

variable {s s' : Orchestrator site} {attempt : ℕ} {attempts : List Attempt} {taken : List Run}

theorem repairNow_refused {reply : Reply} {kind reason : String}
    (h : repairNow s runId actor nowUnix reply = (s', .error (.refused kind reason))) : s' = s := by
  unfold repairNow at h
  split at h
  · cases h
    rfl
  next brief hbrief =>
    unfold finishRepair at h
    split at h
    · cases h
      rfl
    · cases h
    next authored run hauthored hrun =>
      rw [hauthored] at h
      split at h
      · cases h
      · dsimp only at h
        split at h
        · cases h
        · cases h

theorem repairNow_workspace (s : Orchestrator site) (reply : Reply) :
    (repairNow s runId actor nowUnix reply).1.workspace = s.workspace := by
  unfold repairNow
  split
  · rfl
  next brief hbrief =>
    rcases finishRepair_effect s runId actor nowUnix brief none reply with hs | ⟨_, _, _, _, _, -, -, -, -, -, hs, -⟩
    · dsimp only
      rw [hs]
    · dsimp only
      rw [hs]

theorem iterateLoop_turn {left : ℕ} {repeated : Bool} {attempts' : List Attempt} {taken' : List Run}
    {stopped : Stopped}
    (h : iterateLoop shortDigest turns runId actor nowUnix left attempt repeated attempts taken s =
      (s', taken', .ok (stopped, attempts'))) :
    ∃ s₁ run, measure (turns attempt).measuring s runId actor nowUnix = (s₁, .ok run) ∧
      ((∃ refused, s' = s₁ ∧ taken' = taken ++ [run] ∧
          attempts' = attempts ++ [{ Attempt.ofMeasured attempt run with repairRefused := refused }] ∧
          (stopped = .clean ↔ run.clean = true)) ∨
        ∃ left' authored s₂, left = left' + 1 ∧
          repairNow s₁ runId actor nowUnix (turns attempt).repairing = (s₂, .ok authored) ∧
          iterateLoop shortDigest turns runId actor nowUnix left' (attempt + 1) (authored.novelty = .repeated)
            (attempts ++ [{ Attempt.ofMeasured attempt run with
              repairedTo := some (shortDigest authored.attemptDigest) }]) (taken ++ [run]) s₂ =
            (s', taken', .ok (stopped, attempts'))) := by
  unfold iterateLoop at h
  rcases hmeasure : measure (turns attempt).measuring s runId actor nowUnix with ⟨s₁, _ | run⟩
  · rw [hmeasure] at h
    cases h
  rw [hmeasure] at h
  dsimp only at h
  refine ⟨s₁, run, rfl, ?_⟩
  by_cases hclean : run.clean = true
  · rw [if_pos hclean] at h
    cases h
    exact .inl ⟨none, rfl, rfl, rfl, iff_of_true rfl hclean⟩
  rw [if_neg hclean] at h
  by_cases hrepeated : repeated = true
  · rw [if_pos hrepeated] at h
    cases h
    exact .inl ⟨none, rfl, rfl, rfl, iff_of_false nofun hclean⟩
  rw [if_neg hrepeated] at h
  cases left with
  | zero =>
    cases h
    exact .inl ⟨none, rfl, rfl, rfl, iff_of_false nofun hclean⟩
  | succ left =>
    dsimp only at h
    rcases hrepair : repairNow s₁ runId actor nowUnix (turns attempt).repairing with ⟨s₂, (⟨kind, reason⟩ | _) | authored⟩
    · rw [hrepair] at h
      cases h
      obtain rfl := repairNow_refused hrepair
      exact .inl ⟨some (kind, reason), rfl, rfl, rfl, iff_of_false nofun hclean⟩
    · rw [hrepair] at h
      cases h
    · rw [hrepair] at h
      exact .inr ⟨left, authored, s₂, rfl, rfl, h⟩

def Listed (attempts : List Attempt) (taken : List Run) : Prop :=
  attempts.length = taken.length ∧ ∀ i entry run, attempts[i]? = some entry → taken[i]? = some run →
    entry.attempt = i + 1 ∧ entry.clean = run.clean ∧
      entry.failure = if run.clean then [] else repairBrief run.result

theorem Listed.snoc (h : Listed attempts taken) {run : Run} (hattempt : attempt = taken.length + 1) {entry : Attempt}
    (hentry : entry.attempt = attempt ∧ entry.clean = run.clean ∧
      entry.failure = if run.clean then [] else repairBrief run.result) :
    Listed (attempts ++ [entry]) (taken ++ [run]) := by
  refine ⟨by simp [h.1], fun i entry' run' hentry' hrun' ↦ ?_⟩
  by_cases hi : i < taken.length
  · rw [List.getElem?_append_left (h.1 ▸ hi)] at hentry'
    rw [List.getElem?_append_left hi] at hrun'
    exact h.2 i entry' run' hentry' hrun'
  · have hlast : ¬i < attempts.length := h.1 ▸ hi
    rw [List.getElem?_append_right (by omega), List.getElem?_singleton] at hrun' hentry'
    obtain ⟨hplace, hrun⟩ := Option.ite_none_right_eq_some.mp hrun'
    obtain ⟨-, hlisted⟩ := Option.ite_none_right_eq_some.mp hentry'
    cases hrun
    cases hlisted
    obtain rfl : i = taken.length := by omega
    exact ⟨hentry.1.trans hattempt, hentry.2⟩

/-- The state holds, for a run, the last of the measurements taken of a workspace, and what it was computed from. -/
def LastTaken (workspace : Files) (s : Orchestrator site) (runId : String) (taken : List Run) (run : Run) : Prop :=
  taken.getLast? = some run ∧ s.runs.get runId = some run ∧ ∃ shadow, s.shadows.get runId = some shadow ∧
    Measured site workspace run shadow

theorem iterateLoop_ends {left : ℕ} {repeated : Bool} {attempts' : List Attempt} {taken' : List Run}
    {stopped : Stopped}
    (h : iterateLoop shortDigest turns runId actor nowUnix left attempt repeated attempts taken s =
      (s', taken', .ok (stopped, attempts'))) (hattempt : attempt = taken.length + 1)
    (hlisted : Listed attempts taken) :
    Listed attempts' taken' ∧ taken'.length ≤ attempt + left ∧
      ∃ run, LastTaken s.workspace s' runId taken' run ∧ (stopped = .clean ↔ run.clean = true) := by
  induction left using Nat.strong_induction_on generalizing attempt repeated attempts taken s with
  | _ left ih =>
    obtain ⟨s₁, run, hmeasure, hends | ⟨left', authored, s₂, rfl, hrepair, hrest⟩⟩ := iterateLoop_turn h
    · obtain ⟨refused, rfl, rfl, rfl, hstopped⟩ := hends
      refine ⟨hlisted.snoc hattempt ⟨rfl, rfl, rfl⟩, by simp; omega, run, ⟨by simp, ?_⟩, hstopped⟩
      obtain ⟨_, _, _, _, _, -, hat, -, hmeasured⟩ := measure_effect (turns attempt).measuring s runId actor nowUnix
      rw [hmeasure] at hat hmeasured
      obtain ⟨hrun, shadow, hshadow, hsource⟩ := hmeasured run rfl
      refine ⟨?_, shadow, ?_, hsource⟩
      · rw [hat.runs, if_pos rfl, hrun]
      · rw [hat.shadows, if_pos rfl, hshadow]
    · have hworkspace : s₂.workspace = s.workspace := by
        have hrepaired := @repairNow_workspace site runId actor nowUnix s₁ (turns attempt).repairing
        obtain ⟨_, _, _, _, _, hs, -⟩ := measure_effect (turns attempt).measuring s runId actor nowUnix
        rw [hmeasure] at hs
        rw [hrepair] at hrepaired
        dsimp only at hs hrepaired
        rw [hrepaired, hs]
      obtain ⟨hlisted', hlength, run', hholds, hstopped⟩ :=
        ih left' (by omega) hrest (by simp [hattempt]) (hlisted.snoc hattempt ⟨rfl, rfl, rfl⟩)
      exact ⟨hlisted', by omega, run', hworkspace ▸ hholds, hstopped⟩

end Loop

/-- What a call that returns tells: of a run that is measured, and of its last measurement. -/
structure Reports (s s' : Orchestrator site) (runId : String) (maxAttempts : ℕ) (taken : List Run) (returned : Iterated) :
    Prop where
  budget : taken.length ≤ maxAttempts
  listed : Listed returned.attempts taken
  last : ∃ run, LastTaken s.workspace s' runId taken run ∧ run.status = .measured ∧ returned.status = .measured ∧
    returned.result = run.result ∧ returned.diff = run.diff ∧ returned.clean = run.clean ∧
    (returned.stopped = .clean ↔ run.clean = true)

theorem iterate_reports {shortDigest : String → String} {turns : ℕ → Turn} {env : Env} {decider : Option Decided}
    {s s' : Orchestrator site} {runId actor : String} {nowUnix : Number} {maxAttempts : ℕ} {taken : List Run}
    {returned : Iterated}
    (h : iterateAlone shortDigest turns env decider s runId actor nowUnix maxAttempts = (s', taken, .ok returned)) :
    Reports s s' runId maxAttempts taken returned := by
  unfold iterateAlone at h
  split at h
  · cases h
  next hpositive =>
    rcases hloop : iterateLoop shortDigest turns runId actor nowUnix (maxAttempts - 1) 1 false [] [] s with
      ⟨s₁, taken₁, e | ⟨stopped, attempts⟩⟩
    · rw [hloop] at h
      cases h
    rw [hloop] at h
    dsimp only at h
    obtain ⟨hlisted, hlength, run, hholds, hstopped⟩ := iterateLoop_ends hloop rfl ⟨rfl, by simp⟩
    rw [hholds.2.1] at h
    dsimp only at h
    split at h
    · cases h
    rw [Prod.mk.injEq, Prod.mk.injEq] at h
    obtain ⟨rfl, rfl, hreturned⟩ := h
    obtain ⟨confidence, -, rfl⟩ := map_ok.mp hreturned
    obtain ⟨shadow, -, hmeasured⟩ := hholds.2.2
    have hclean : decide (stopped = .clean) = run.clean := by
      rw [Bool.eq_iff_iff, decide_eq_true_eq]
      exact hstopped
    constructor
    · omega
    · exact hlisted
    · exact ⟨run, hholds, hmeasured.status_eq, hmeasured.status_eq, rfl, rfl, hclean, hstopped⟩

def repairing : Turn := ⟨.calm, authoring [("a.txt", "new")]⟩

def plannedUnchanged : Orchestrator Site.sample := Run.after step (sample oneFile) (planned "r1" [⟨"a.txt", "old"⟩])

theorem iterate_reports_repaired :
    ∃ s' taken returned, returned.stopped = .clean ∧ taken.length = 2 ∧
      iterateAlone id (fun _ ↦ repairing) .calm none plannedUnchanged "r1" "ada" (.ofRat 1) 3 = (s', taken, .ok returned) ∧
      Reports plannedUnchanged s' "r1" 3 taken returned := by
  have hends : ((iterateAlone id (fun _ ↦ repairing) .calm none plannedUnchanged "r1" "ada" (.ofRat 1) 3).2.1.length,
      (iterateAlone id (fun _ ↦ repairing) .calm none plannedUnchanged "r1" "ada" (.ofRat 1) 3).2.2.toOption.map
        Iterated.stopped) = (2, some .clean) := by decide +kernel
  rcases h : iterateAlone id (fun _ ↦ repairing) .calm none plannedUnchanged "r1" "ada" (.ofRat 1) 3 with
    ⟨s', taken, e | returned⟩
  · rw [h, Prod.mk.injEq] at hends
    cases hends.2
  · rw [h, Prod.mk.injEq] at hends
    exact ⟨s', taken, returned, Option.some.inj hends.2, hends.1, rfl, iterate_reports h⟩

section Alone

/-- The calls that wait in an iteration go on, turn after turn, with nothing else in between. -/
def resumptions (turns : ℕ → Turn) : ℕ → ℕ → List Command
  | 0, _ => []
  | left + 1, attempt => .resume 0 (turns attempt).repairing ::
      .resume 0 { (turns attempt).repairing with env := (turns (attempt + 1)).measuring } ::
      resumptions turns left (attempt + 1)

variable {s : Orchestrator site}

theorem step_resume_idle (hs : s.tasks = []) (index : ℕ) (reply : Reply) :
    step s (.resume index reply) = s := by
  rw [step, hs]
  rfl

theorem after_resumptions (hs : s.tasks = []) (turns : ℕ → Turn) (left attempt : ℕ) :
    Run.after step s (resumptions turns left attempt) = s := by
  induction left generalizing attempt with
  | zero => rfl
  | succ left ih => rw [resumptions, Run.after_cons, step_resume_idle hs, Run.after_cons, step_resume_idle hs, ih]

theorem step_resume_wait (hs : s.tasks = []) (task : Task) (reply : Reply) :
    step (s.wait task) (.resume 0 reply) = (finish s task reply).1 := by
  obtain ⟨workspace, minter, runs, shadows, tasks⟩ := s
  subst hs
  rfl

variable {shortDigest : String → String} {turns : ℕ → Turn} {runId actor : String} {nowUnix : Number}

theorem finishRepair_cases (s : Orchestrator site) (brief : List String) (reply : Reply) :
    (∃ s' e, s'.tasks = s.tasks ∧ ∀ iteration, finishRepair s runId actor nowUnix brief iteration reply = (s', .error e)) ∨
    ∃ s' authored, s'.tasks = s.tasks ∧ reply.authored = .ok authored ∧
      finishRepair s runId actor nowUnix brief none reply = (s', .ok ()) ∧
      ∀ next : Iteration, finishRepair s runId actor nowUnix brief (some next) reply =
        (s'.wait (.iterating runId actor nowUnix { next with repeated := authored.novelty = .repeated }), .ok ()) := by
  unfold finishRepair
  cases hauthored : reply.authored with
  | error e => exact .inl ⟨s, e, rfl, fun _ ↦ rfl⟩
  | ok authored =>
    cases s.runs.get runId with
    | none => exact .inl ⟨s, .failed, rfl, fun _ ↦ rfl⟩
    | some run =>
      dsimp only
      by_cases hbegun : reply.env.recordFails 0 = true
      · simp only [hbegun, if_true]
        exact .inl ⟨s, .failed, rfl, fun _ ↦ rfl⟩
      by_cases hdone : reply.env.recordFails 1 = true
      · simp only [hbegun, hdone, Bool.false_eq_true, if_false, if_true]
        exact .inl ⟨(s.dropShadow runId).setRun runId (repairedRun run brief authored), .failed, rfl, fun _ ↦ rfl⟩
      · simp only [hbegun, hdone, Bool.false_eq_true, if_false]
        exact .inr ⟨(s.dropShadow runId).setRun runId (repairedRun run brief authored), authored, rfl, rfl, rfl,
          fun _ ↦ rfl⟩

theorem after_iterateTurn {left n : ℕ} {repeated : Bool} {attempts : List Attempt} {taken : List Run}
    {s : Orchestrator site} (hs : s.tasks = []) :
    Run.after step (iterateTurn (turns (n + 1)).measuring s runId actor nowUnix ⟨n, n + 1 + left, repeated⟩).1
        (resumptions turns left (n + 1)) =
      (iterateLoop shortDigest turns runId actor nowUnix left (n + 1) repeated attempts taken s).1 := by
  induction left generalizing n repeated attempts taken s with
  | zero =>
    unfold iterateTurn iterateLoop
    rcases measure (turns (n + 1)).measuring s runId actor nowUnix with ⟨s₁, e | run⟩
    · rfl
    · have hlast : n + 1 + 0 ≤ n + 1 := le_rfl
      simp only [hlast, decide_true, Bool.or_true, if_true]
      dsimp only [resumptions, Run.after_nil]
      split_ifs
      · rfl
      · rfl
      · rfl
  | succ left ih =>
    obtain ⟨_, _, _, _, _, htasks, -⟩ := measure_effect (turns (n + 1)).measuring s runId actor nowUnix
    unfold iterateTurn iterateLoop
    rcases hmeasure : measure (turns (n + 1)).measuring s runId actor nowUnix with ⟨s₁, e | run⟩
    · rw [hmeasure] at htasks
      exact after_resumptions ((congrArg Orchestrator.tasks htasks).trans hs) turns _ _
    rw [hmeasure] at htasks
    have hs₁ : s₁.tasks = [] := (congrArg Orchestrator.tasks htasks).trans hs
    have hmore : ¬n + 1 + (left + 1) ≤ n + 1 := by omega
    simp only [hmore, decide_false, Bool.or_false, Bool.or_eq_true]
    by_cases hclean : run.clean = true
    · simp only [hclean, true_or, if_true]
      exact after_resumptions hs₁ turns _ _
    by_cases hrepeated : repeated = true
    · simp only [hclean, hrepeated, or_true, if_true]
      exact after_resumptions hs₁ turns _ _
    simp only [hclean, hrepeated, or_self, Bool.false_eq_true, if_false]
    unfold repair repairNow
    cases hcheck : checkRepair s₁ runId actor with
    | error e =>
      dsimp only
      rw [after_resumptions hs₁]
      cases e <;> rfl
    | ok brief =>
      dsimp only
      rw [resumptions, Run.after_cons, step_resume_wait hs₁, finish]
      rcases @finishRepair_cases site runId actor nowUnix s₁ brief (turns (n + 1)).repairing with
        ⟨s₂, e, htasks, hends⟩ | ⟨s₂, authored, htasks, hauthored, hends, hnext⟩
      · rw [hends, hends]
        dsimp only [Except.bind]
        rw [Run.after_cons, step_resume_idle (htasks.trans hs₁), after_resumptions (htasks.trans hs₁)]
        cases e <;> rfl
      · rw [hnext, hends]
        dsimp only [Except.bind]
        rw [Run.after_cons, step_resume_wait (htasks.trans hs₁), finish, hauthored]
        have hallowed : n + 1 + (left + 1) = n + 1 + 1 + left := by omega
        rw [hallowed]
        exact ih (htasks.trans hs₁)

theorem after_iterate {env : Env} {decider : Option Decided} (hs : s.tasks = []) (maxAttempts : ℕ) :
    Run.after step s (.iterate (turns 1).measuring runId actor nowUnix maxAttempts ::
        resumptions turns (maxAttempts - 1) 1) =
      (iterateAlone shortDigest turns env decider s runId actor nowUnix maxAttempts).1 := by
  rw [Run.after_cons, step, iterate, iterateAlone]
  by_cases hpositive : maxAttempts < 1
  · rw [if_pos hpositive, if_pos hpositive]
    exact after_resumptions hs turns _ _
  rw [if_neg hpositive, if_neg hpositive]
  have hallowed : maxAttempts = 0 + 1 + (maxAttempts - 1) := by omega
  have hturns := @after_iterateTurn site shortDigest turns runId actor nowUnix (maxAttempts - 1) 0 false [] [] s hs
  rw [← hallowed] at hturns
  rw [hturns]
  rcases iterateLoop shortDigest turns runId actor nowUnix (maxAttempts - 1) (0 + 1) false [] [] s with
    ⟨s₁, taken, e | ⟨stopped, attempts⟩⟩
  · rfl
  · dsimp only
    cases s₁.runs.get runId with
    | none => rfl
    | some =>
      dsimp only
      split_ifs
      · rfl
      · rfl

end Alone

end Orchestrator

end Noesar.Workspace
