import Noesar.Lib.Pruning
import Noesar.Reasoning.Plans

namespace Noesar.Reasoning

open Lib Lib.Pruning

variable {L : Type} {policy : String} {plan : Plan L}

def Constrained.steps : Constrained (Plan L) → List (Step L)
  | refused _ => []
  | restricted plan _ => plan.steps

abbrev SafeSteps (policy : String) (S : Set (Step L)) : Prop := Safe Step.id Step.dependsOn (refuseStep policy) S

/-- A policy keeps the greatest safe part of a plan, as it was, and names the rest. -/
structure KeepsGreatest (plan : Plan L) (policy : String) (result : Constrained (Plan L)) : Prop where
  greatest : IsGreatest {S | S ⊆ {step | step ∈ plan.steps} ∧ SafeSteps policy S} {step | step ∈ result.steps}
  unchanged : result.steps.Sublist plan.steps
  removed : ∀ narrowed removed, result = .restricted narrowed removed → narrowed.constraints = plan.constraints ∧
    narrowed.mode = plan.mode ∧ removed = (plan.steps.map Step.id).filter (· ∉ narrowed.steps.map Step.id)
  refused : ∀ reason, result = .refused reason → reason = nothingLeft policy (plan.steps.map Step.id)
  again : ∀ narrowed removed, result = .restricted narrowed removed → constrain narrowed policy = .ok (.restricted narrowed [])

def Plan.unlimited (plan : Plan L) : Plan Empty := { plan with steps := plan.steps.map Step.unlimited }

variable {seen : List String}

theorem checkSteps_ordered {steps : List (Step L)} (h : checkSteps seen steps = .ok ()) :
    Ordered Step.id Step.dependsOn seen steps ∧ ∀ step ∈ steps, (Updates.trim step.id.toList).isEmpty = false := by
  induction steps generalizing seen with
  | nil => exact ⟨trivial, fun step hstep ↦ absurd hstep List.not_mem_nil⟩
  | cons step steps ih =>
    rw [checkSteps] at h
    split_ifs at h with hblank hseen
    cases hfind : step.dependsOn.find? (· ∉ seen) with
    | some =>
      rw [hfind] at h
      cases h
    | none =>
      rw [hfind] at h
      obtain ⟨hordered, hids⟩ := ih h
      refine ⟨⟨hseen, ?_, hordered⟩, List.forall_mem_cons.mpr ⟨by simpa using hblank, hids⟩⟩
      simpa using hfind

theorem checkSteps_of_ordered {steps : List (Step L)} (h : Ordered Step.id Step.dependsOn seen steps)
    (hids : ∀ step ∈ steps, (Updates.trim step.id.toList).isEmpty = false) : checkSteps seen steps = .ok () := by
  induction steps generalizing seen with
  | nil => rfl
  | cons step steps ih =>
    obtain ⟨hseen, hneeds, hordered⟩ := h
    obtain ⟨hid, hids⟩ := List.forall_mem_cons.mp hids
    have hfind : step.dependsOn.find? (· ∉ seen) = none := by simpa using hneeds
    rw [checkSteps, if_neg (by simp [hid]), if_neg hseen, hfind]
    exact ih hordered hids

theorem buildPlan_ok {steps : List (Step L)} {constraints : List String} {mode : String}
    (h : buildPlan steps constraints mode = .ok plan) : plan = ⟨steps, constraints, mode⟩ ∧ checkSteps [] steps = .ok () := by
  unfold buildPlan at h
  split_ifs at h
  cases hcheck : checkSteps [] steps with
  | error =>
    rw [hcheck] at h
    cases h
  | ok =>
    rw [hcheck] at h
    cases h
    exact ⟨rfl, rfl⟩

theorem constrainStep_eq : (constrainStep policy : List (Step L) × List String → Step L → List (Step L) × List String) =
    pruneStep Step.id Step.dependsOn (refuseStep policy) := by
  funext state step
  unfold constrainStep pruneStep
  by_cases hrefused : refuseStep policy step = true
  · rw [if_pos hrefused, if_pos (.inl hrefused)]
  · rw [if_neg hrefused]
    by_cases hneeds : ∃ k ∈ step.dependsOn, k ∈ state.2
    · rw [if_pos (by simpa using hneeds), if_pos (.inr hneeds)]
    · have hfilter : step.dependsOn.filter (· ∉ state.2) = step.dependsOn := by
        rw [List.filter_eq_self]
        exact fun k hk ↦ by simpa using fun hmem ↦ hneeds ⟨k, hk, hmem⟩
      have hnot : ¬(refuseStep policy step = true ∨ ∃ k ∈ step.dependsOn, k ∈ state.2) := not_or.mpr ⟨hrefused, hneeds⟩
      rw [if_neg (by simpa using hneeds), if_neg hnot, hfilter]

/-- What `constrain` keeps and removes. -/
def pruneSteps (policy : String) (steps : List (Step L)) : List (Step L) × List String :=
  prune Step.id Step.dependsOn (refuseStep policy) steps

theorem constrain_eq (hordered : Ordered Step.id Step.dependsOn [] plan.steps)
    (hids : ∀ step ∈ plan.steps, (Updates.trim step.id.toList).isEmpty = false) (policy : String) :
    constrain plan policy = .ok (if (pruneSteps policy plan.steps).1 = [] then
        .refused (nothingLeft policy (pruneSteps policy plan.steps).2)
      else .restricted ⟨(pruneSteps policy plan.steps).1, plan.constraints, plan.mode⟩ (pruneSteps policy plan.steps).2) := by
  have hpruned := @pruned _ _ _ Step.id Step.dependsOn (refuseStep policy) plan.steps hordered
  have hcheck : checkSteps [] (pruneSteps policy plan.steps).1 = .ok () :=
    checkSteps_of_ordered (kept_ordered hordered) fun step hstep ↦ hids step (hpruned.mem_kept.mp hstep).1
  have hpass : plan.steps.foldl (constrainStep policy) ([], []) = pruneSteps policy plan.steps := by
    rw [constrainStep_eq]
    rfl
  unfold constrain
  rw [hpass]
  dsimp only
  split_ifs with hempty
  · rfl
  · rw [buildPlan, if_neg hempty, hcheck]
    rfl

theorem keeps_greatest (hordered : Ordered Step.id Step.dependsOn [] plan.steps)
    (hids : ∀ step ∈ plan.steps, (Updates.trim step.id.toList).isEmpty = false) {result : Constrained (Plan L)}
    (h : constrain plan policy = .ok result) :
    result.steps = (pruneSteps policy plan.steps).1 ∧ KeepsGreatest plan policy result := by
  have hpruned := @pruned _ _ _ Step.id Step.dependsOn (refuseStep policy) plan.steps hordered
  have hremoved := @removed_eq _ _ _ Step.id Step.dependsOn (refuseStep policy) plan.steps hordered
  have hgreatest := @isGreatest_kept _ _ _ Step.id Step.dependsOn (refuseStep policy) plan.steps hordered
  have hkept := @kept_ordered _ _ _ Step.id Step.dependsOn (refuseStep policy) plan.steps hordered
  have hsub : (pruneSteps policy plan.steps).1.Sublist plan.steps := by
    rw [pruneSteps, hpruned.kept]
    exact List.filter_sublist
  rw [constrain_eq hordered hids] at h
  have hsteps : result.steps = (pruneSteps policy plan.steps).1 := by
    split_ifs at h with hempty
    · cases h
      exact hempty.symm
    · cases h
      rfl
  refine ⟨hsteps, hsteps ▸ hgreatest, hsteps ▸ hsub, ?_, ?_, ?_⟩
  · rintro narrowed removed rfl
    split_ifs at h
    · cases h
    · cases h
      exact ⟨rfl, rfl, hremoved⟩
  · rintro reason rfl
    split_ifs at h with hempty
    · cases h
      have hall : (pruneSteps policy plan.steps).2 = plan.steps.map Step.id := by
        have hnone := hremoved
        change (pruneSteps policy plan.steps).2 = (plan.steps.map Step.id).filter
          (· ∉ (pruneSteps policy plan.steps).1.map Step.id) at hnone
        rw [hempty] at hnone
        simpa using hnone
      rw [hall]
    · cases h
  · rintro narrowed removed rfl
    split_ifs at h with hempty
    · cases h
    · cases h
      have haccepted : ∀ step ∈ (pruneSteps policy plan.steps).1, refuseStep policy step = false :=
        fun step hstep ↦ (hpruned.safe step hstep).1
      have hagain : pruneSteps policy (pruneSteps policy plan.steps).1 = ((pruneSteps policy plan.steps).1, []) :=
        prune_of_accepted haccepted
      rw [constrain_eq hkept fun step hstep ↦ hids step (hsub.subset hstep)]
      dsimp only
      rw [hagain, if_neg hempty]

theorem Rust.checkSteps_ordered {steps : List (Step Empty)} (h : Rust.checkSteps seen steps = .ok ()) :
    Ordered Step.id Step.dependsOn seen steps ∧ ∀ step ∈ steps, step.id.toList.all Rust.isWhitespace = false := by
  induction steps generalizing seen with
  | nil => exact ⟨trivial, fun step hstep ↦ absurd hstep List.not_mem_nil⟩
  | cons step steps ih =>
    rw [Rust.checkSteps] at h
    split_ifs at h with hblank hseen
    cases hfind : step.dependsOn.find? (· ∉ seen) with
    | some =>
      rw [hfind] at h
      cases h
    | none =>
      rw [hfind] at h
      obtain ⟨hordered, hids⟩ := ih h
      refine ⟨⟨hseen, ?_, hordered⟩, List.forall_mem_cons.mpr ⟨by simpa using hblank, hids⟩⟩
      simpa using hfind

theorem Rust.checkSteps_of_ordered {steps : List (Step Empty)} (h : Ordered Step.id Step.dependsOn seen steps)
    (hids : ∀ step ∈ steps, step.id.toList.all Rust.isWhitespace = false) :
    Rust.checkSteps seen steps = .ok () := by
  induction steps generalizing seen with
  | nil => rfl
  | cons step steps ih =>
    obtain ⟨hseen, hneeds, hordered⟩ := h
    obtain ⟨hid, hids⟩ := List.forall_mem_cons.mp hids
    have hfind : step.dependsOn.find? (· ∉ seen) = none := by simpa using hneeds
    rw [Rust.checkSteps, if_neg (by simp [hid]), if_neg hseen, hfind]
    exact ih hordered hids

theorem unlimited_pruneSteps (policy : String) (steps : List (Step L)) :
    pruneSteps policy (steps.map Step.unlimited) =
      ((pruneSteps policy steps).1.map Step.unlimited, (pruneSteps policy steps).2) := by
  have hgeneral (state : List (Step L) × List String) :
      (steps.map Step.unlimited).foldl (pruneStep Step.id Step.dependsOn (refuseStep policy))
        (state.1.map Step.unlimited, state.2) =
      ((steps.foldl (pruneStep Step.id Step.dependsOn (refuseStep policy)) state).1.map Step.unlimited,
        (steps.foldl (pruneStep Step.id Step.dependsOn (refuseStep policy)) state).2) := by
    induction steps generalizing state with
    | nil => rfl
    | cons step steps ih =>
      rw [List.map_cons, List.foldl_cons, List.foldl_cons, ← ih]
      congr 1
      unfold pruneStep
      by_cases hremove : refuseStep policy step = true ∨ ∃ k ∈ step.dependsOn, k ∈ state.2
      · rw [if_pos hremove]
        exact if_pos hremove
      · rw [if_neg hremove, List.map_append]
        exact if_neg hremove
  exact hgeneral ([], [])

theorem Rust.constrain_eq (plan : Rust.Plan) (policy : String) :
    ∃ result, Rust.constrain plan policy = .ok result ∧ result.map Rust.Plan.toPlan =
      if (pruneSteps policy plan.steps).1 = [] then .refused (nothingLeft policy (pruneSteps policy plan.steps).2)
      else .restricted ⟨(pruneSteps policy plan.steps).1, plan.constraints, plan.mode⟩ (pruneSteps policy plan.steps).2 := by
  obtain ⟨hordered, hids⟩ := Rust.checkSteps_ordered plan.checked
  have hpruned := @pruned _ _ _ Step.id Step.dependsOn (refuseStep policy) plan.steps hordered
  have hcheck : Rust.checkSteps [] (pruneSteps policy plan.steps).1 = .ok () :=
    Rust.checkSteps_of_ordered (kept_ordered hordered) fun step hstep ↦ hids step (hpruned.mem_kept.mp hstep).1
  have hpass : plan.steps.foldl (Rust.constrainStep policy) ([], []) = pruneSteps policy plan.steps := by
    have hstep : Rust.constrainStep policy = pruneStep Step.id Step.dependsOn (refuseStep policy) :=
      constrainStep_eq (L := Empty)
    rw [hstep]
    rfl
  unfold Rust.constrain
  rw [hpass]
  dsimp only
  by_cases hempty : (pruneSteps policy plan.steps).1 = []
  · rw [if_pos hempty, if_pos hempty]
    exact ⟨_, rfl, rfl⟩
  · rw [if_neg hempty, if_neg hempty, Rust.Plan.tryNew, dif_neg hempty]
    split
    next herror => cases hcheck.symm.trans herror
    next => exact ⟨_, rfl, rfl⟩

/-- Every policy keeps the greatest safe part of a plan, `permissive` no less than any other, and the crate
the same. -/
theorem constrain_keeps_greatest (plan : Plan L) (policy : String)
    (h : buildPlan plan.steps plan.constraints plan.mode = .ok plan) :
    ∃ result, constrain plan policy = .ok result ∧ KeepsGreatest plan policy result ∧
      (∃ permissive, constrain plan "permissive" = .ok permissive ∧ ∀ step ∈ result.steps, step ∈ permissive.steps) ∧
      ∀ plan' : Rust.Plan, plan'.toPlan = plan.unlimited → ∃ result', Rust.constrain plan' policy = .ok result' ∧
        result'.map Rust.Plan.toPlan = result.map Plan.unlimited := by
  obtain ⟨-, hcheck⟩ := buildPlan_ok h
  obtain ⟨hordered, hids⟩ := checkSteps_ordered hcheck
  have hresult := constrain_eq hordered hids policy
  have hpermissive := constrain_eq hordered hids "permissive"
  obtain ⟨hsteps, hkeeps⟩ := keeps_greatest hordered hids hresult
  refine ⟨_, hresult, hkeeps, ⟨_, hpermissive, ?_⟩, ?_⟩
  · intro step hstep
    rw [hsteps] at hstep
    rw [(keeps_greatest hordered hids hpermissive).1]
    refine kept_mono hordered ?_ hstep
    intro step hrefused
    unfold refuseStep at hrefused ⊢
    simp only [ne_eq, not_true_eq_false, decide_false, Bool.false_and, Bool.or_false] at hrefused
    rw [hrefused]
    rfl
  · intro plan' hplan
    obtain ⟨result', hrust, hread⟩ := Rust.constrain_eq plan' policy
    refine ⟨result', hrust, ?_⟩
    rw [hread, hplan]
    have hsame := unlimited_pruneSteps policy plan.steps
    change pruneSteps policy plan.unlimited.steps = _ at hsame
    rw [hsame]
    dsimp only
    by_cases hempty : (pruneSteps policy plan.steps).1 = []
    · rw [if_pos hempty, if_pos (by rw [hempty]; rfl)]
      rfl
    · rw [if_neg hempty, if_neg (by simpa using hempty)]
      rfl

def outsidePlan : Plan Empty :=
  ⟨[⟨"a", "", [], [], [], ⟨⟨false, true, none⟩, []⟩⟩, ⟨"b", "", [], [], ["a"], ⟨⟨false, false, none⟩, []⟩⟩,
    ⟨"c", "", [], [], [], ⟨⟨true, false, none⟩, []⟩⟩], [], "safe"⟩

theorem constrain_keeps_greatest_outside : ∃ result, constrain outsidePlan "permissive" = .ok result ∧
    KeepsGreatest outsidePlan "permissive" result := by
  obtain ⟨result, hresult, hkeeps, -⟩ := constrain_keeps_greatest outsidePlan "permissive" rfl
  exact ⟨result, hresult, hkeeps⟩

end Noesar.Reasoning
