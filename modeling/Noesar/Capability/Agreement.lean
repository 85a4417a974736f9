import Noesar.Capability.Rust
import Noesar.Capability.Ids

namespace Noesar.Capability

open Lib Lib.Framing Lib.PosixPath

/-- What a call is answered with, as far as both sides name it: nothing where it is let
through, and the kind of the error. -/
def decision {α : Type} : Except Refusal α → Option ErrorKind
  | .ok _ => none
  | .error refusal => some refusal.kind

section

variable {α β : Type}

variable {f : Unit → Except Refusal β} {ok : α → Bool} {xs : List α}

theorem decision_require {ok : Bool} {refusal : Refusal} :
    decision (require ok refusal >>= f) = if ok then decision (f ()) else some refusal.kind := by
  cases ok with
  | true => rfl
  | false => rfl

theorem decision_requireAll {refusal : α → Refusal} {kind : ErrorKind} (hkind : ∀ x, (refusal x).kind = kind) :
    decision (requireAll ok refusal xs >>= f) = if xs.all ok then decision (f ()) else some kind := by
  unfold requireAll
  split
  next hnone =>
    have hall : xs.all ok = true := by
      rw [List.all_eq_true]
      simpa using hnone
    rw [if_pos hall]
    rfl
  next x hsome =>
    have hnot : ¬ xs.all ok = true := by
      intro hall
      have hx := List.find?_some hsome
      rw [List.all_eq_true.mp hall x (List.mem_of_find?_eq_some hsome)] at hx
      cases hx
    rw [if_neg hnot]
    exact congrArg some (hkind x)

theorem decision_requireAll_outOfScope {text : α → String} :
    decision (requireAll ok (fun x ↦ outOfScope (text x)) xs >>= f) =
      if xs.all ok then decision (f ()) else some .outOfScope := by
  apply decision_requireAll
  intro x
  rfl

theorem decision_requireAll_invalid {text : α → String} :
    decision (requireAll ok (fun x ↦ Js.invalid (text x)) xs >>= f) =
      if xs.all ok then decision (f ()) else some .invalid := by
  apply decision_requireAll
  intro x
  rfl

end

def Reads (n : Number) (z : ℤ) : Prop := ∃ x : Binary64, n = .finite x ∧ x.val = z

theorem Reads.lt {n m : Number} {z w : ℤ} (hn : Reads n z) (hm : Reads m w) : n.lt m = decide (z < w) := by
  obtain ⟨x, rfl, hx⟩ := hn
  obtain ⟨y, rfl, hy⟩ := hm
  simp [Number.lt, Number.position, hx, hy]

theorem Reads.le {n m : Number} {z w : ℤ} (hn : Reads n z) (hm : Reads m w) : n.le m = decide (z ≤ w) := by
  obtain ⟨x, rfl, hx⟩ := hn
  obtain ⟨y, rfl, hy⟩ := hm
  simp [Number.le, Number.position, hx, hy]

def Step.unlimited {L : Type} (step : Step L) : Step Empty :=
  { step with blastRadius := ⟨step.blastRadius.destructive, step.blastRadius.reachesOutsideWorkspace, none⟩ }

def Plan.unlimited {L : Type} (plan : Plan L) : Plan Empty := { plan with steps := plan.steps.map Step.unlimited }

structure SameApproval (a : Approval Number) (b : Approval Int64) : Prop where
  approverId : a.approverId = b.approverId
  grantedAtUnix : Reads a.grantedAtUnix b.grantedAtUnix.toInt
  expiresAtUnix : Reads a.expiresAtUnix b.expiresAtUnix.toInt

def Rust.Operation.name : Rust.Operation → String
  | read => "READ"
  | write => "WRITE"
  | delete => "DELETE"
  | execute => "EXECUTE"

/-- One request without limits, in the two representations. -/
structure SameRequest (a : Request String Number Number RawLimits)
    (b : Request Rust.Operation Int64 UInt32 Limits) : Prop where
  stepId : a.stepId = b.stepId
  paths : a.paths = b.paths
  operations : a.operations = b.operations.map Rust.Operation.name
  uses : Reads a.uses b.uses.toNat
  expiresAtUnix : Reads a.expiresAtUnix b.expiresAtUnix.toInt
  noLimits : a.limits = none ∧ b.limits = none

def answer (nonempty usable inFiles declared inside contained live within : Bool) : Option ErrorKind :=
  if nonempty then
    if usable then
      if inFiles then
        if declared then
          if inside then
            if contained then
              if live then
                if within then none else some .outOfScope
              else some .invalid
            else some .outOfScope
          else some .outOfScope
        else some .outOfScope
      else some .outOfScope
    else some .invalid
  else some .invalid

theorem answer_eq_iff (nonempty usable inFiles declared inside contained contained' live within : Bool) :
    answer nonempty usable inFiles declared inside contained live within =
      answer nonempty usable inFiles declared inside contained' live within ↔
    (nonempty && usable && inFiles && declared && inside) = false ∨ contained = contained' ∨
      live = true ∧ within = false := by
  revert nonempty usable inFiles declared inside contained contained' live within
  decide

variable {host : Host}

variable {nowUnix : Number} {a : Request String Number Number RawLimits}
  {b : Request Rust.Operation Int64 UInt32 Limits} {L : Type} {plan : Plan L}

theorem Js.decision_accept {authorized : AuthorizedPlan host Number RawLimits}
    {request : Request String Number Number RawLimits} {step : Step RawLimits}
    (hfind : authorized.plan.steps.find? (fun candidate ↦ candidate.id = request.stepId) = some step)
    (hknown : ∀ o ∈ request.operations, o ∈ Js.operations) (hlimits : request.limits = none) :
    decision (Js.accept none authorized request nowUnix) =
      answer (!request.paths.isEmpty && !request.operations.isEmpty) (Number.zero.lt request.uses)
        (request.paths.all (· ∈ step.files))
        (step.blastRadius.destructive || !request.operations.any (· ∈ Js.destructive))
        (!step.blastRadius.reachesOutsideWorkspace) (request.paths.all fun path ↦ !Js.leavesWorkspace path)
        (!request.expiresAtUnix.le nowUnix) (!authorized.approval.expiresAtUnix.lt request.expiresAtUnix) := by
  have hall : request.operations.all (fun operation ↦ operation ∈ Js.operations) = true := by
    rw [List.all_eq_true]
    intro o ho
    exact decide_eq_true (hknown o ho)
  unfold Js.accept
  rw [hfind]
  dsimp only
  rw [decision_require, decision_require, decision_requireAll_invalid, decision_requireAll_outOfScope,
    decision_require, decision_require, decision_requireAll_outOfScope, decision_require, decision_require,
    if_pos hall, hlimits]
  have htail : (do
      let limits ← Isolation.parseLimits host none
      Js.acceptLimits host none step request.operations limits
      pure limits) = Except.ok none := by
    simp [Isolation.parseLimits, Js.acceptLimits, require, bind, Except.bind, pure, Except.pure]
  rw [htail]
  rfl

theorem Rust.decision_accept {authorized : AuthorizedPlan host Int64 Empty}
    {request : Request Rust.Operation Int64 UInt32 Limits} {nowUnix : Int64} {step : Step Empty}
    (hfind : authorized.plan.steps.find? (fun candidate ↦ candidate.id = request.stepId) = some step) :
    decision (Rust.accept none authorized request nowUnix) =
      answer (!request.paths.isEmpty && !request.operations.isEmpty) (request.uses ≠ 0)
        (request.paths.all (· ∈ step.files))
        (step.blastRadius.destructive || !request.operations.any Rust.Operation.isDestructive)
        (!step.blastRadius.reachesOutsideWorkspace) (request.paths.all fun path ↦ !Rust.escapes path)
        (nowUnix < request.expiresAtUnix) (request.expiresAtUnix ≤ authorized.approval.expiresAtUnix) := by
  unfold Rust.accept
  rw [hfind]
  dsimp only
  rw [decision_require, decision_require, decision_requireAll_outOfScope, decision_require, decision_require,
    decision_requireAll_outOfScope, decision_require, decision_require]
  rfl

theorem Reads.zero : Reads Number.zero 0 := ⟨_, rfl, by norm_num⟩

theorem SameRequest.destructive (h : SameRequest a b) :
    a.operations.any (· ∈ Js.destructive) = b.operations.any Rust.Operation.isDestructive := by
  rw [h.operations, List.any_map]
  congr 1
  funext operation
  cases operation with
  | read | write | delete | execute => rfl

theorem SameRequest.known (h : SameRequest a b) :
    ∀ o ∈ a.operations, o ∈ Js.operations := by
  intro o ho
  rw [h.operations] at ho
  obtain ⟨operation, -, rfl⟩ := List.mem_map.mp ho
  cases operation with
  | read | write | delete | execute => decide

theorem SameRequest.usable (h : SameRequest a b) :
    Number.zero.lt a.uses = decide (b.uses ≠ 0) := by
  rw [Reads.zero.lt h.uses]
  apply decide_eq_decide.mpr
  rw [Ne, ← UInt32.toNat_inj]
  simp
  omega

theorem Plan.unlimited_find? (plan : Plan L) (stepId : String) :
    plan.unlimited.steps.find? (fun candidate ↦ candidate.id = stepId) =
      (plan.steps.find? fun candidate ↦ candidate.id = stepId).map Step.unlimited := by
  unfold Plan.unlimited
  rw [List.find?_map]
  rfl

def Covers {L : Type} (step : Step L) (request : Request Rust.Operation Int64 UInt32 Limits) : Prop :=
  (request.paths ≠ [] ∧ request.operations ≠ []) ∧ request.uses ≠ 0 ∧ (∀ path ∈ request.paths, path ∈ step.files) ∧
    (step.blastRadius.destructive = true ∨ ∀ operation ∈ request.operations, operation.isDestructive = false) ∧
    step.blastRadius.reachesOutsideWorkspace = false

def Outside (path : String) : Prop := isAbsolute path = true ∨ [':', '\\'] <:+: path.toList

def Climbs (path : String) : Prop := ".." ∈ segments path

def ClimbsNormalized (path : String) : Prop := ∃ seg ∈ normalize path, ".." ∈ splitOn (· = '\\') seg

theorem Rust.escapes_iff (path : String) : Rust.escapes path = true ↔ Outside path ∨ Climbs path := by
  unfold Rust.escapes Outside Climbs
  simp only [Bool.or_eq_true, decide_eq_true_eq]
  tauto

theorem Js.leavesWorkspace_iff (path : String) :
    Js.leavesWorkspace path = true ↔ Outside path ∨ ClimbsNormalized path := by
  unfold Js.leavesWorkspace Outside ClimbsNormalized
  simp only [Bool.or_eq_true, decide_eq_true_eq, List.any_eq_true]
  rw [or_right_comm]

theorem all_clear_iff {leaves : String → Bool} {climbs : String → Prop}
    (h : ∀ path, leaves path = true ↔ Outside path ∨ climbs path) {paths : List String} :
    (paths.all fun path ↦ !leaves path) = true ↔
      ¬ ((∃ path ∈ paths, Outside path) ∨ ∃ path ∈ paths, climbs path) := by
  rw [← exists_or, List.all_eq_true, not_exists]
  apply forall_congr'
  intro path
  rw [Bool.not_eq_true', ← Bool.not_eq_true, h path, ← and_or_left, not_and]

def ReadAlike (paths : List String) : Prop :=
  (∃ path ∈ paths, Outside path) ∨ ((∃ path ∈ paths, ClimbsNormalized path) ↔ ∃ path ∈ paths, Climbs path)

theorem readAlike_iff (paths : List String) :
    (paths.all fun path ↦ !Js.leavesWorkspace path) = (paths.all fun path ↦ !Rust.escapes path) ↔
      ReadAlike paths := by
  rw [Bool.eq_iff_iff, all_clear_iff Js.leavesWorkspace_iff, all_clear_iff Rust.escapes_iff]
  unfold ReadAlike
  generalize (∃ path ∈ paths, Outside path) = outside
  generalize (∃ path ∈ paths, Climbs path) = climbs
  generalize (∃ path ∈ paths, ClimbsNormalized path) = climbsNormalized
  tauto

theorem accept_alike_iff {authorized : AuthorizedPlan host Number RawLimits}
    {authorized' : AuthorizedPlan host Int64 Empty} (hplan : authorized'.plan = authorized.plan.unlimited)
    (happroval : SameApproval authorized.approval authorized'.approval)
    {request : Request String Number Number RawLimits} {request' : Request Rust.Operation Int64 UInt32 Limits}
    (hrequest : SameRequest request request') {nowUnix' : Int64} (hnow : Reads nowUnix nowUnix'.toInt) :
    decision (Js.accept none authorized request nowUnix) = decision (Rust.accept none authorized' request' nowUnix') ↔
      ∀ step, authorized.plan.steps.find? (fun candidate ↦ candidate.id = request'.stepId) = some step →
        Covers step request' → ReadAlike request'.paths ∨
          nowUnix' < request'.expiresAtUnix ∧ authorized'.approval.expiresAtUnix < request'.expiresAtUnix := by
  have hfind' := authorized.plan.unlimited_find? request'.stepId
  rw [← hplan] at hfind'
  cases hfind : authorized.plan.steps.find? (fun candidate ↦ candidate.id = request'.stepId) with
  | none =>
    -- neither side finds the step, and both name it in the same refusal
    rw [hfind] at hfind'
    constructor
    · intro _ step hstep
      cases hstep
    · intro _
      unfold Js.accept Rust.accept
      rw [hrequest.stepId, hfind, hfind']
      rfl
  | some step =>
    rw [hfind] at hfind'
    rw [Js.decision_accept (by rw [hrequest.stepId]; exact hfind) hrequest.known hrequest.noLimits.1,
      Rust.decision_accept hfind']
    have hempty : request.operations.isEmpty = request'.operations.isEmpty := by
      rw [hrequest.operations, List.isEmpty_map]
    have hlive : (!request.expiresAtUnix.le nowUnix) = decide (nowUnix' < request'.expiresAtUnix) := by
      rw [hrequest.expiresAtUnix.le hnow, ← decide_not]
      apply decide_eq_decide.mpr
      rw [Int64.lt_iff_toInt_lt, not_le]
    have hwithin : (!authorized.approval.expiresAtUnix.lt request.expiresAtUnix) =
        decide (request'.expiresAtUnix ≤ authorized'.approval.expiresAtUnix) := by
      rw [happroval.expiresAtUnix.lt hrequest.expiresAtUnix, ← decide_not]
      apply decide_eq_decide.mpr
      rw [Int64.le_iff_toInt_le, not_lt]
    have hfiles : (Step.unlimited step).files = step.files := rfl
    have hradius : (Step.unlimited step).blastRadius.destructive = step.blastRadius.destructive ∧
        (Step.unlimited step).blastRadius.reachesOutsideWorkspace = step.blastRadius.reachesOutsideWorkspace :=
      ⟨rfl, rfl⟩
    rw [hempty, hrequest.paths, hrequest.usable, hrequest.destructive, hlive, hwithin, hfiles, hradius.1,
      hradius.2, answer_eq_iff, readAlike_iff]
    have hcovers : (!request'.paths.isEmpty && !request'.operations.isEmpty && decide (request'.uses ≠ 0) &&
        request'.paths.all (· ∈ step.files) &&
        (step.blastRadius.destructive || !request'.operations.any Rust.Operation.isDestructive) &&
        !step.blastRadius.reachesOutsideWorkspace) = false ↔ ¬ Covers step request' := by
      rw [← Bool.not_eq_true, not_iff_not]
      unfold Covers
      simp [and_assoc]
    rw [hcovers, decide_eq_true_eq, decide_eq_false_iff_not, Int64.not_le]
    simp only [Option.some.injEq, forall_eq']
    tauto

theorem authorize_alike_iff (plan : Plan RawLimits) {approval : Approval Number} {approval' : Approval Int64}
    (happroval : SameApproval approval approval') {nowUnix' : Int64} (hnow : Reads nowUnix nowUnix'.toInt) :
    decision (authorizePlan host plan approval nowUnix) =
        decision (Rust.tryAuthorize host plan.unlimited approval' nowUnix') ↔
      (approval'.grantedAtUnix < approval'.expiresAtUnix → nowUnix' < approval'.expiresAtUnix →
        approval'.approverId.toList.all isWhiteSpace = approval'.approverId.toList.all Rust.isWhitespace) := by
  unfold authorizePlan Rust.tryAuthorize
  rw [happroval.approverId, happroval.grantedAtUnix.lt happroval.expiresAtUnix, happroval.expiresAtUnix.le hnow]
  simp only [Int64.le_iff_toInt_le, Int64.lt_iff_toInt_lt, ← not_lt, Bool.not_eq_true', decide_eq_false_iff_not,
    decide_eq_true_eq]
  cases approval'.approverId.toList.all isWhiteSpace <;>
    cases approval'.approverId.toList.all Rust.isWhitespace <;>
    by_cases hgranted : approval'.grantedAtUnix.toInt < approval'.expiresAtUnix.toInt <;>
    by_cases hlapsed : nowUnix'.toInt < approval'.expiresAtUnix.toInt <;>
    simp [decision, notAuthorized, hgranted, hlapsed]

theorem decision_mint {D : Dialect host} (minter : TokenMinter D) (authorized : D.Authorized) (request : D.Asked)
    (nowUnix : D.Time) : decision (minter.mint authorized request nowUnix) =
      decision (D.accept minter.ceiling authorized request nowUnix) := by
  unfold TokenMinter.mint
  cases D.accept minter.ceiling authorized request nowUnix with
  | error | ok => rfl

theorem authorizePlan_ok {approval : Approval Number} {authorized : AuthorizedPlan host Number L}
    (h : authorizePlan host plan approval nowUnix = .ok authorized) :
    authorized.plan = plan ∧ authorized.approval = approval := by
  unfold authorizePlan at h
  split_ifs at h
  cases h
  exact ⟨rfl, rfl⟩

theorem Rust.tryAuthorize_ok_iff {approval : Approval Int64} {nowUnix : Int64} :
    (∃ authorized, Rust.tryAuthorize host plan approval nowUnix = .ok authorized) ↔
      approval.approverId.toList.all Rust.isWhitespace = false ∧ approval.grantedAtUnix < approval.expiresAtUnix ∧
        nowUnix < approval.expiresAtUnix := by
  unfold Rust.tryAuthorize
  constructor
  · rintro ⟨authorized, h⟩
    split_ifs at h with hblank hgranted hlapsed
    exact ⟨Bool.eq_false_of_not_eq_true hblank, Int64.not_le.mp hgranted, Int64.not_le.mp hlapsed⟩
  · rintro ⟨hblank, hgranted, hlapsed⟩
    rw [if_neg (Bool.not_eq_true _ ▸ hblank), if_neg (Int64.not_le.mpr hgranted), if_neg (Int64.not_le.mpr hlapsed)]
    exact ⟨_, rfl⟩

theorem Rust.tryAuthorize_ok {approval : Approval Int64} {nowUnix : Int64} {authorized : AuthorizedPlan host Int64 L}
    (h : Rust.tryAuthorize host plan approval nowUnix = .ok authorized) :
    authorized.plan = plan ∧ authorized.approval = approval := by
  unfold Rust.tryAuthorize at h
  split_ifs at h
  cases h
  exact ⟨rfl, rfl⟩

theorem isOk_of_decision {α β : Type} {x : Except Refusal α} {y : Except Refusal β} (h : decision x = decision y)
    {b : β} (hy : y = .ok b) : ∃ a, x = .ok a := by
  subst hy
  cases x with
  | error => cases h
  | ok a => exact ⟨a, rfl⟩

/-- Where the two minters decide alike: an approval that would stand has an approver
both sides take for blank or neither does, and a request that the step covers either
names paths both sides read alike or outlives the approval. -/
theorem minters_decide_alike_iff (plan : Plan RawLimits) {approval : Approval Number} {approval' : Approval Int64}
    (happroval : SameApproval approval approval') {authorizedAt : Number} {authorizedAt' : Int64}
    (hauthorizedAt : Reads authorizedAt authorizedAt'.toInt)
    {request : Request String Number Number RawLimits} {request' : Request Rust.Operation Int64 UInt32 Limits}
    (hrequest : SameRequest request request') {nowUnix : Number} {nowUnix' : Int64}
    (hnow : Reads nowUnix nowUnix'.toInt) (minter : TokenMinter (Js.dialect host))
    (minter' : TokenMinter (Rust.dialect host)) (hceiling : minter.ceiling = none) :
    (decision (authorizePlan host plan approval authorizedAt) =
        decision (Rust.tryAuthorize host plan.unlimited approval' authorizedAt') ∧
      ∀ authorized authorized', authorizePlan host plan approval authorizedAt = .ok authorized →
        Rust.tryAuthorize host plan.unlimited approval' authorizedAt' = .ok authorized' →
        decision (minter.mint authorized request nowUnix) = decision (minter'.mint authorized' request' nowUnix')) ↔
    (approval'.grantedAtUnix < approval'.expiresAtUnix → authorizedAt' < approval'.expiresAtUnix →
      approval'.approverId.toList.all isWhiteSpace = approval'.approverId.toList.all Rust.isWhitespace ∧
      (approval'.approverId.toList.all Rust.isWhitespace = false →
        ∀ step, plan.steps.find? (fun candidate ↦ candidate.id = request'.stepId) = some step →
          Covers step request' → ReadAlike request'.paths ∨
            nowUnix' < request'.expiresAtUnix ∧ approval'.expiresAtUnix < request'.expiresAtUnix)) := by
  have hmint : ∀ authorized authorized', authorizePlan host plan approval authorizedAt = .ok authorized →
      Rust.tryAuthorize host plan.unlimited approval' authorizedAt' = .ok authorized' →
      (decision (minter.mint authorized request nowUnix) = decision (minter'.mint authorized' request' nowUnix') ↔
        ∀ step, plan.steps.find? (fun candidate ↦ candidate.id = request'.stepId) = some step →
          Covers step request' → ReadAlike request'.paths ∨
            nowUnix' < request'.expiresAtUnix ∧ approval'.expiresAtUnix < request'.expiresAtUnix) := by
    intro authorized authorized' hjs hrust
    obtain ⟨hplan, heq⟩ := authorizePlan_ok hjs
    obtain ⟨hplan', heq'⟩ := Rust.tryAuthorize_ok hrust
    have hsame : SameApproval authorized.approval authorized'.approval := by
      rw [heq, heq']
      exact happroval
    have halike := accept_alike_iff (hplan'.trans (by rw [hplan])) hsame hrequest hnow
    rw [hplan, heq'] at halike
    have hmintJs : decision (minter.mint authorized request nowUnix) =
        decision (Js.accept none authorized request nowUnix) := by
      rw [← hceiling]
      exact decision_mint minter authorized request nowUnix
    have hmintRust : decision (minter'.mint authorized' request' nowUnix') =
        decision (Rust.accept none authorized' request' nowUnix') :=
      decision_mint minter' authorized' request' nowUnix'
    rw [hmintJs, hmintRust]
    exact halike
  rw [authorize_alike_iff plan happroval hauthorizedAt]
  constructor
  · rintro ⟨hblank, hboth⟩ hgranted hlapsed
    refine ⟨hblank hgranted hlapsed, ?_⟩
    intro hname
    obtain ⟨authorized', hrust⟩ := Rust.tryAuthorize_ok_iff.mpr ⟨hname, hgranted, hlapsed⟩
    obtain ⟨authorized, hjs⟩ := isOk_of_decision
      ((authorize_alike_iff plan happroval hauthorizedAt).mpr hblank) hrust
    exact (hmint authorized authorized' hjs hrust).mp (hboth authorized authorized' hjs hrust)
  · intro hall
    refine ⟨fun hgranted hlapsed ↦ (hall hgranted hlapsed).1, ?_⟩
    intro authorized authorized' hjs hrust
    obtain ⟨hname, hgranted, hlapsed⟩ := Rust.tryAuthorize_ok_iff.mp ⟨authorized', hrust⟩
    exact (hmint authorized authorized' hjs hrust).mpr ((hall hgranted hlapsed).2 hname)

section Sample

theorem Reads.ofRat {n : ℕ} (h : n ≤ 2 ^ 53) : Reads (.ofRat n) n := ⟨_, rfl, by exact_mod_cast round53_natCast h⟩

def pathPlan (path : String) : Plan RawLimits := ⟨"safe", [], [⟨"s1", "edit", [path], [], [], ⟨false, false, none⟩⟩]⟩

def Js.pathRequest (path : String) : Request String Number Number RawLimits :=
  ⟨"s1", [path], ["READ"], .ofRat (1 : ℕ), .ofRat (600 : ℕ), none⟩

def Rust.pathRequest (path : String) : Request Rust.Operation Int64 UInt32 Limits :=
  ⟨"s1", [path], [Rust.Operation.read], 1, 600, none⟩

def Js.ownerApproval : Approval Number := ⟨"owner", .ofRat (0 : ℕ), .ofRat (900 : ℕ)⟩

def Rust.ownerApproval : Approval Int64 := ⟨"owner", 0, 900⟩

theorem sameRequest_path (path : String) : SameRequest (Js.pathRequest path) (Rust.pathRequest path) where
  stepId := rfl
  paths := rfl
  operations := rfl
  uses := Reads.ofRat (by norm_num)
  expiresAtUnix := Reads.ofRat (by norm_num)
  noLimits := ⟨rfl, rfl⟩

theorem sameApproval_owner : SameApproval Js.ownerApproval Rust.ownerApproval where
  approverId := rfl
  grantedAtUnix := Reads.ofRat (by norm_num)
  expiresAtUnix := Reads.ofRat (by norm_num)

def Js.asked (path : String) : Option ErrorKind :=
  decision (do
    let authorized ← authorizePlan Host.sample (pathPlan path) Js.ownerApproval (.ofRat (1 : ℕ))
    TokenMinter.mint Js.sampleSession.minter authorized (Js.pathRequest path) (Number.ofRat (1 : ℕ)))

def Rust.asked (path : String) : Option ErrorKind :=
  decision (do
    let authorized ← Rust.tryAuthorize Host.sample (pathPlan path).unlimited Rust.ownerApproval 1
    TokenMinter.mint Rust.sampleSession.minter authorized (Rust.pathRequest path) (1 : Int64))

end Sample

theorem minters_decide_alike_plain_path :
    decision (authorizePlan Host.sample (pathPlan "src/a.rs") Js.ownerApproval (.ofRat (1 : ℕ))) =
      decision (Rust.tryAuthorize Host.sample (pathPlan "src/a.rs").unlimited Rust.ownerApproval 1) ∧
    ∀ authorized authorized',
      authorizePlan Host.sample (pathPlan "src/a.rs") Js.ownerApproval (.ofRat (1 : ℕ)) = .ok authorized →
      Rust.tryAuthorize Host.sample (pathPlan "src/a.rs").unlimited Rust.ownerApproval 1 = .ok authorized' →
      decision (TokenMinter.mint Js.sampleSession.minter authorized (Js.pathRequest "src/a.rs")
          (Number.ofRat (1 : ℕ))) =
        decision (TokenMinter.mint Rust.sampleSession.minter authorized' (Rust.pathRequest "src/a.rs") (1 : Int64)) := by
  apply (minters_decide_alike_iff (pathPlan "src/a.rs") sameApproval_owner (Reads.ofRat (by norm_num))
    (sameRequest_path "src/a.rs") (Reads.ofRat (by norm_num)) Js.sampleSession.minter Rust.sampleSession.minter
    rfl).mpr
  intro _ _
  refine ⟨by decide, ?_⟩
  intro _ step _ _
  have hclimbs : ¬ ∃ path ∈ ["src/a.rs"], Climbs path := by
    unfold Climbs
    decide +kernel
  have hnormalized : ¬ ∃ path ∈ ["src/a.rs"], ClimbsNormalized path := by
    unfold ClimbsNormalized
    decide +kernel
  exact .inl (.inr (iff_of_false hnormalized hclimbs))

/-- A `..` that normalises away is let through on one side only, one between
backslashes on the other. -/
theorem minters_differ_on_paths :
    SameApproval Js.ownerApproval Rust.ownerApproval ∧
    (∀ path, SameRequest (Js.pathRequest path) (Rust.pathRequest path)) ∧
    Js.asked "src/../a.rs" = none ∧ Rust.asked "src/../a.rs" = some .outOfScope ∧
    Js.asked "src\\..\\a.rs" = some .outOfScope ∧ Rust.asked "src\\..\\a.rs" = none :=
  ⟨sameApproval_owner, sameRequest_path, by decide +kernel⟩

end Noesar.Capability
