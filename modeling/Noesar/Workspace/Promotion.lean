import Noesar.Lib.Journal
import Noesar.Workspace.Effects

namespace Noesar.Workspace

open Lib Lib.Framing Lib.Journal Capability Shadow

namespace Orchestrator

variable {site : Site}

/-- The minter stands by a token for writing with so many uses left. -/
structure Holds (minter : JsMinter site.host) (token : JsToken site.host) (nowUnix uses : Number) : Prop where
  verifies : (Js.dialect site.host).sign minter.secret token = token.mac
  entry : minter.issued.get token.id = some uses
  inTime : token.expiresAtUnix.le nowUnix = false
  operation : ∀ path, (writing path : (Js.dialect site.host).Tried).operation ∈ token.operations

variable {minter : JsMinter site.host} {token : JsToken site.host} {nowUnix uses : Number} {p : Place}
  {s : Orchestrator site} {runId approverId : String} {result : Result}

theorem Holds.spend_ok (h : Holds minter token nowUnix uses) {path : String} (hpath : path ∈ token.paths)
    (huses : uses ≠ .zero) :
    ∃ minter', minter.spend token (writing path) nowUnix = .ok (uses.decrement, minter') ∧
      Holds minter' token nowUnix uses.decrement := by
  have hspent : (Js.dialect site.host).isSpent uses = false := decide_eq_false huses
  refine ⟨{ minter with issued := minter.issued.set token.id uses.decrement }, ?_, ?_⟩
  · exact TokenMinter.spend_ok_iff.mpr
      ⟨h.verifies, ⟨uses, h.entry, hspent, rfl⟩, h.inTime, hpath, h.operation path, rfl⟩
  · exact ⟨h.verifies, InsertionMap.get_set_self _ _ _, h.inTime, h.operation⟩

theorem Holds.spend_error (h : Holds minter token nowUnix uses) {path : String}
    (hno : ¬ (path ∈ token.paths ∧ uses ≠ .zero)) :
    ∃ e, minter.spend token (writing path) nowUnix = .error e := by
  cases hs : minter.spend token (writing path) nowUnix with
  | error e => exact ⟨e, rfl⟩
  | ok r =>
    obtain ⟨left, minter'⟩ := r
    have hspends := TokenMinter.spend_ok_iff.mp hs
    obtain ⟨uses', hentry, hspent, -⟩ := hspends.held
    rw [h.entry] at hentry
    cases hentry
    exact absurd ⟨hspends.path, of_decide_eq_false hspent⟩ hno

theorem Holds.of_mint {minter' : JsMinter site.host} {authorized : Authorized site} {step : Capability.Step RawLimits}
    (h : minter.mint authorized (changeRequest step nowUnix) nowUnix = .ok (token, minter')) :
    Holds minter' token nowUnix (Number.ofRat step.files.length) ∧ token.paths = step.files := by
  obtain ⟨limits, haccept, rfl, rfl⟩ := TokenMinter.mint_ok h
  refine ⟨⟨rfl, InsertionMap.get_set_self _ _ _, ?_, fun path ↦ ?_⟩, rfl⟩
  · exact Js.accept_inTime haccept
  · exact List.mem_singleton.mpr rfl

structure Passes (faults : PromoteFaults) (token : JsToken site.host) (uses : Number) (shadow : ShadowWorkspace)
    (workspace : Files) (path : String) (p : Place) (bytes : Bytes) : Prop where
  granted : path ∈ token.paths
  unspent : uses ≠ .zero
  place_eq : place path = .ok p
  bytes_eq : shadow.files.get p = some bytes
  mkdir : faults.mkdir = false
  shadowRead : faults.shadowRead = false
  backupRead : workspace.has p = true → faults.backupRead = false

theorem promoteFile_cases (faults : PromoteFaults) (hheld : Holds minter token nowUnix uses)
    (shadow : ShadowWorkspace) (workspace : Files) (path : String) :
    (∃ p bytes minter', Passes faults token uses shadow workspace path p bytes ∧ faults.write = none ∧
      Holds minter' token nowUnix uses.decrement ∧
      promoteFile faults shadow token nowUnix minter workspace path =
        (minter', workspace.set p bytes, .ok ⟨path, workspace.has p, workspace.get p⟩)) ∨
    (∃ p bytes left minter', Passes faults token uses shadow workspace path p bytes ∧ faults.write = some left ∧
      promoteFile faults shadow token nowUnix minter workspace path =
        (minter', afterFailedWrite workspace p left, .error .failed)) ∨
    ((∀ p bytes, ¬ Passes faults token uses shadow workspace path p bytes) ∧ ∃ minter' e,
      promoteFile faults shadow token nowUnix minter workspace path = (minter', workspace, .error e)) := by
  by_cases hgranted : path ∈ token.paths ∧ uses ≠ .zero
  · obtain ⟨minter', hspend, hheld'⟩ := hheld.spend_ok hgranted.1 hgranted.2
    unfold promoteFile
    rw [hspend]
    cases hplace : place path with
    | error =>
      right; right
      refine ⟨fun p bytes h ↦ ?_, minter', _, rfl⟩
      have := h.place_eq
      rw [hplace] at this
      cases this
    | ok p =>
      dsimp only
      split
      next hfault =>
        right; right
        refine ⟨fun q bytes h ↦ ?_, minter', _, rfl⟩
        have hq := h.place_eq
        rw [hplace] at hq
        cases hq
        have hbackup := h.backupRead
        simp only [h.mkdir, h.shadowRead, Bool.or_false, Bool.and_eq_true] at hfault
        rw [hbackup hfault.1] at hfault
        exact absurd hfault.2 (by decide)
      next hfault =>
        simp only [Bool.or_eq_true, Bool.and_eq_true, not_or, not_and, Bool.not_eq_true] at hfault
        cases hbytes : shadow.files.get p with
        | none =>
          right; right
          refine ⟨fun q bytes h ↦ ?_, minter', _, rfl⟩
          have hq := h.place_eq
          rw [hplace] at hq
          cases hq
          have hb := h.bytes_eq
          rw [hbytes] at hb
          cases hb
        | some bytes =>
          have hpasses : Passes faults token uses shadow workspace path p bytes :=
            ⟨hgranted.1, hgranted.2, hplace, hbytes, hfault.1.2, hfault.2, hfault.1.1⟩
          cases hwrite : faults.write with
          | none => exact .inl ⟨p, bytes, minter', hpasses, rfl, hheld', rfl⟩
          | some left => exact .inr (.inl ⟨p, bytes, left, minter', hpasses, rfl, rfl⟩)
  · obtain ⟨e, hspend⟩ := hheld.spend_error hgranted
    right; right
    refine ⟨fun p bytes h ↦ hgranted ⟨h.granted, h.unspent⟩, minter, .refused "CAPABILITY" e.reason, ?_⟩
    unfold promoteFile
    rw [hspend]

/-- The uses a token for `n` files has left after `k` spends. -/
def usesLeft (n k : ℕ) : Number := Number.decrement^[k] (Number.ofRat n)

theorem usesLeft_succ (n k : ℕ) : usesLeft n (k + 1) = (usesLeft n k).decrement :=
  Function.iterate_succ_apply' _ _ _

section

variable (env : Env) (step : Capability.Step RawLimits) (shadow : ShadowWorkspace) (workspace : Files)
  (outcomes : List Outcome)

/-- An outcome before the `k`-th names the place. -/
def NamedBefore (k : ℕ) (p : Place) : Prop :=
  ∃ j < k, ∃ outcome, outcomes[j]? = some outcome ∧ place outcome.path = .ok p

/-- The `k`-th file outcome passes every check of the promotion: its path is one of the
planned files, a use is left for it, it is contained, and what has to be read can be read. -/
structure Ready (k : ℕ) (p : Place) (bytes : Bytes) : Prop where
  named : ∃ outcome, outcomes[k]? = some outcome ∧ outcome.path ∈ step.files ∧ place outcome.path = .ok p
  unspent : usesLeft step.files.length k ≠ .zero
  bytes_eq : shadow.files.get p = some bytes
  mkdir : (env.promoteFaults k).mkdir = false
  shadowRead : (env.promoteFaults k).shadowRead = false
  backupRead : workspace.has p = true ∨ NamedBefore outcomes k p → (env.promoteFaults k).backupRead = false

/-- The first file outcomes are copied by these writes. -/
structure Copied (ws : List (Place × Bytes)) : Prop where
  ready : ∀ j p bytes, ws[j]? = some (p, bytes) → Ready env step shadow workspace outcomes j p bytes
  write : ∀ j < ws.length, (env.promoteFaults j).write = none

end

variable {env : Env} {step : Capability.Step RawLimits} {shadow : ShadowWorkspace} {workspace : Files}
  {outcomes : List Outcome} {ws : List (Place × Bytes)}

section

variable (h : Copied env step shadow workspace outcomes ws)

include h

theorem Copied.copies : Copies shadow.files.get ws := by
  intro w hw
  obtain ⟨j, hj⟩ := List.mem_iff_getElem?.mp hw
  exact (h.ready j w.1 w.2 hj).bytes_eq

theorem Copied.mem_iff : p ∈ ws.map Prod.fst ↔ NamedBefore outcomes ws.length p := by
  constructor
  · intro hp
    obtain ⟨w, hw, rfl⟩ := List.mem_map.mp hp
    obtain ⟨j, hj⟩ := List.mem_iff_getElem?.mp hw
    obtain ⟨outcome, houtcome, -, hplace⟩ := (h.ready j w.1 w.2 hj).named
    exact ⟨j, (List.getElem?_eq_some_iff.mp hj).1, outcome, houtcome, hplace⟩
  · rintro ⟨j, hj, outcome, houtcome, hplace⟩
    obtain ⟨w, hw⟩ : ∃ w, ws[j]? = some w := ⟨_, List.getElem?_eq_getElem hj⟩
    obtain ⟨outcome', houtcome', -, hplace'⟩ := (h.ready j w.1 w.2 hw).named
    rw [houtcome] at houtcome'
    cases houtcome'
    rw [hplace] at hplace'
    cases hplace'
    exact List.mem_map.mpr ⟨w, List.mem_of_getElem? hw, rfl⟩

theorem Copied.has_iff : (overwrite workspace ws).has p = true ↔ workspace.has p = true ∨ NamedBefore outcomes ws.length
    p := by
  rw [← h.mem_iff, InsertionMap.has, get_overwrite h.copies]
  by_cases hp : p ∈ ws.map Prod.fst
  · obtain ⟨w, hw, rfl⟩ := List.mem_map.mp hp
    simp [hp, h.copies w hw]
  · simp [hp, InsertionMap.has]

theorem Copied.passes_iff (hpaths : token.paths = step.files) {outcome : Outcome} (houtcome : outcomes[ws.length]? =
    some outcome) {bytes : Bytes} : Passes (env.promoteFaults ws.length) token (usesLeft step.files.length ws.length)
    shadow (overwrite workspace ws) outcome.path p bytes ↔ Ready env step shadow workspace outcomes ws.length p bytes :=
    by
  constructor
  · intro hp
    exact ⟨⟨outcome, houtcome, hpaths ▸ hp.granted, hp.place_eq⟩, hp.unspent, hp.bytes_eq, hp.mkdir, hp.shadowRead,
      fun hb ↦ hp.backupRead (h.has_iff.mpr hb)⟩
  · intro hr
    obtain ⟨outcome', houtcome', hgranted, hplace⟩ := hr.named
    rw [houtcome] at houtcome'
    cases houtcome'
    exact ⟨hpaths ▸ hgranted, hr.unspent, hplace, hr.bytes_eq, hr.mkdir, hr.shadowRead,
      fun hb ↦ hr.backupRead (h.has_iff.mp hb)⟩

theorem Copied.snoc {bytes : Bytes} (hready : Ready env step shadow workspace outcomes ws.length p bytes) (hwrite :
    (env.promoteFaults ws.length).write = none) : Copied env step shadow workspace outcomes (ws ++ [(p, bytes)]) := by
  refine ⟨fun j q b hj ↦ ?_, fun j hj ↦ ?_⟩
  · rcases Nat.lt_trichotomy j ws.length with hlt | rfl | hgt
    · rw [List.getElem?_append_left hlt] at hj
      exact h.ready j q b hj
    · rw [List.getElem?_concat_length] at hj
      cases hj
      exact hready
    · rw [List.getElem?_eq_none (by simp; omega)] at hj
      cases hj
  · simp only [List.length_append, List.length_singleton] at hj
    rcases Nat.lt_succ_iff_lt_or_eq.mp hj with hlt | rfl
    · exact h.write j hlt
    · exact hwrite

end

def Saves (backup : Backup) (e : Place × Option Bytes) : Prop :=
  place backup.path = .ok e.1 ∧ backup.existedBefore = e.2.isSome ∧ backup.beforeContent = e.2

/-- How the promotion of the outcomes from the `k`-th on ends. -/
inductive Promoted (env : Env) (step : Capability.Step RawLimits) (shadow : ShadowWorkspace) (workspace : Files)
    (outcomes : List Outcome) (ws : List (Place × Bytes)) : Files → Except Thrown (List Backup) → Prop
  | whole {ws' : List (Place × Bytes)} {backups : List Backup}
      (hcopied : Copied env step shadow workspace outcomes (ws ++ ws')) (hall : (ws ++ ws').length = outcomes.length)
      (hbackups : List.Forall₂ Saves backups (journal (overwrite workspace ws) ws')) :
      Promoted env step shadow workspace outcomes ws (overwrite workspace (ws ++ ws')) (.ok backups)
  | stopped {ws' : List (Place × Bytes)} (e : Thrown)
      (hcopied : Copied env step shadow workspace outcomes (ws ++ ws'))
      (hstop : ∀ p bytes, Ready env step shadow workspace outcomes (ws ++ ws').length p bytes →
        (env.promoteFaults (ws ++ ws').length).write = some none) :
      Promoted env step shadow workspace outcomes ws (overwrite workspace (ws ++ ws')) (.error e)
  | torn {ws' : List (Place × Bytes)} {p : Place} {bytes left : Bytes} (e : Thrown)
      (hcopied : Copied env step shadow workspace outcomes (ws ++ ws'))
      (hready : Ready env step shadow workspace outcomes (ws ++ ws').length p bytes)
      (hwrite : (env.promoteFaults (ws ++ ws').length).write = some (some left)) :
      Promoted env step shadow workspace outcomes ws ((overwrite workspace (ws ++ ws')).set p left) (.error e)

theorem Promoted.cons {w : Place × Bytes} {workspace' : Files} {backup : Backup} {r : Except Thrown (List Backup)}
    (hsaves : Saves backup (w.1, (overwrite workspace ws).get w.1))
    (h : Promoted env step shadow workspace outcomes (ws ++ [w]) workspace' r) :
    Promoted env step shadow workspace outcomes ws workspace' (r.map (backup :: ·)) := by
  cases h with
  | @whole ws' backups hcopied hall hbackups =>
    rw [overwrite_snoc] at hbackups
    rw [List.append_assoc] at hcopied hall ⊢
    exact .whole hcopied hall (.cons hsaves hbackups)
  | @stopped ws' e hcopied hstop =>
    rw [List.append_assoc] at hcopied hstop ⊢
    exact .stopped e hcopied hstop
  | @torn ws' p bytes left e hcopied hready hwrite =>
    rw [List.append_assoc] at hcopied hready hwrite ⊢
    exact .torn e hcopied hready hwrite

theorem promote_cons (env : Env) (shadow : ShadowWorkspace) (token : JsToken site.host) (nowUnix : Number)
    (position : ℕ) (minter : JsMinter site.host) (workspace : Files) (outcome : Outcome) (outcomes : List Outcome) :
    promote env shadow token nowUnix position minter workspace (outcome :: outcomes) =
      match promoteFile (env.promoteFaults position) shadow token nowUnix minter workspace outcome.path with
      | (minter, workspace, .error e) => (minter, workspace, .error e)
      | (minter, workspace, .ok backup) =>
        ((promote env shadow token nowUnix (position + 1) minter workspace outcomes).1,
          (promote env shadow token nowUnix (position + 1) minter workspace outcomes).2.1,
          (promote env shadow token nowUnix (position + 1) minter workspace outcomes).2.2.map (backup :: ·)) := by
  rw [promote]
  rcases promoteFile (env.promoteFaults position) shadow token nowUnix minter workspace outcome.path with
    ⟨minter, workspace, first⟩
  cases first with
  | error => rfl
  | ok =>
    dsimp only
    rcases promote env shadow token nowUnix (position + 1) minter workspace outcomes with ⟨m, w, r⟩
    cases r with
    | error | ok => rfl

theorem promote_ends {token : JsToken site.host} {nowUnix : Number} (hpaths : token.paths = step.files)
    {minter : JsMinter site.host} (hheld : Holds minter token nowUnix (usesLeft step.files.length ws.length))
    (hcopied : Copied env step shadow workspace outcomes ws) {rest : List Outcome}
    (hrest : outcomes.drop ws.length = rest) :
    Promoted env step shadow workspace outcomes ws
      (promote env shadow token nowUnix ws.length minter (overwrite workspace ws) rest).2.1
      (promote env shadow token nowUnix ws.length minter (overwrite workspace ws) rest).2.2 := by
  induction rest generalizing ws minter with
  | nil =>
    have hle : outcomes.length ≤ ws.length := List.drop_eq_nil_iff.mp hrest
    have hge : ws.length ≤ outcomes.length := by
      by_contra hlt
      have hpos : outcomes.length < ws.length := by omega
      obtain ⟨w, hw⟩ : ∃ w, ws[outcomes.length]? = some w := ⟨_, List.getElem?_eq_getElem hpos⟩
      obtain ⟨outcome, houtcome, -⟩ := (hcopied.ready _ w.1 w.2 hw).named
      rw [List.getElem?_eq_none le_rfl] at houtcome
      cases houtcome
    have hwhole := @Promoted.whole env step shadow workspace outcomes ws [] []
    rw [List.append_nil] at hwhole
    exact hwhole hcopied (by omega) .nil
  | cons outcome rest ih =>
    have houtcome : outcomes[ws.length]? = some outcome := by
      rw [← List.head?_drop, hrest]
      rfl
    have hdrop : outcomes.drop (ws.length + 1) = rest := by
      rw [← List.tail_drop, hrest]
      rfl
    rw [promote_cons]
    rcases promoteFile_cases (env.promoteFaults ws.length) hheld shadow (overwrite workspace ws) outcome.path with
      ⟨p, bytes, minter', hpasses, hwrite, hheld', heq⟩ | ⟨p, bytes, left, minter', hpasses, hwrite, heq⟩ |
      ⟨hno, minter', e, heq⟩
    · have hready := (hcopied.passes_iff hpaths houtcome).mp hpasses
      have hnext := @ih (ws ++ [(p, bytes)]) minter'
        (by rw [List.length_append, List.length_singleton, usesLeft_succ]; exact hheld')
        (hcopied.snoc hready hwrite) (by rw [List.length_append, List.length_singleton]; exact hdrop)
      rw [overwrite_snoc, List.length_append, List.length_singleton] at hnext
      rw [heq]
      refine hnext.cons ⟨hpasses.place_eq, ?_, rfl⟩
      rfl
    · have hready := (hcopied.passes_iff hpaths houtcome).mp hpasses
      rw [heq]
      have happend : ws ++ [] = ws := List.append_nil ws
      cases left with
      | none =>
        have hstopped := @Promoted.stopped env step shadow workspace outcomes ws [] .failed
        rw [happend] at hstopped
        exact hstopped hcopied fun _ _ _ ↦ hwrite
      | some left =>
        have htorn := @Promoted.torn env step shadow workspace outcomes ws [] p bytes left .failed
        rw [happend] at htorn
        exact htorn hcopied hready hwrite
    · rw [heq]
      have hstopped := @Promoted.stopped env step shadow workspace outcomes ws [] e
      rw [List.append_nil] at hstopped
      exact hstopped hcopied fun p bytes hready ↦ absurd ((hcopied.passes_iff hpaths houtcome).mpr hready) (hno p bytes)

theorem Promoted.get {workspace' : Files} {r : Except Thrown (List Backup)}
    (h : Promoted env step shadow workspace outcomes [] workspace' r) (p : Place) :
    workspace'.get p = workspace.get p ∨
      (∃ outcome ∈ outcomes, place outcome.path = .ok p) ∧ (workspace'.get p = shadow.files.get p ∨
        r.isOk = false ∧ ∃ k left, (env.promoteFaults k).write = some (some left) ∧ workspace'.get p = some left) := by
  have hcopied : ∀ {ws : List (Place × Bytes)}, Copied env step shadow workspace outcomes ws →
      (overwrite workspace ws).get p = workspace.get p ∨
        (∃ outcome ∈ outcomes, place outcome.path = .ok p) ∧ (overwrite workspace ws).get p = shadow.files.get p := by
    intro ws hcopied
    rw [get_overwrite hcopied.copies]
    split
    next hp =>
      obtain ⟨j, -, outcome, houtcome, hplace⟩ := hcopied.mem_iff.mp hp
      exact .inr ⟨⟨outcome, List.mem_of_getElem? houtcome, hplace⟩, rfl⟩
    next => exact .inl rfl
  cases h with
  | whole hc | stopped e hc => exact (hcopied hc).imp_right fun ⟨ho, hb⟩ ↦ ⟨ho, .inl hb⟩
  | @torn ws' q bytes left e hc hready hwrite =>
    rw [InsertionMap.get_set]
    split
    next hq =>
      subst hq
      obtain ⟨outcome, houtcome, -, hplace⟩ := hready.named
      exact .inr ⟨⟨outcome, List.mem_of_getElem? houtcome, hplace⟩, .inr ⟨rfl, _, left, hwrite, rfl⟩⟩
    next => exact (hcopied hc).imp_right fun ⟨ho, hb⟩ ↦ ⟨ho, .inl hb⟩

theorem Promotes.ends {change : Change site} (hp : Promotes env s runId approverId nowUnix change token minter result) :
    Promoted env change.step change.shadow s.workspace (fileOutcomes result) []
      (promote env change.shadow token nowUnix 0 minter s.workspace (fileOutcomes result)).2.1
      (promote env change.shadow token nowUnix 0 minter s.workspace (fileOutcomes result)).2.2 := by
  obtain ⟨-, -, -, minter', hmint, hs⟩ := grantChange_ok hp.1
  obtain ⟨hheld, hpaths⟩ := Holds.of_mint hmint
  cases hs
  exact promote_ends hpaths hheld ⟨by simp, by simp⟩ rfl

theorem Promotes.approve_workspace {change : Change site}
    (hp : Promotes env s runId approverId nowUnix change token minter result) :
    (approve env s runId approverId nowUnix).1.workspace =
      (promote env change.shadow token nowUnix 0 minter s.workspace (fileOutcomes result)).2.1 := by
  unfold approve
  rw [hp.1]
  dsimp only
  unfold decideChange
  simp only [hp.2.1, hp.2.2, if_true]
  rcases promote env change.shadow token nowUnix 0 minter s.workspace (fileOutcomes result) with ⟨m, w, r⟩
  cases r with
  | error => rfl
  | ok =>
    dsimp only
    split
    · rfl
    · rfl

theorem approve_workspace_of_not_promotes
    (h : ∀ change token minter result, ¬ Promotes env s runId approverId nowUnix change token minter result) :
    (approve env s runId approverId nowUnix).1.workspace = s.workspace := by
  obtain ⟨_, workspace', _, _, _, _, hs, -, happroving⟩ := approve_effect env s runId approverId nowUnix
  rw [hs]
  generalize (approve env s runId approverId nowUnix).2 = answer at happroving
  cases happroving with
  | notGranted | undecided | refused => rfl
  | broken hp | unrecorded hp | promoted hp => exact absurd hp (h _ _ _ _)

theorem approve_ok {run : Run} {shadow : ShadowWorkspace} (hrun : s.runs.get runId = some run)
    (hresult : run.result = some result) (hshadow : s.shadows.get runId = some shadow) (hclean : run.clean = true)
    (hok : (approve env s runId approverId nowUnix).2.isOk = true) :
    ∃ step ws backups, Copied env step shadow s.workspace (fileOutcomes result) ws ∧
      ws.length = (fileOutcomes result).length ∧ List.Forall₂ Saves backups (journal s.workspace ws) ∧
      (approve env s runId approverId nowUnix).1.workspace = overwrite s.workspace ws ∧
      (approve env s runId approverId nowUnix).1.runs.get runId =
        some (decidedRun run .promoted (some backups) approverId nowUnix) := by
  obtain ⟨_, workspace', _, _, run', shadow', hs, hat, happroving⟩ := approve_effect env s runId approverId nowUnix
  rw [hat.runs, if_pos rfl, hs]
  generalize (approve env s runId approverId nowUnix).2 = answer at hok happroving
  cases happroving with
  | notGranted | undecided => cases hok
  | refused hrun' hstatus hclean' =>
    rw [hrun] at hrun'
    cases hrun'
    rw [hclean] at hclean'
    cases hclean'
  | broken | unrecorded => cases hok
  | promoted hp hpromote =>
    obtain ⟨hrun', -, hshadow'⟩ := hp.run
    rw [hrun] at hrun'
    rw [hshadow] at hshadow'
    cases hrun'
    cases hshadow'
    have hresult' := hp.2.1
    rw [hresult] at hresult'
    cases hresult'
    have hends := hp.ends
    rw [hpromote] at hends
    cases hends with
    | whole hcopied hall hbackups => exact ⟨_, _, _, hcopied, hall, hbackups, rfl, rfl⟩

end Orchestrator

end Noesar.Workspace

namespace Noesar.Workspace

open Lib Lib.Framing Lib.Journal Capability Shadow

namespace Orchestrator

variable {site : Site}

theorem restoreFile_undo {workspace : Files} {backup : Backup} {e : Place × Option Bytes} (h : Saves backup e) :
    restoreFile none workspace backup = (undo workspace e, .ok ()) := by
  obtain ⟨p, before⟩ := e
  obtain ⟨hplace, hexisted, hbefore⟩ := h
  dsimp only at hplace hexisted hbefore
  unfold restoreFile undo
  rw [hplace, hexisted, hbefore]
  cases before with
  | some => rfl
  | none =>
    simp only [Option.isSome_none, Bool.false_eq_true, if_false]
    split
    · rfl
    next habsent => rw [InsertionMap.delete_eq_self (Bool.eq_false_of_not_eq_true habsent)]

theorem restoreAll_replay {env : Env} (hcalm : ∀ k, env.restoreFault k = none) {backups : List Backup}
    {es : List (Place × Option Bytes)} (h : List.Forall₂ Saves backups es) (position : ℕ) (workspace : Files) :
    restoreAll env position workspace backups = (replay workspace es, .ok ()) := by
  induction h generalizing position workspace with
  | nil => rfl
  | cons hsaves _ ih =>
    rw [restoreAll, hcalm, restoreFile_undo hsaves]
    exact ih (position + 1) _

def timesNamed (outcomes : List Outcome) (p : Place) : ℕ := outcomes.countP fun o ↦ place o.path = .ok p

theorem Copied.count_eq {env : Env} {step : Capability.Step RawLimits} {shadow : ShadowWorkspace}
    {workspace : Files} {outcomes : List Outcome} {ws : List (Place × Bytes)}
    (h : Copied env step shadow workspace outcomes ws) (hall : ws.length = outcomes.length) (p : Place) :
    times ws p = timesNamed outcomes p := by
  have hplaces : ws.map (fun w ↦ (Except.ok w.1 : Except ShadowError Place)) = outcomes.map fun o ↦ place o.path := by
    refine List.ext_getElem? fun j ↦ ?_
    rw [List.getElem?_map, List.getElem?_map]
    cases hw : ws[j]? with
    | none =>
      rw [List.getElem?_eq_none (by rw [← hall]; exact List.getElem?_eq_none_iff.mp hw)]
      rfl
    | some w =>
      obtain ⟨o, ho, -, hp⟩ := (h.ready j w.1 w.2 hw).named
      rw [ho, Option.map_some, Option.map_some, hp]
  have hcount := congrArg (List.countP fun x ↦ x = Except.ok p) hplaces
  rw [List.countP_map, List.countP_map] at hcount
  refine Eq.trans ?_ hcount
  refine List.countP_congr fun w _ ↦ ?_
  simp

/-- A restoration of a clean, approved run answers, and gives back the files as they were
before the approval exactly when no place is named twice, but for places where the shadow
has the bytes of the workspace. -/
theorem restore_undoes_approve_iff {env env' : Env} {s s' : Orchestrator site} {runId approverId : String}
    {nowUnix nowUnix' : Number} {run : Run} {result : Result} {shadow : ShadowWorkspace}
    (hrun : s.runs.get runId = some run) (hresult : run.result = some result)
    (hshadow : s.shadows.get runId = some shadow) (hclean : run.clean = true)
    (hok : (approve env s runId approverId nowUnix).2.isOk = true)
    (hworkspace : s'.workspace = (approve env s runId approverId nowUnix).1.workspace)
    (hrun' : s'.runs.get runId = (approve env s runId approverId nowUnix).1.runs.get runId)
    (hcalm : ∀ k, env'.restoreFault k = none) (hrecord : env'.recordFails 0 = false) :
    (restore env' s' runId nowUnix').2 = .ok () ∧
    ((∀ p, (restore env' s' runId nowUnix').1.workspace.get p = s.workspace.get p) ↔
      ∀ p, 2 ≤ timesNamed (fileOutcomes result) p → shadow.files.get p = s.workspace.get p) := by
  obtain ⟨step, ws, backups, hcopied, hall, hbackups, hafter, hdecided⟩ :=
    approve_ok hrun hresult hshadow hclean hok
  rw [hafter] at hworkspace
  rw [hdecided] at hrun'
  have hreplay : restoreAll env' 0 s'.workspace ((some backups).getD []) =
      (replay (overwrite s.workspace ws) (journal s.workspace ws), .ok ()) := by
    rw [hworkspace]
    exact restoreAll_replay hcalm hbackups 0 _
  rw [restore_of_restoreAll hrun' rfl hreplay hrecord]
  refine ⟨rfl, ?_⟩
  have hiff := replay_restores_iff hcopied.copies s.workspace
  simp only [hcopied.count_eq hall] at hiff
  exact hiff

def oneChange : Orchestrator Site.sample := measuredSample oneFile [⟨"a.txt", "new"⟩]

def sameFileTwice : Orchestrator Site.sample := measuredSample oneFile [⟨"a.txt", "one"⟩, ⟨"a.txt", "two"⟩]

def approvedAndRestored (s : Orchestrator Site.sample) : Files :=
  (restore .calm (approve .calm s "r1" "bob" (.ofRat 2)).1 "r1" (.ofRat 3)).1.workspace

theorem restore_undoes_approve_one_file :
    (approve .calm oneChange "r1" "bob" (.ofRat 2)).2.isOk = true ∧
    ∀ p, (approvedAndRestored oneChange).get p = oneChange.workspace.get p := by
  have hmeasured : (oneChange.runs.get "r1").map
      (fun run ↦ (run.clean, run.result.map fun result ↦ (fileOutcomes result).length)) = some (true, some 1) ∧
      oneChange.shadows.has "r1" = true ∧ (approve .calm oneChange "r1" "bob" (.ofRat 2)).2.isOk = true := by
    decide +kernel
  obtain ⟨hmap, hhas, hok⟩ := hmeasured
  obtain ⟨run, hrun, hpair⟩ := Option.map_eq_some_iff.mp hmap
  simp only [Prod.mk.injEq] at hpair
  obtain ⟨result, hresult, hone⟩ := Option.map_eq_some_iff.mp hpair.2
  obtain ⟨shadow, hshadow⟩ := (InsertionMap.has_iff _ _).mp hhas
  refine ⟨hok, (restore_undoes_approve_iff hrun hresult hshadow hpair.1 hok rfl rfl (fun _ ↦ rfl) rfl).2.mpr ?_⟩
  intro p htwice
  have hle : timesNamed (fileOutcomes result) p ≤ (fileOutcomes result).length := List.countP_le_length
  omega

theorem restore_forgets_twice :
    (approve .calm sameFileTwice "r1" "bob" (.ofRat 2)).2.isOk = true ∧
    (restore .calm (approve .calm sameFileTwice "r1" "bob" (.ofRat 2)).1 "r1" (.ofRat 3)).2 = .ok () ∧
    sameFileTwice.workspace.entries = oneFile.entries ∧
    ¬ ∀ p, (approvedAndRestored sameFileTwice).get p = sameFileTwice.workspace.get p := by
  have hleft : (approve .calm sameFileTwice "r1" "bob" (.ofRat 2)).2.isOk = true ∧
      (restore .calm (approve .calm sameFileTwice "r1" "bob" (.ofRat 2)).1 "r1" (.ofRat 3)).2 = .ok () ∧
      sameFileTwice.workspace.entries = oneFile.entries ∧
      (approvedAndRestored sameFileTwice).get ["a.txt"] ≠ sameFileTwice.workspace.get ["a.txt"] := by
    decide +kernel
  exact ⟨hleft.1, hleft.2.1, hleft.2.2.1, fun h ↦ hleft.2.2.2 (h _)⟩

end Orchestrator

end Noesar.Workspace
