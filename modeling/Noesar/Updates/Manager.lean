import Noesar.Lib.Run
import Noesar.Updates.Bundle

namespace Noesar.Updates

open Lib Lib.Framing

def channels : List String := ["stable", "security", "beta", "owner", "offline"]

def applyConfirmation : String := "APPLY UPDATE"

structure Staged where
  version : Value
  channel : String
  approved : Bool
  deriving DecidableEq

/-- What `state.json` holds; `previous` is the version that the last promotion replaced. -/
structure State where
  channel : String
  installedVersion : Value
  highestEverInstalled : Value
  staged : Option Staged
  previous : Option Value
  deriving DecidableEq

def State.standing (state : State) : Standing := ⟨state.installedVersion, state.highestEverInstalled⟩

def State.initial (currentVersion : String) : State :=
  ⟨"offline", .text currentVersion, .text currentVersion, none, none⟩

/-- One copy of `staging` into `current`: what was copied, what the last approval before that
`apply` approved, what that `apply` verified, and the version it found there. -/
structure Promotion where
  copied : Slot
  approved : Option Slot
  verified : Slot
  version : Value
  deriving DecidableEq

/-- The end of one `apply`, with the versions it leaves recorded. -/
structure Applied where
  content : Slot
  version : Value
  installedVersion : Value
  highestEverInstalled : Value
  deriving DecidableEq

structure Log where
  staged : Option Slot
  approved : Option Slot
  promotions : List Promotion
  applied : List Applied
  deriving DecidableEq

structure Manager where
  state : State
  currentVersion : Value
  saved : Option State
  current : Slot
  previous : Slot
  staging : Slot
  log : Log
  deriving DecidableEq

structure Config where
  backup : Bool
  migrate : Bool
  healthCheck : Bool

/-- What one `apply` works on from its verification to its end, with what had been approved when
it began and what it verified. -/
structure Target where
  fromVersion : Value
  toVersion : Value
  requiresMigration : Bool
  approved : Option Slot
  verified : Slot
  deriving DecidableEq

/-- The variables of an `apply` that its callbacks decide. -/
structure Locals where
  restorable : Bool
  migrated : Bool
  deriving DecidableEq

/-- A `rollback` under way, and what the `apply` it serves throws in the end. -/
structure Undo where
  restored : Value
  cause : Option Thrown
  deriving DecidableEq

inductive Waiting
  | backup (target : Target)
  | dryRun (target : Target) (locals : Locals)
  | migration (target : Target) (locals : Locals)
  | candidate (target : Target) (locals : Locals)
  | promoted (target : Target) (locals : Locals)
  | restore (undo : Undo)
  | rolledBack (undo : Undo)
  deriving DecidableEq

/-- How an awaited callback ends. `ok` is whether a backup is verified, or a health check passed;
`restorable` whether a backup has a `restore`. -/
inductive Reply
  | threw (e : Thrown)
  | returned (ok restorable : Bool)
  deriving DecidableEq

inductive Progress
  | waits (waiting : Waiting)
  | returned (version : Value)
  | threw (e : Thrown)
  deriving DecidableEq

def readsMessageOfNothing : Thrown := typeError "Cannot read properties of null (reading 'message')"

def candidateUnhealthy : Thrown := fail "Candidate failed its health check." .candidateUnhealthy 500

def postPromotionUnhealthy : Thrown := fail "Post-promotion verification failed." .postPromotionUnhealthy 500

def copyError : Thrown := .error "cpSync cannot copy an entry" (some (.host "ERR_FS_CP")) none

/-- What `apply` throws after it has rolled back. -/
def updateFailed (message : String) (code : Option Code) (status : Option ℕ) : Thrown :=
  fail s!"Update failed and was rolled back: {message}" (code.getD .updateFailed) (status.getD 500)

namespace Manager

def initial (currentVersion : String) (current previous staging : Slot) : Manager where
  state := .initial currentVersion
  currentVersion := .text currentVersion
  saved := none
  current := current
  previous := previous
  staging := staging
  log := ⟨none, none, [], []⟩

/-- `#saveState` -/
def save (m : Manager) : Manager := { m with saved := some m.state }

def restart (m : Manager) (currentVersion : String) (readable : Bool) : Manager :=
  let saved := if readable then m.saved else none
  { m with state := saved.getD (.initial currentVersion), currentVersion := .text currentVersion, saved := saved }

def setChannel (m : Manager) (channel : Value) : Manager × Progress :=
  match (channel.orElse (.text "")).string with
  | .error e => (m, .threw e)
  | .ok text =>
    let name := text.toLower
    if name ∉ channels then
      match channel.string with
      | .error e => (m, .threw e)
      | .ok shown => (m, .threw (fail s!"Unknown update channel: {shown}" .unknownChannel 400))
    else (save { m with state := { m.state with channel := name } }, .returned m.state.installedVersion)

section

variable {Key : Type} (host : Host Key)

/-- `stage`. The bundle is what the inbox holds under the name; `stops` says that the copy does not
get to its end, and `left` what it then leaves in `staging`. -/
def stage (m : Manager) (bundle : Option Bundle) (around again : Surroundings Key) (stops : Bool) (left : Slot) :
    Manager × Progress :=
  match bundle with
  | none => (m, .threw (fail "Unknown update bundle." .unknownBundle 404))
  | some bundle =>
    match verifyBundle host around m.state.standing m.state.channel bundle with
    | .error e => (m, .threw e)
    | .ok _ =>
      match if stops then none else cpSync bundle with
      | none => ({ m with staging := left }, .threw copyError)
      | some landed =>
        match verifyBundle host again m.state.standing m.state.channel landed with
        | .error e => ({ m with staging := landed }, .threw e)
        | .ok restaged =>
          let staged := ⟨restaged.version, m.state.channel, false⟩
          (save { m with staging := landed, state := { m.state with staged := some staged },
                         log := { m.log with staged := some landed } }, .returned restaged.version)

def approve (m : Manager) (confirmation : Value) : Manager × Progress :=
  match m.state.staged with
  | none => (m, .threw (fail "No update is staged." .nothingStaged 409))
  | some staged =>
    if confirmation ≠ .text applyConfirmation then
      (m, .threw (fail s!"Applying an update requires the typed confirmation \"{applyConfirmation}\"."
        .confirmationRequired 428))
    else
      (save { m with state := { m.state with staged := some { staged with approved := true } },
                     log := { m.log with approved := m.log.staged } }, .returned staged.version)

def target (m : Manager) (verified : Verified) : Target where
  fromVersion := m.state.installedVersion
  toVersion := verified.version
  requiresMigration := verified.requiresMigration
  approved := m.log.approved
  verified := m.staging

/-- `apply` up to its first await. `watchdog` is what the watchdog throws, if it does. -/
def apply (m : Manager) (around : Surroundings Key) (watchdog : Option Thrown) : Manager × Progress :=
  match m.state.staged with
  | none => (m, .threw (fail "No update is staged." .nothingStaged 409))
  | some staged =>
    if !staged.approved then
      (m, .threw (fail "The staged update has not been approved by the owner." .notApproved 403))
    else
      match watchdog with
      | some e => (m, .threw e)
      | none =>
        match verifyBundle host around m.state.standing staged.channel m.staging with
        | .error e => (m, .threw e)
        | .ok verified =>
          (m, .waits (.backup (m.target verified)))

end

/-- `#promote`. A copy of a slot is that slot. -/
def promote (m : Manager) (target : Target) : Manager :=
  save { m with
    previous := if listFiles m.current.listing ≠ [] then m.current else Slot.empty
    current := m.staging
    staging := Slot.empty
    state := { m.state with previous := some m.state.installedVersion }
    log := { m.log with
      promotions := m.log.promotions ++ [⟨m.staging, target.approved, target.verified, target.toVersion⟩] } }

/-- The end of an `apply` that went through. -/
def finish (m : Manager) (target : Target) : Manager × Progress :=
  let m := { m with state := { m.state with installedVersion := target.toVersion } }
  match compareVersions target.toVersion (m.state.highestEverInstalled.orElse (.text "0.0.0")) with
  | .error e => (m, .threw e)
  | .ok order =>
    let highest := if order = .gt then target.toVersion else m.state.highestEverInstalled
    (save { m with
      state := { m.state with highestEverInstalled := highest, staged := none }
      currentVersion := target.toVersion
      log := { m.log with
        applied := m.log.applied ++ [⟨target.verified, target.toVersion, m.state.installedVersion, highest⟩] } },
      .returned target.toVersion)

section

variable (config : Config)

/-- `rollback` after its health check. -/
def rolledBack (m : Manager) (undo : Undo) : Manager × Progress :=
  match undo.cause with
  | some e => (m.save, .threw e)
  | none => (m.save, .returned undo.restored)

/-- `rollback` after the slot and, where it was asked for, the workspace are back. -/
def settle (m : Manager) (undo : Undo) : Manager × Progress :=
  let m := { m with
    state := { m.state with installedVersion := undo.restored, staged := none }
    currentVersion := undo.restored }
  if config.healthCheck then (m, .waits (.rolledBack undo)) else rolledBack m undo

/-- `this.state.previous?.version ?? this.state.installedVersion` -/
def restored (m : Manager) : Value := (m.state.previous.getD .undefined).orElse m.state.installedVersion

def rollback (m : Manager) (restoreWorkspace restorable : Bool) (cause : Option Thrown) : Manager × Progress :=
  let undo := ⟨m.restored, cause⟩
  let m := if listFiles m.previous.listing ≠ [] then { m with current := m.previous } else m
  if restoreWorkspace && restorable then (m, .waits (.restore undo)) else settle config m undo

/-- The `catch` of `apply`, which reads a message before it rolls back. -/
def caught (m : Manager) (locals : Locals) (e : Thrown) : Manager × Progress :=
  match e with
  | .nullish => (m, .threw readsMessageOfNothing)
  | .error message code status =>
    rollback config m locals.migrated locals.restorable (some (updateFailed message code status))

def switch (m : Manager) (target : Target) (locals : Locals) : Manager × Progress :=
  let m := promote m.save target
  if config.healthCheck then (m, .waits (.promoted target locals)) else finish m.save target

def startCandidate (m : Manager) (target : Target) (locals : Locals) : Manager × Progress :=
  if config.healthCheck then (m, .waits (.candidate target locals)) else switch config m target locals

def startMigration (m : Manager) (target : Target) (locals : Locals) : Manager × Progress :=
  if target.requiresMigration && config.migrate then (m, .waits (.dryRun target locals))
  else startCandidate config m target locals

def resume (m : Manager) : Waiting → Reply → Manager × Progress
  | .backup target, reply =>
    -- Without a callback the awaited value is undefined.
    match if config.backup then reply else .returned false false with
    | .threw .nullish => (m, .threw readsMessageOfNothing)
    | .threw (.error message _ _) =>
      (m.save, .threw (fail s!"Pre-update backup failed: {message}" .backupFailed 500))
    | .returned false _ =>
      (m.save, .threw (fail "Pre-update backup could not be verified; refusing to apply." .backupUnverified 500))
    | .returned true restorable => startMigration config m.save target ⟨restorable, false⟩
  | .dryRun _ locals, .threw e => caught config m locals e
  | .dryRun target locals, .returned _ _ => (m, .waits (.migration target locals))
  | .migration _ locals, .threw e => caught config m locals e
  | .migration target locals, .returned _ _ => startCandidate config m.save target { locals with migrated := true }
  | .candidate _ locals, .threw e => caught config m locals e
  | .candidate _ locals, .returned false _ => caught config m locals candidateUnhealthy
  | .candidate target locals, .returned true _ => switch config m target locals
  | .promoted _ locals, .threw e => caught config m locals e
  | .promoted _ locals, .returned false _ => caught config m locals postPromotionUnhealthy
  | .promoted target _, .returned true _ => finish m.save target
  | .restore _, .threw e => (m, .threw e)
  | .restore undo, .returned _ _ => settle config m undo
  | .rolledBack _, .threw e => (m, .threw e)
  | .rolledBack undo, .returned _ _ => rolledBack m undo

end

theorem apply_begins {Key : Type} {host : Host Key} {m : Manager} {around : Surroundings Key} {staged : Staged}
    {verified : Verified} (hstaged : m.state.staged = some staged) (happroved : staged.approved = true)
    (hverified : verifyBundle host around m.state.standing staged.channel m.staging = .ok verified) :
    m.apply host around none = (m, .waits (.backup (m.target verified))) := by
  simp [apply, hstaged, happroved, hverified]

theorem apply_cases {Key : Type} (host : Host Key) (m : Manager) (around : Surroundings Key) (watchdog : Option Thrown) :
    (∃ e, m.apply host around watchdog = (m, .threw e)) ∨
      ∃ staged verified, m.state.staged = some staged ∧ staged.approved = true ∧ watchdog = none ∧
        verifyBundle host around m.state.standing staged.channel m.staging = .ok verified := by
  cases hs : m.state.staged with
  | none =>
    left
    simp only [apply, hs]
    exact ⟨_, rfl⟩
  | some staged =>
    cases ha : staged.approved with
    | false =>
      left
      simp only [apply, hs, ha, Bool.not_false, if_true]
      exact ⟨_, rfl⟩
    | true =>
      cases watchdog with
      | some e => exact .inl ⟨e, by simp [apply, hs, ha]⟩
      | none =>
        cases hv : verifyBundle host around m.state.standing staged.channel m.staging with
        | error e => exact .inl ⟨e, by simp [apply, hs, ha, hv]⟩
        | ok verified => exact .inr ⟨staged, verified, rfl, ha, rfl, hv⟩

theorem backup_refused {config : Config} (m : Manager) (target : Target) {reply : Reply}
    (h : ¬ (config.backup = true ∧ ∃ restorable, reply = .returned true restorable)) :
    ∃ saved e, (saved = m.saved ∨ saved = some m.state) ∧
      m.resume config (.backup target) reply = ({ m with saved := saved }, .threw e) := by
  cases hb : config.backup with
  | false =>
    simp only [resume, hb]
    exact ⟨_, _, .inr rfl, rfl⟩
  | true =>
    cases reply with
    | threw e =>
      cases e with
      | nullish => exact ⟨m.saved, readsMessageOfNothing, .inl rfl, by simp [resume, hb]⟩
      | error =>
        simp only [resume, hb, if_true]
        exact ⟨_, _, .inr rfl, rfl⟩
    | returned ok restorable =>
      cases ok with
      | false =>
        simp only [resume, hb, if_true]
        exact ⟨_, _, .inr rfl, rfl⟩
      | true => exact absurd ⟨hb, restorable, rfl⟩ h

end Manager

structure Machine where
  manager : Manager
  waiting : List Waiting
  deriving DecidableEq

inductive Command (Key : Type)
  | setChannel (channel : Value)
  /-- `check` and `installChannelKey`, which record what they did and change nothing else here. -/
  | record
  | stage (bundle : Option Bundle) (around again : Surroundings Key) (stops : Bool) (left : Slot)
  | approve (confirmation : Value)
  | apply (around : Surroundings Key) (watchdog : Option Thrown)
  | rollback (restoreWorkspace restorable : Bool)
  | resume (index : ℕ) (reply : Reply)
  | restart (currentVersion : String) (readable : Bool)

def Progress.waiting : Progress → List Waiting
  | .waits waiting => [waiting]
  | _ => []

namespace Machine

variable {Key : Type} (host : Host Key) (config : Config)

def goOn (s : Machine) (outcome : Manager × Progress) (rest : List Waiting) : Machine :=
  { s with manager := outcome.1, waiting := rest ++ outcome.2.waiting }

def step (s : Machine) : Command Key → Machine
  | .setChannel channel => s.goOn (s.manager.setChannel channel) s.waiting
  | .record => { s with manager := s.manager.save }
  | .stage bundle around again stops left => s.goOn (s.manager.stage host bundle around again stops left) s.waiting
  | .approve confirmation => s.goOn (s.manager.approve confirmation) s.waiting
  | .apply around watchdog => s.goOn (s.manager.apply host around watchdog) s.waiting
  | .rollback restoreWorkspace restorable =>
    s.goOn (s.manager.rollback config restoreWorkspace restorable none) s.waiting
  | .resume index reply =>
    match s.waiting[index]? with
    | none => s
    | some waiting => s.goOn (s.manager.resume config waiting reply) (s.waiting.eraseIdx index)
  | .restart currentVersion readable => ⟨s.manager.restart currentVersion readable, []⟩

def start (currentVersion : String) (current previous staging : Slot) : Machine :=
  ⟨.initial currentVersion current previous staging, []⟩

end Machine

end Noesar.Updates
