import Noesar.Updates.Manager
import Noesar.Updates.Payload

namespace Noesar.Updates

open Lib Lib.Framing

/-- The awaited callbacks of one call, with their answers, in the order of the calls. -/
abbrev Trace := List (Waiting × Reply)

def Trace.Migrated (trace : Trace) : Prop := ∃ target locals ok restorable, (.migration target locals, .returned ok restorable) ∈ trace

def Trace.Restored (trace : Trace) : Prop := ∃ undo ok restorable, (.restore undo, .returned ok restorable) ∈ trace

namespace Trace

theorem migrated_append {t t' : Trace} : Migrated (t ++ t') ↔ Migrated t ∨ Migrated t' := by
  simp only [Migrated, List.mem_append, exists_or]

theorem restored_append {t t' : Trace} : Restored (t ++ t') ↔ Restored t ∨ Restored t' := by
  simp only [Restored, List.mem_append, exists_or]

@[simp] theorem not_migrated_nil : ¬ Migrated [] := by
  simp [Migrated]

@[simp] theorem not_restored_nil : ¬ Restored [] := by
  simp [Restored]

theorem snoc_neutral {sofar : Trace} {waiting : Waiting} (reply : Reply) (hm : ∀ target locals, waiting ≠ .migration target locals)
    (hr : ∀ undo, waiting ≠ .restore undo) :
    (Migrated (sofar ++ [(waiting, reply)]) ↔ Migrated sofar) ∧ (Restored (sofar ++ [(waiting, reply)]) ↔ Restored sofar) := by
  rw [migrated_append, restored_append]
  refine ⟨or_iff_left ?_, or_iff_left ?_⟩
  · rintro ⟨target, locals, ok, restorable, h⟩
    simp only [List.mem_singleton, Prod.mk.injEq] at h
    exact hm target locals h.1.symm
  · rintro ⟨undo, ok, restorable, h⟩
    simp only [List.mem_singleton, Prod.mk.injEq] at h
    exact hr undo h.1.symm

end Trace

namespace Manager

section Drive

variable (config : Config) (answer : Waiting → Reply)

def drive : ℕ → Manager × Progress → Trace × Manager × Progress
  | n + 1, (m, .waits waiting) =>
    let rest := drive n (m.resume config waiting (answer waiting))
    ((waiting, answer waiting) :: rest.1, rest.2)
  | _, outcome => ([], outcome)

@[simp] theorem drive_waits (n : ℕ) (m : Manager) (waiting : Waiting) :
    drive config answer (n + 1) (m, .waits waiting) =
      ((waiting, answer waiting) :: (drive config answer n (m.resume config waiting (answer waiting))).1,
        (drive config answer n (m.resume config waiting (answer waiting))).2) := rfl

@[simp] theorem drive_threw (n : ℕ) (m : Manager) (e : Thrown) :
    drive config answer n (m, .threw e) = ([], m, .threw e) := by
  cases n <;> rfl

@[simp] theorem drive_returned (n : ℕ) (m : Manager) (v : Value) :
    drive config answer n (m, .returned v) = ([], m, .returned v) := by
  cases n <;> rfl

/-- `apply` without anything in between. It is suspended at most seven times. -/
def applyCall {Key : Type} (host : Host Key) (around : Surroundings Key) (watchdog : Option Thrown) (m : Manager) :
    Trace × Manager × Progress :=
  drive config answer 7 (m.apply host around watchdog)

end Drive

/-- A failed `apply` leaves the installation as it was: what is installed, the versions that are
recorded, and the workspace if a migration had run. -/
structure Unharmed (before after : Manager) (trace : Trace) : Prop where
  current : after.current = before.current
  installedVersion : after.state.installedVersion = before.state.installedVersion
  currentVersion : after.currentVersion = before.currentVersion
  workspace : trace.Migrated → trace.Restored

section Condition

variable (config : Config) (answer : Waiting → Reply)

/-- How a health check ends the `try` block, if it does. -/
def unhealthy (waiting : Waiting) (otherwise : Thrown) : Option Thrown :=
  if config.healthCheck then
    match answer waiting with
    | .threw e => some e
    | .returned false _ => some otherwise
    | .returned true _ => none
  else none

/-- How the migration ends the `try` block, if it does. -/
def unmigrated (target : Target) (locals : Locals) : Option Thrown :=
  if target.requiresMigration && config.migrate then
    match answer (.dryRun target locals) with
    | .threw e => some e
    | .returned _ _ =>
      match answer (.migration target locals) with
      | .threw e => some e
      | .returned _ _ => none
  else none

/-- Where and how the callbacks make the `try` block of an `apply` fail: whether after the switch of the
slots, with the variables as they then are, and what is thrown. -/
def failure (target : Target) (restorable : Bool) : Option (Bool × Locals × Thrown) :=
  match unmigrated config answer target ⟨restorable, false⟩ with
  | some e => some (false, ⟨restorable, false⟩, e)
  | none =>
    let locals := ⟨restorable, target.requiresMigration && config.migrate⟩
    match unhealthy config answer (.candidate target locals) candidateUnhealthy with
    | some e => some (false, locals, e)
    | none =>
      (unhealthy config answer (.promoted target locals) postPromotionUnhealthy).map fun e ↦ (true, locals, e)

def versionBefore (m : Manager) (switched : Bool) : Value := if switched then m.state.installedVersion else m.restored

/-- A rollback from there finds in `previous` what was installed, under the version that was recorded, and a
migrated workspace comes back. Where nothing can be read of what was thrown there is no rollback. -/
def Recovers (m : Manager) (switched : Bool) (locals : Locals) : Thrown → Prop
  | .nullish => (switched → m.staging = m.current) ∧ locals.migrated = false
  | .error message code status =>
    (if switched then listFiles m.current.listing ≠ [] ∨ m.staging = m.current
      else listFiles m.previous.listing = [] ∨ m.previous = m.current) ∧
    m.versionBefore switched = m.state.installedVersion ∧ m.versionBefore switched = m.currentVersion ∧
    (locals.migrated → locals.restorable ∧
      ∃ ok restorable, answer (.restore ⟨m.versionBefore switched, some (updateFailed message code status)⟩) =
        .returned ok restorable)

/-- Wherever the callbacks let a verified and backed up update fail, the rollback recovers. -/
def Recoverable {Key : Type} (host : Host Key) (around : Surroundings Key) (watchdog : Option Thrown) (m : Manager) : Prop :=
  ∀ staged verified restorable, m.state.staged = some staged → staged.approved → watchdog = none →
    verifyBundle host around m.state.standing staged.channel m.staging = .ok verified → config.backup →
    answer (.backup (m.target verified)) = .returned true restorable →
    ∀ switched locals e, failure config answer (m.target verified) restorable = some (switched, locals, e) →
      m.Recovers answer switched locals e

end Condition

section Rollback

variable {config : Config} {answer : Waiting → Reply}

theorem drive_settle (n : ℕ) (m : Manager) (restored : Value) (e : Thrown) :
    ∃ trace after e', drive config answer (n + 1) (settle config m ⟨restored, some e⟩) = (trace, after, .threw e') ∧
      after.current = m.current ∧ after.state.installedVersion = restored ∧ after.currentVersion = restored ∧
      ¬ trace.Migrated ∧ ¬ trace.Restored := by
  have hno : ∀ reply, ¬ Trace.Migrated [(.rolledBack ⟨restored, some e⟩, reply)] ∧
      ¬ Trace.Restored [(.rolledBack ⟨restored, some e⟩, reply)] := by
    intro reply
    simp [Trace.Migrated, Trace.Restored]
  unfold settle
  by_cases hh : config.healthCheck = true
  · rw [if_pos hh, drive_waits]
    cases ha : answer (.rolledBack ⟨restored, some e⟩) with
    | threw e' =>
      simp only [resume, drive_threw]
      exact ⟨_, _, e', rfl, rfl, rfl, rfl, hno _⟩
    | returned =>
      simp only [resume, rolledBack, drive_threw]
      exact ⟨_, _, e, rfl, rfl, rfl, rfl, hno _⟩
  · rw [if_neg hh]
    simp only [rolledBack, drive_threw]
    exact ⟨_, _, e, rfl, rfl, rfl, rfl, Trace.not_migrated_nil, Trace.not_restored_nil⟩

def ComesBack (answer : Waiting → Reply) (locals : Locals) (undo : Undo) : Prop :=
  locals.migrated → locals.restorable ∧ ∃ ok restorable, answer (.restore undo) = .returned ok restorable

theorem drive_rollback (n : ℕ) (m : Manager) (locals : Locals) (e : Thrown) :
    ∃ trace after e',
      drive config answer (n + 2) (rollback config m locals.migrated locals.restorable (some e)) = (trace, after, .threw e') ∧
      after.current = (if listFiles m.previous.listing ≠ [] then m.previous else m.current) ∧ ¬ trace.Migrated ∧
      (ComesBack answer locals ⟨m.restored, some e⟩ → after.state.installedVersion = m.restored ∧
        after.currentVersion = m.restored ∧ (locals.migrated → trace.Restored)) ∧
      (¬ ComesBack answer locals ⟨m.restored, some e⟩ → locals.migrated ∧ ¬ trace.Restored) := by
  set m' := if listFiles m.previous.listing ≠ [] then { m with current := m.previous } else m with hm'
  have hcurrent : m'.current = if listFiles m.previous.listing ≠ [] then m.previous else m.current := by
    rw [hm']
    split <;> rfl
  by_cases hw : (locals.migrated && locals.restorable) = true
  · have hr : rollback config m locals.migrated locals.restorable (some e) = (m', .waits (.restore ⟨m.restored, some e⟩)) := by
      simp only [rollback, hw, if_true, hm']
    rw [hr, drive_waits]
    simp only [Bool.and_eq_true] at hw
    cases ha : answer (.restore ⟨m.restored, some e⟩) with
    | threw e' =>
      simp only [resume, drive_threw]
      refine ⟨_, _, e', rfl, hcurrent, by simp [Trace.Migrated], fun hc ↦ ?_, fun _ ↦ ?_⟩
      · obtain ⟨-, ok, restorable, hret⟩ := hc hw.1
        rw [ha] at hret
        cases hret
      · exact ⟨hw.1, by simp [Trace.Restored]⟩
    | returned ok restorable =>
      obtain ⟨trace, after, e', hdrive, h₁, h₂, h₃, h₄, h₅⟩ := @drive_settle config answer n m' m.restored e
      simp only [resume, hdrive]
      refine ⟨_, after, e', rfl, h₁.trans hcurrent, ?_, fun _ ↦ ⟨h₂, h₃, fun _ ↦ ?_⟩, fun hc ↦ ?_⟩
      · rintro ⟨target, locals', ok', r', hm⟩
        rcases List.mem_cons.mp hm with he | hm
        · cases he
        · exact h₄ ⟨target, locals', ok', r', hm⟩
      · exact ⟨_, ok, restorable, List.mem_cons_self⟩
      · exact absurd (fun _ ↦ ⟨hw.2, ok, restorable, ha⟩) hc
  · have hr : rollback config m locals.migrated locals.restorable (some e) = settle config m' ⟨m.restored, some e⟩ := by
      simp only [rollback, hw, hm']
      rfl
    rw [hr]
    obtain ⟨trace, after, e', hdrive, h₁, h₂, h₃, h₄, h₅⟩ := @drive_settle config answer (n + 1) m' m.restored e
    refine ⟨trace, after, e', hdrive, h₁.trans hcurrent, h₄, fun hc ↦ ⟨h₂, h₃, fun hmig ↦ ?_⟩, fun hc ↦ ⟨?_, h₅⟩⟩
    · exact absurd (by simp [hmig, (hc hmig).1]) hw
    · by_contra hmig
      exact hc fun h ↦ absurd h hmig

theorem unharmed_caught (n : ℕ) (before m : Manager) (locals : Locals) (e : Thrown) (sofar : Trace)
    (hmigrated : sofar.Migrated ↔ locals.migrated = true) (hrestored : ¬ sofar.Restored) :
    ∃ trace after e', drive config answer (n + 2) (caught config m locals e) = (trace, after, .threw e') ∧
      (Unharmed before after (sofar ++ trace) ↔
        match e with
        | .nullish => m.current = before.current ∧ m.state.installedVersion = before.state.installedVersion ∧
            m.currentVersion = before.currentVersion ∧ locals.migrated = false
        | .error message code status =>
            (if listFiles m.previous.listing ≠ [] then m.previous else m.current) = before.current ∧
            m.restored = before.state.installedVersion ∧ m.restored = before.currentVersion ∧
            ComesBack answer locals ⟨m.restored, some (updateFailed message code status)⟩) := by
  cases e with
  | nullish =>
    refine ⟨[], m, readsMessageOfNothing, by simp only [caught, drive_threw], ?_⟩
    rw [List.append_nil]
    constructor
    · intro h
      refine ⟨h.current, h.installedVersion, h.currentVersion, ?_⟩
      by_contra hm
      exact hrestored (h.workspace (hmigrated.mpr (by simpa using hm)))
    · rintro ⟨h₁, h₂, h₃, h₄⟩
      refine ⟨h₁, h₂, h₃, fun hm ↦ ?_⟩
      rw [hmigrated, h₄] at hm
      cases hm
  | error message code status =>
    obtain ⟨trace, after, e', hdrive, hcurrent, hno, hback, hlost⟩ :=
      @drive_rollback config answer n m locals (updateFailed message code status)
    refine ⟨trace, after, e', hdrive, ?_⟩
    constructor
    · intro h
      have hc : ComesBack answer locals ⟨m.restored, some (updateFailed message code status)⟩ := by
        by_contra hc
        obtain ⟨hm, hr⟩ := hlost hc
        rcases Trace.restored_append.mp (h.workspace (Trace.migrated_append.mpr (.inl (hmigrated.mpr hm)))) with h' | h'
        · exact hrestored h'
        · exact hr h'
      obtain ⟨h₁, h₂, -⟩ := hback hc
      exact ⟨hcurrent ▸ h.current, h₁ ▸ h.installedVersion, h₂ ▸ h.currentVersion, hc⟩
    · rintro ⟨h₁, h₂, h₃, hc⟩
      obtain ⟨hi, hv, hr⟩ := hback hc
      refine ⟨hcurrent.trans h₁, hi.trans h₂, hv.trans h₃, fun hm ↦ ?_⟩
      rcases Trace.migrated_append.mp hm with hm | hm
      · exact Trace.restored_append.mpr (.inr (hr (hmigrated.mp hm)))
      · exact absurd hm hno

theorem orElse_self (v : Value) : v.orElse v = v := by
  cases v <;> rfl

/-- A call has ended as the callbacks' failure says: it has thrown, and left no harm exactly where the rollback
recovers. -/
def Settles (answer : Waiting → Reply) (before : Manager) (sofar : Trace) (result : Trace × Manager × Progress) :
    Option (Bool × Locals × Thrown) → Prop
  | none => ∃ v, result.2.2 = .returned v
  | some (switched, locals, e) => (∃ e', result.2.2 = .threw e') ∧
      (Unharmed before result.2.1 (sofar ++ result.1) ↔ before.Recovers answer switched locals e)

theorem Settles.cons {before : Manager} {sofar : Trace} {call : Waiting × Reply} {result : Trace × Manager × Progress}
    {f : Option (Bool × Locals × Thrown)} (h : Settles answer before (sofar ++ [call]) result f) :
    Settles answer before sofar (call :: result.1, result.2) f := by
  cases f with
  | none => exact h
  | some => simpa only [Settles, List.append_assoc, List.singleton_append] using h

section

variable (n : ℕ) {before : Manager} (saved : Option State) {target : Target} {locals : Locals} {sofar : Trace}
  (hmigrated : sofar.Migrated ↔ locals.migrated = true) (hrestored : ¬ sofar.Restored)

include hmigrated hrestored

theorem settles_before (e : Thrown) :
    Settles answer before sofar (drive config answer (n + 2) (caught config { before with saved := saved } locals e))
      (some (false, locals, e)) := by
  obtain ⟨trace, after, e', hdrive, hiff⟩ :=
    @unharmed_caught config answer n before { before with saved := saved } locals e sofar hmigrated hrestored
  rw [hdrive]
  refine ⟨⟨e', rfl⟩, hiff.trans ?_⟩
  cases e with
  | nullish => simp [Recovers]
  | error =>
    refine and_congr ?_ Iff.rfl
    by_cases hp : listFiles before.previous.listing = []
    · simp [hp]
    · simp [hp]

theorem settles_after (saved' : Option State) (e : Thrown) :
    Settles answer before sofar
      (drive config answer (n + 2)
        (caught config { promote { before with saved := saved } target with saved := saved' } locals e))
      (some (true, locals, e)) := by
  obtain ⟨trace, after, e', hdrive, hiff⟩ := @unharmed_caught config answer n before
    { promote { before with saved := saved } target with saved := saved' } locals e sofar hmigrated hrestored
  rw [hdrive]
  refine ⟨⟨e', rfl⟩, hiff.trans ?_⟩
  cases e with
  | nullish => simp [Recovers, promote, save]
  | error =>
    have hback : ({ promote { before with saved := saved } target with saved := saved' } : Manager).restored =
        before.state.installedVersion := orElse_self _
    rw [hback]
    refine and_congr ?_ Iff.rfl
    by_cases hc : listFiles before.current.listing = []
    · have he : listFiles Slot.empty.listing = [] := rfl
      simp [promote, save, hc, he]
    · simp [promote, save, hc]

theorem settles_switch
    (hfinish : ∃ order, compareVersions target.toVersion (before.state.highestEverInstalled.orElse (.text "0.0.0")) = .ok order) :
    Settles answer before sofar (drive config answer (n + 3) (switch config { before with saved := saved } target locals))
      ((unhealthy config answer (.promoted target locals) postPromotionUnhealthy).map fun e ↦ (true, locals, e)) := by
  obtain ⟨order, horder⟩ := hfinish
  have hend : ∀ k saved' saved'', ∃ v,
      (drive config answer k (finish { promote { before with saved := saved' } target with saved := saved'' } target)).2.2 =
        .returned v := by
    intro k saved' saved''
    have hcompare : compareVersions target.toVersion
        ((promote { before with saved := saved' } target).state.highestEverInstalled.orElse (.text "0.0.0")) = .ok order := horder
    simp only [finish, hcompare, drive_returned]
    exact ⟨_, rfl⟩
  unfold switch unhealthy
  by_cases hh : config.healthCheck = true
  · simp only [hh, if_true, drive_waits]
    apply Settles.cons
    obtain ⟨hm, hr⟩ := @Trace.snoc_neutral sofar (.promoted target locals) (answer (.promoted target locals)) (by simp) (by simp)
    replace hm := hm.trans hmigrated
    replace hr := (not_congr hr).mpr hrestored
    cases ha : answer (.promoted target locals) with
    | threw e =>
      rw [ha] at hm hr
      exact settles_after n _ hm hr _ e
    | returned ok =>
      rw [ha] at hm hr
      cases ok with
      | false => exact settles_after n _ hm hr _ postPromotionUnhealthy
      | true => exact hend _ _ _
  · rw [Bool.not_eq_true] at hh
    simp only [hh]
    exact hend _ _ _

theorem settles_candidate
    (hfinish : ∃ order, compareVersions target.toVersion (before.state.highestEverInstalled.orElse (.text "0.0.0")) = .ok order) :
    Settles answer before sofar (drive config answer (n + 4) (startCandidate config { before with saved := saved } target locals))
      (match unhealthy config answer (.candidate target locals) candidateUnhealthy with
        | some e => some (false, locals, e)
        | none =>
          (unhealthy config answer (.promoted target locals) postPromotionUnhealthy).map fun e ↦ (true, locals, e)) := by
  by_cases hh : config.healthCheck = true
  · simp only [startCandidate, hh, if_true, drive_waits]
    apply Settles.cons
    obtain ⟨hm, hr⟩ := @Trace.snoc_neutral sofar (.candidate target locals) (answer (.candidate target locals)) (by simp) (by simp)
    replace hm := hm.trans hmigrated
    replace hr := (not_congr hr).mpr hrestored
    cases ha : answer (.candidate target locals) with
    | threw e =>
      rw [ha] at hm hr
      simp only [unhealthy, hh, if_true, ha]
      exact settles_before (n + 1) _ hm hr e
    | returned ok =>
      rw [ha] at hm hr
      cases ok with
      | false =>
        simp only [unhealthy, hh, if_true, ha]
        exact settles_before (n + 1) _ hm hr candidateUnhealthy
      | true =>
        have hnone : unhealthy config answer (.candidate target locals) candidateUnhealthy = none := by
          simp only [unhealthy, hh, if_true, ha]
        rw [hnone]
        exact settles_switch n _ hm hr hfinish
  · have hnone : unhealthy config answer (.candidate target locals) candidateUnhealthy = none := by
      simp only [unhealthy, hh]
      rfl
    simp only [startCandidate, hh, hnone]
    exact settles_switch (n + 1) _ hmigrated hrestored hfinish

end

theorem settles_migration (n : ℕ) {before : Manager} (saved : Option State) {target : Target} {restorable : Bool} {sofar : Trace}
    (hmigrated : ¬ sofar.Migrated) (hrestored : ¬ sofar.Restored)
    (hfinish : ∃ order, compareVersions target.toVersion (before.state.highestEverInstalled.orElse (.text "0.0.0")) = .ok order) :
    Settles answer before sofar
      (drive config answer (n + 6) (startMigration config { before with saved := saved } target ⟨restorable, false⟩))
      (failure config answer target restorable) := by
  unfold failure
  by_cases hmig : (target.requiresMigration && config.migrate) = true
  · simp only [startMigration, hmig, if_true, drive_waits]
    apply Settles.cons
    obtain ⟨hm, hr⟩ := @Trace.snoc_neutral sofar (.dryRun target ⟨restorable, false⟩)
      (answer (.dryRun target ⟨restorable, false⟩)) (by simp) (by simp)
    replace hm := (not_congr hm).mpr hmigrated
    replace hr := (not_congr hr).mpr hrestored
    cases hd : answer (.dryRun target ⟨restorable, false⟩) with
    | threw e =>
      simp only [unmigrated, hmig, if_true, hd]
      rw [hd] at hm hr
      exact settles_before (n + 3) _ (by simpa using hm) hr e
    | returned ok _ =>
      rw [hd] at hm hr
      simp only [resume, drive_waits]
      apply Settles.cons
      cases hg : answer (.migration target ⟨restorable, false⟩) with
      | threw e =>
        simp only [unmigrated, hmig, if_true, hd, hg]
        apply settles_before (n + 2) _ _ _ e
        · rw [Trace.migrated_append]
          simpa [Trace.Migrated] using hm
        · rw [Trace.restored_append]
          exact not_or.mpr ⟨hr, by simp [Trace.Restored]⟩
      | returned ok' _ =>
        have hnone : unmigrated config answer target ⟨restorable, false⟩ = none := by
          simp only [unmigrated, hmig, if_true, hd, hg]
        rw [hnone]
        apply settles_candidate n _ _ _ hfinish
        · rw [Trace.migrated_append]
          exact iff_of_true (.inr ⟨_, _, _, _, List.mem_singleton_self _⟩) rfl
        · rw [Trace.restored_append]
          exact not_or.mpr ⟨hr, by simp [Trace.Restored]⟩
  · rw [Bool.not_eq_true] at hmig
    have hnone : unmigrated config answer target ⟨restorable, false⟩ = none := by
      simp only [unmigrated, hmig]
      rfl
    simp only [startMigration, hmig, hnone]
    exact settles_candidate (n + 2) _ (by simpa using hmigrated) hrestored hfinish

end Rollback

theorem finish_ok {highest fromVersion version : Value} (h : Above version (highest.orElse fromVersion)) :
    ∃ order, compareVersions version (highest.orElse (.text "0.0.0")) = .ok order := by
  obtain ⟨a, b, ha, hb, -⟩ := above_iff.mp h
  have hzero : ∃ z, Version.parse (.text "0.0.0") = .ok z := by
    cases hz : Version.parse (.text "0.0.0") with
    | ok z => exact ⟨z, rfl⟩
    | error =>
      have hne : (Version.parse (.text "0.0.0")).isOk = true := by decide +kernel
      rw [hz] at hne
      cases hne
  have hright : ∃ z, Version.parse (highest.orElse (.text "0.0.0")) = .ok z := by
    cases highest with
    | undefined => exact hzero
    | null => exact hzero
    | _ => exact ⟨b, hb⟩
  obtain ⟨z, hz⟩ := hright
  exact ⟨_, compareVersions_of_parse ha hz⟩

theorem applyCall_ends {Key : Type} (host : Host Key) (config : Config) (answer : Waiting → Reply)
    (around : Surroundings Key) (watchdog : Option Thrown) (before : Manager) (waiting : Waiting) :
    (before.applyCall config answer host around watchdog).2.2 ≠ .waits waiting := by
  rcases apply_cases host before around watchdog with ⟨e, he⟩ | ⟨staged, verified, hs, ha, rfl, hv⟩
  · rw [applyCall, he, drive_threw]
    exact fun h ↦ by cases h
  rw [applyCall, apply_begins hs ha hv, drive_waits]
  by_cases hb : config.backup = true ∧ ∃ restorable, answer (.backup (before.target verified)) = .returned true restorable
  · obtain ⟨hb, restorable, hreply⟩ := hb
    obtain ⟨-, hversion, hto, -⟩ := verifyBundle_ok hv
    have hsettles := @settles_migration config answer 0 before (some before.state) (before.target verified) restorable []
      Trace.not_migrated_nil Trace.not_restored_nil (finish_ok (hto ▸ (checkVersion_ok hversion).2))
    rw [hreply]
    simp only [resume, hb, if_true]
    intro h
    cases hf : failure config answer (before.target verified) restorable with
    | none =>
      rw [hf] at hsettles
      obtain ⟨v, hv⟩ := hsettles
      exact Progress.noConfusion (h.symm.trans hv)
    | some =>
      rw [hf] at hsettles
      obtain ⟨⟨e, he⟩, -⟩ := hsettles
      exact Progress.noConfusion (h.symm.trans he)
  · obtain ⟨saved, e, -, he⟩ := backup_refused before (before.target verified) hb
    rw [he, drive_threw]
    exact fun h ↦ by cases h

/-- Whatever the state and whatever the callbacks do, an `apply` that throws leaves the installation as it was
exactly where the rollback recovers it. -/
theorem apply_unharmed_iff {Key : Type} (host : Host Key) (config : Config) (answer : Waiting → Reply)
    (around : Surroundings Key) (watchdog : Option Thrown) (before after : Manager) (trace : Trace) (e : Thrown)
    (h : before.applyCall config answer host around watchdog = (trace, after, .threw e)) :
    Unharmed before after trace ↔ before.Recoverable config answer host around watchdog := by
  -- A refusal before the backup, or because of it, changes `state.json` at most.
  have hearly : ∀ saved trace, ¬ trace.Migrated → Unharmed before { before with saved := saved } trace :=
    fun saved trace hm ↦ ⟨rfl, rfl, rfl, fun h ↦ absurd h hm⟩
  rcases apply_cases host before around watchdog with ⟨e', he⟩ | ⟨staged, verified, hs, ha, rfl, hv⟩
  · rw [applyCall, he, drive_threw] at h
    cases h
    refine iff_of_true (hearly _ _ Trace.not_migrated_nil) ?_
    intro staged verified restorable hs ha hw hv
    subst hw
    rw [apply_begins hs ha hv] at he
    cases he
  have hno : ∀ reply, ¬ Trace.Migrated [(.backup (before.target verified), reply)] := by
    intro reply
    simp [Trace.Migrated]
  have hno' : ∀ reply, ¬ Trace.Restored [(.backup (before.target verified), reply)] := by
    intro reply
    simp [Trace.Restored]
  rw [applyCall, apply_begins hs ha hv, drive_waits] at h
  by_cases hb : config.backup = true ∧ ∃ restorable, answer (.backup (before.target verified)) = .returned true restorable
  · obtain ⟨hb, restorable, hreply⟩ := hb
    obtain ⟨-, hversion, hto, -⟩ := verifyBundle_ok hv
    have hfinish := finish_ok (hto ▸ (checkVersion_ok hversion).2)
    have hsettles := @settles_migration config answer 0 before (some before.state) (before.target verified) restorable
      [(.backup (before.target verified), answer (.backup (before.target verified)))] (hno _) (hno' _) hfinish
    have hresume : before.resume config (.backup (before.target verified)) (answer (.backup (before.target verified))) =
        startMigration config { before with saved := some before.state } (before.target verified) ⟨restorable, false⟩ := by
      rw [hreply]
      simp only [resume, hb, if_true]
      rfl
    rw [← hresume] at hsettles
    replace hsettles := @Settles.cons answer before [] _ _ _ hsettles
    rw [h] at hsettles
    cases hf : failure config answer (before.target verified) restorable with
    | none =>
      rw [hf] at hsettles
      obtain ⟨v, hv⟩ := hsettles
      cases hv
    | some f =>
      obtain ⟨switched, locals, thrown⟩ := f
      rw [hf] at hsettles
      refine hsettles.2.trans ⟨fun hrec ↦ ?_, fun hall ↦ hall staged verified restorable hs ha rfl hv hb hreply _ _ _ hf⟩
      intro staged' verified' restorable' hs' _ _ hv' _ hreply' switched' locals' e' hf'
      rw [hs] at hs'
      cases hs'
      rw [hv] at hv'
      cases hv'
      rw [hreply] at hreply'
      cases hreply'
      rw [hf] at hf'
      cases hf'
      exact hrec
  · obtain ⟨saved, e', -, he⟩ := backup_refused before (before.target verified) hb
    rw [he, drive_threw] at h
    cases h
    refine iff_of_true (hearly _ _ (hno _)) ?_
    intro staged' verified' restorable' hs' _ _ hv' hb' hreply'
    rw [hs] at hs'
    cases hs'
    rw [hv] at hv'
    cases hv'
    exact absurd ⟨hb', restorable', hreply'⟩ hb

end Manager

namespace Sample

def config : Config := ⟨true, false, true⟩

def approved : List (Command Unit) := [.stage (some bundle) around around false Slot.empty, .approve (.text "APPLY UPDATE")]

def first : Machine := Run.after (Machine.step host config) (.start "0.6.0" Slot.empty Slot.empty Slot.empty) approved

def candidateFails : Waiting → Reply
  | .candidate _ _ => .returned false false
  | _ => .returned true true

def promotedFails : Waiting → Reply
  | .promoted _ _ => .returned false false
  | _ => .returned true true

theorem first_runs :
    (first.manager.applyCall config candidateFails host around none).2.2 =
        .threw (updateFailed "Candidate failed its health check." (some .candidateUnhealthy) (some 500)) ∧
      listFiles first.manager.previous.listing = [] ∧
      (first.manager.restored = first.manager.state.installedVersion ∧
        first.manager.restored = first.manager.currentVersion) ∧
      (first.manager.applyCall config promotedFails host around none).2.2 =
        .threw (updateFailed "Post-promotion verification failed." (some .postPromotionUnhealthy) (some 500)) ∧
      (first.manager.applyCall config promotedFails host around none).2.1.current ≠ first.manager.current := by
  decide +kernel

end Sample

theorem eq_of_threw {result : Trace × Manager × Progress} {e : Thrown} (h : result.2.2 = .threw e) :
    result = (result.1, result.2.1, .threw e) := by
  rw [← h]

theorem apply_unharmed_before_switch :
    Manager.Unharmed Sample.first.manager (Sample.first.manager.applyCall Sample.config Sample.candidateFails Sample.host Sample.around none).2.1
      (Sample.first.manager.applyCall Sample.config Sample.candidateFails Sample.host Sample.around none).1 := by
  obtain ⟨hthrew, hslots, hversions, -, -⟩ := Sample.first_runs
  refine (Manager.apply_unharmed_iff Sample.host Sample.config Sample.candidateFails Sample.around none Sample.first.manager _ _ _
    (eq_of_threw hthrew)).mpr ?_
  intro staged verified restorable _ _ _ _ _ _ switched locals e hfailure
  have hlocals : some (false, ⟨restorable, false⟩, candidateUnhealthy) = some (switched, locals, e) := by
    rw [← hfailure]
    simp [Manager.failure, Manager.unmigrated, Manager.unhealthy, Sample.config, Sample.candidateFails]
  cases hlocals
  exact ⟨.inl hslots, hversions.1, hversions.2, fun h ↦ by cases h⟩

/-- A first installation that fails after the switch stays where the switch put it. -/
theorem apply_harms_first_installation :
    ¬ ∀ (commands : List (Command Unit)) (answer : Waiting → Reply) (trace : Trace) (after : Manager) (e : Thrown),
      let before := (Run.after (Machine.step Sample.host Sample.config)
        (.start "0.6.0" Slot.empty Slot.empty Slot.empty) commands).manager
      before.applyCall Sample.config answer Sample.host Sample.around none = (trace, after, .threw e) →
        Manager.Unharmed before after trace := by
  intro hall
  obtain ⟨-, -, -, hthrew, hcurrent⟩ := Sample.first_runs
  have hfirst : ∀ trace after e, Sample.first.manager.applyCall Sample.config Sample.promotedFails Sample.host Sample.around none =
      (trace, after, .threw e) → Manager.Unharmed Sample.first.manager after trace := hall Sample.approved Sample.promotedFails
  exact hcurrent (hfirst _ _ _ (eq_of_threw hthrew)).current

end Noesar.Updates
