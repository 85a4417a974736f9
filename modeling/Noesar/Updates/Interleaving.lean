import Mathlib
import Noesar.Updates.Manager
import Noesar.Updates.Payload

namespace Noesar.Updates

open Lib Lib.Framing Relation

/-- An `apply` under way: what it works on, and whether it has switched the slots. -/
structure Call where
  target : Target
  switched : Bool
  deriving DecidableEq

def Waiting.call : Waiting → Option Call
  | .backup target => some ⟨target, false⟩
  | .dryRun target _ => some ⟨target, false⟩
  | .migration target _ => some ⟨target, false⟩
  | .candidate target _ => some ⟨target, false⟩
  | .promoted target _ => some ⟨target, true⟩
  | .restore _ => none
  | .rolledBack _ => none

def Progress.call : Progress → Option Call
  | .waits waiting => waiting.call
  | _ => none

namespace Manager

def records (m : Manager) : List State := m.state :: m.saved.toList

theorem state_mem_records (m : Manager) : m.state ∈ m.records := List.mem_cons_self

structure Quiet (m m' : Manager) : Prop where
  staging : m'.staging = m.staging
  log : m'.log = m.log
  highest : m'.state.highestEverInstalled = m.state.highestEverInstalled
  staged : m'.state.staged = m.state.staged ∨ m'.state.staged = none
  saved : m'.saved = m.saved ∨ m'.saved = some m.state ∨ m'.saved = some m'.state

structure Switches (target : Target) (m m' : Manager) : Prop where
  staging : m'.staging = Slot.empty
  log : m'.log = { m.log with
    promotions := m.log.promotions ++ [⟨m.staging, target.approved, target.verified, target.toVersion⟩] }
  highest : m'.state.highestEverInstalled = m.state.highestEverInstalled
  staged : m'.state.staged = m.state.staged
  saved : m'.saved = some m'.state

/-- The end of an `apply` that went through. -/
structure Finishes (target : Target) (m m' : Manager) : Prop where
  staging : m'.staging = m.staging
  log : m'.log = { m.log with
    applied := m.log.applied ++ [⟨target.verified, target.toVersion, target.toVersion, m'.state.highestEverInstalled⟩] }
  highest : ∃ order, compareVersions target.toVersion (m.state.highestEverInstalled.orElse (.text "0.0.0")) = .ok order ∧
    m'.state.highestEverInstalled = if order = .gt then target.toVersion else m.state.highestEverInstalled
  staged : m'.state.staged = none
  saved : m'.saved = some m'.state

/-- What a suspended call can do to the manager, and what becomes of the call. -/
inductive Move : Manager × Option Call → Manager × Option Call → Prop
  | quiet {m m' : Manager} {call call' : Option Call} (h : Quiet m m') (hcall : call' = call ∨ call' = none) :
      Move (m, call) (m', call')
  | switches {m m' : Manager} {target : Target} (h : Switches target m m') :
      Move (m, some ⟨target, false⟩) (m', some ⟨target, true⟩)
  | finishes {m m' : Manager} {target : Target} (h : Finishes target m m') :
      Move (m, some ⟨target, true⟩) (m', none)

abbrev Moves := ReflTransGen Move

theorem Quiet.refl (m : Manager) : Quiet m m := ⟨rfl, rfl, rfl, .inl rfl, .inl rfl⟩

theorem quiet_save (m : Manager) : Quiet m m.save := ⟨rfl, rfl, rfl, .inl rfl, .inr (.inl rfl)⟩

variable {m' : Manager} {state : State}

theorem Moves.of_quiet {m : Manager} {call call' : Option Call} (h : Quiet m m') (hcall : call' = call ∨ call' = none) :
    Moves (m, call) (m', call') := .single (.quiet h hcall)

section

variable {config : Config}

theorem finish_moves (m : Manager) (target : Target) :
    Moves (m, some ⟨target, true⟩) ((finish m target).1, (finish m target).2.call) := by
  unfold finish
  simp only
  split
  · exact .of_quiet ⟨rfl, rfl, rfl, .inl rfl, .inl rfl⟩ (.inr rfl)
  next order horder => exact .single (.finishes ⟨rfl, rfl, ⟨order, horder, rfl⟩, rfl, rfl⟩)

theorem rolledBack_moves (m : Manager) (undo : Undo) (call : Option Call) :
    Moves (m, call) ((rolledBack m undo).1, (rolledBack m undo).2.call) := by
  unfold rolledBack
  split
  · exact .of_quiet (quiet_save m) (.inr rfl)
  · exact .of_quiet (quiet_save m) (.inr rfl)

theorem settle_moves (m : Manager) (undo : Undo) (call : Option Call) :
    Moves (m, call) ((settle config m undo).1, (settle config m undo).2.call) := by
  have hset : Quiet m { m with
      state := { m.state with installedVersion := undo.restored, staged := none }, currentVersion := undo.restored } :=
    ⟨rfl, rfl, rfl, .inr rfl, .inl rfl⟩
  unfold settle
  simp only
  split
  · exact .of_quiet hset (.inr rfl)
  · exact .head (.quiet hset (.inl rfl)) (rolledBack_moves _ undo call)

theorem rollback_moves (m : Manager) (restoreWorkspace restorable : Bool) (cause : Option Thrown) (call : Option Call) :
    Moves (m, call) ((rollback config m restoreWorkspace restorable cause).1,
      (rollback config m restoreWorkspace restorable cause).2.call) := by
  have hslot : Quiet m (if listFiles m.previous.listing ≠ [] then { m with current := m.previous } else m) := by
    split
    · exact ⟨rfl, rfl, rfl, .inl rfl, .inl rfl⟩
    · exact .refl m
  unfold rollback
  simp only
  split
  · exact .of_quiet hslot (.inr rfl)
  · exact .head (.quiet hslot (.inl rfl)) (settle_moves _ _ call)

theorem caught_moves (m : Manager) (locals : Locals) (e : Thrown) (call : Option Call) :
    Moves (m, call) ((caught config m locals e).1, (caught config m locals e).2.call) := by
  unfold caught
  split
  · exact .of_quiet (.refl m) (.inr rfl)
  · exact rollback_moves m _ _ _ call

theorem switch_moves (m : Manager) (target : Target) (locals : Locals) :
    Moves (m, some ⟨target, false⟩) ((switch config m target locals).1, (switch config m target locals).2.call) := by
  have hswitch : Move (m, some ⟨target, false⟩) (promote m.save target, some ⟨target, true⟩) :=
    .switches ⟨rfl, rfl, rfl, rfl, rfl⟩
  unfold switch
  simp only
  split
  · exact .single hswitch
  · exact .head hswitch (.head (.quiet (quiet_save _) (.inl rfl)) (finish_moves _ target))

theorem startCandidate_moves (m : Manager) (target : Target) (locals : Locals) :
    Moves (m, some ⟨target, false⟩)
      ((startCandidate config m target locals).1, (startCandidate config m target locals).2.call) := by
  unfold startCandidate
  split
  · exact .refl
  · exact switch_moves m target locals

theorem startMigration_moves (m : Manager) (target : Target) (locals : Locals) :
    Moves (m, some ⟨target, false⟩)
      ((startMigration config m target locals).1, (startMigration config m target locals).2.call) := by
  unfold startMigration
  split
  · exact .refl
  · exact startCandidate_moves m target locals

theorem resume_moves (m : Manager) (waiting : Waiting) (reply : Reply) :
    Moves (m, waiting.call) ((m.resume config waiting reply).1, (m.resume config waiting reply).2.call) := by
  cases waiting with
  | backup target =>
    by_cases hb : config.backup = true ∧ ∃ restorable, reply = .returned true restorable
    · obtain ⟨hb, restorable, rfl⟩ := hb
      simp only [resume, hb, if_true]
      exact .head (.quiet (quiet_save m) (.inl rfl)) (startMigration_moves _ target _)
    · obtain ⟨saved, e, hsaved, he⟩ := backup_refused m target hb
      rw [he]
      exact .of_quiet ⟨rfl, rfl, rfl, .inl rfl, hsaved.imp_right .inl⟩ (.inr rfl)
  | dryRun target locals =>
    cases reply with
    | threw e => exact caught_moves m locals e _
    | returned => exact .refl
  | migration target locals =>
    cases reply with
    | threw e => exact caught_moves m locals e _
    | returned => exact .head (.quiet (quiet_save m) (.inl rfl)) (startCandidate_moves _ target _)
  | candidate target locals =>
    cases reply with
    | threw e => exact caught_moves m locals e _
    | returned ok =>
      cases ok with
      | false => exact caught_moves m locals candidateUnhealthy _
      | true => exact switch_moves m target locals
  | promoted target locals =>
    cases reply with
    | threw e => exact caught_moves m locals e _
    | returned ok =>
      cases ok with
      | false => exact caught_moves m locals postPromotionUnhealthy _
      | true => exact .head (.quiet (quiet_save m) (.inl rfl)) (finish_moves _ target)
  | restore undo =>
    cases reply with
    | threw => exact .of_quiet (.refl m) (.inr rfl)
    | returned => exact settle_moves m undo none
  | rolledBack undo =>
    cases reply with
    | threw => exact .of_quiet (.refl m) (.inr rfl)
    | returned => exact rolledBack_moves m undo none

end

theorem Moves.of_none {m : Manager} {call' : Option Call} (h : Moves (m, none) (m', call')) :
    call' = none ∧ ReflTransGen Quiet m m' := by
  suffices hs : ∀ x y, Moves x y → x.2 = none → y.2 = none ∧ ReflTransGen Quiet x.1 y.1 from hs _ _ h rfl
  intro x y hxy hx
  induction hxy with
  | refl => exact ⟨hx, .refl⟩
  | tail _ hmove ih =>
    obtain ⟨hnone, hquiet⟩ := ih
    cases hmove with
    | quiet h hcall =>
      subst hnone
      exact ⟨hcall.elim id id, hquiet.tail h⟩
    | switches => cases hnone
    | finishes => cases hnone

section

variable {J : Manager → Option Call → Prop}

def Kept (J : Manager → Option Call → Prop) : Prop := ∀ x y, Move x y → J x.1 x.2 → J y.1 y.2

theorem Kept.moves (hkept : Kept J) {m m' : Manager} {call call' : Option Call} (h : Moves (m, call) (m', call'))
    (hJ : J m call) : J m' call' := by
  suffices hs : ∀ x y, Moves x y → J x.1 x.2 → J y.1 y.2 from hs _ _ h hJ
  intro x y hxy hx
  induction hxy with
  | refl => exact hx
  | tail _ hmove ih => exact hkept _ _ hmove ih

theorem Kept.quiet (hkept : Kept J) {m m' : Manager} {call : Option Call} (h : ReflTransGen Quiet m m') (hJ : J m call) :
    J m' call := by
  induction h with
  | refl => exact hJ
  | tail _ hq ih => exact hkept (_, call) (_, call) (.quiet hq (.inl rfl)) ih

end

theorem Quiet.records {m : Manager} (h : Quiet m m') (hs : state ∈ m'.records) :
    state ∈ m.records ∨ state = m'.state := by
  rcases List.mem_cons.mp hs with rfl | hs
  · exact .inr rfl
  · rcases h.saved with he | he | he
    · rw [he] at hs
      exact .inl (List.mem_cons_of_mem _ hs)
    · rw [he] at hs
      simp only [Option.toList_some, List.mem_singleton] at hs
      exact .inl (by simp [Manager.records, hs])
    · rw [he] at hs
      simp only [Option.toList_some, List.mem_singleton] at hs
      exact .inr hs

theorem eq_of_mem_records {m : Manager} (hsaved : m.saved = some m.state) (hs : state ∈ m.records) :
    state = m.state := by
  simpa [Manager.records, hsaved] using hs

/-- The highest version is known, and an `apply` under way goes above it. -/
structure Ahead (m : Manager) (call : Option Call) : Prop where
  definite : ∀ state ∈ m.records, ∀ other, state.highestEverInstalled.orElse other = state.highestEverInstalled
  above : ∀ c, call = some c → Above c.target.toVersion m.state.highestEverInstalled

theorem orElse_of_above {version earlier : Value} (h : Above version earlier) (other : Value) :
    version.orElse other = version := by
  obtain ⟨a, b, ha, -, -⟩ := above_iff.mp h
  cases version with
  | undefined =>
    have hno : (Version.parse .undefined).isOk = false := by decide +kernel
    rw [ha] at hno
    cases hno
  | null =>
    have hno : (Version.parse .null).isOk = false := by decide +kernel
    rw [ha] at hno
    cases hno
  | _ => rfl

theorem Ahead.finishes {m m' : Manager} {target : Target} {switched : Bool} (h : Ahead m (some ⟨target, switched⟩))
    (hfinishes : Finishes target m m') : m'.state.highestEverInstalled = target.toVersion := by
  obtain ⟨order, horder, hhighest⟩ := hfinishes.highest
  have habove := h.above _ rfl
  rw [h.definite m.state (state_mem_records _)] at horder
  rw [Above, horder] at habove
  cases habove
  exact hhighest

theorem kept_ahead : Kept Ahead := by
  intro x y hmove h
  cases hmove with
  | quiet hquiet hcall =>
    refine ⟨fun state hs ↦ ?_, fun c hc ↦ ?_⟩
    · rcases hquiet.records hs with hs | rfl
      · exact h.definite state hs
      · rw [hquiet.highest]
        exact h.definite _ (state_mem_records _)
    · rcases hcall with rfl | rfl
      · rw [hquiet.highest]
        exact h.above c hc
      · cases hc
  | switches hs =>
    refine ⟨fun state hstate ↦ ?_, fun c hc ↦ ?_⟩
    · rw [eq_of_mem_records hs.saved hstate, hs.highest]
      exact h.definite _ (state_mem_records _)
    · cases hc
      rw [hs.highest]
      exact h.above ⟨_, false⟩ rfl
  | finishes hf =>
    refine ⟨fun state hstate ↦ ?_, fun c hc ↦ by cases hc⟩
    rw [eq_of_mem_records hf.saved hstate, h.finishes hf]
    exact orElse_of_above (h.above _ rfl)

theorem Ahead.congr {m : Manager} {call : Option Call} (h : Ahead m call)
    (hhighest : m'.state.highestEverInstalled = m.state.highestEverInstalled)
    (hsaved : m'.saved = m.saved ∨ m'.saved = some m'.state) : Ahead m' call := by
  have hstate : ∀ other, m'.state.highestEverInstalled.orElse other = m'.state.highestEverInstalled := by
    rw [hhighest]
    exact h.definite m.state (state_mem_records _)
  refine ⟨fun state hs ↦ ?_, fun c hc ↦ hhighest ▸ h.above c hc⟩
  rcases List.mem_cons.mp hs with rfl | hs
  · exact hstate
  · rcases hsaved with he | he
    · exact h.definite state (List.mem_cons_of_mem _ (he ▸ hs))
    · rw [he] at hs
      simp only [Option.toList_some, List.mem_singleton] at hs
      exact hs ▸ hstate

theorem Ahead.begins {m : Manager}
    {verified : Verified} (h : Ahead m none) (habove : Above verified.version m.state.highestEverInstalled) :
    Ahead m (some ⟨m.target verified, false⟩) := by
  refine ⟨h.definite, fun c hc ↦ ?_⟩
  cases hc
  exact habove

theorem ahead_initial (currentVersion : String) (current previous staging : Slot) :
    Ahead (initial currentVersion current previous staging) none := by
  refine ⟨fun state hs _ ↦ ?_, fun c hc ↦ by cases hc⟩
  rw [List.mem_singleton.mp hs]
  rfl

theorem mem_records_restart {m : Manager} {currentVersion : String} {readable : Bool}
    (hs : state ∈ (m.restart currentVersion readable).records) :
    state ∈ m.saved.toList ∨ state = .initial currentVersion ∧ (readable = false ∨ m.saved = none) := by
  cases readable with
  | false =>
    simp only [records, restart, Bool.false_eq_true, if_false, Option.getD_none, Option.toList_none,
      List.mem_singleton] at hs
    exact .inr ⟨hs, .inl rfl⟩
  | true =>
    cases hm : m.saved with
    | none =>
      simp only [records, restart, if_true, hm, Option.getD_none, Option.toList_none, List.mem_singleton] at hs
      exact .inr ⟨hs, .inr rfl⟩
    | some =>
      simp only [records, restart, if_true, hm, Option.getD_some, Option.toList_some, List.mem_cons, List.not_mem_nil,
        or_false, or_self] at hs
      exact .inl (by simp [hs])

theorem ahead_restart {m : Manager} {call : Option Call} (h : Ahead m call) (currentVersion : String) (readable : Bool) :
    Ahead (m.restart currentVersion readable) none := by
  refine ⟨fun state hs ↦ ?_, fun c hc ↦ by cases hc⟩
  rcases mem_records_restart hs with hs | ⟨rfl, -⟩
  · exact h.definite state (List.mem_cons_of_mem _ hs)
  · exact fun _ ↦ rfl

/-- An `apply` begins: it is approved, let pass, and its verification accepts what lies in `staging`. -/
def Begins {Key : Type} (host : Host Key) (around : Surroundings Key) (watchdog : Option Thrown) (m : Manager)
    (verified : Verified) : Prop :=
  ∃ staged, m.state.staged = some staged ∧ staged.approved = true ∧ watchdog = none ∧
    verifyBundle host around m.state.standing staged.channel m.staging = .ok verified

theorem Begins.above {Key : Type} {host : Host Key} {around : Surroundings Key} {watchdog : Option Thrown} {m : Manager}
    {verified : Verified} (h : Begins host around watchdog m verified)
    (hdefinite : ∀ other, m.state.highestEverInstalled.orElse other = m.state.highestEverInstalled) :
    Above verified.version m.state.highestEverInstalled := by
  obtain ⟨staged, -, -, -, hverify⟩ := h
  obtain ⟨-, hversion, hto, -⟩ := verifyBundle_ok hverify
  have habove := (checkVersion_ok hversion).2
  rw [State.standing, hdefinite] at habove
  rw [hto]
  exact habove

section

variable {Key : Type} {host : Host Key} {m : Manager} {around again : Surroundings Key} {stops : Bool} {left : Slot}

theorem begins_or_refuses (m : Manager) (around : Surroundings Key) (watchdog : Option Thrown) :
    (∃ e, m.apply host around watchdog = (m, .threw e)) ∨
      ∃ verified, Begins host around watchdog m verified ∧
        m.apply host around watchdog = (m, .waits (.backup (m.target verified))) := by
  rcases apply_cases host m around watchdog with he | ⟨staged, verified, hs, ha, rfl, hv⟩
  · exact .inl he
  · exact .inr ⟨verified, ⟨staged, hs, ha, rfl, hv⟩, apply_begins hs ha hv⟩

/-- A bundle gets past the first verification of `stage`. -/
def Admits (host : Host Key) (around : Surroundings Key) (m : Manager) (bundle : Option Bundle) : Prop :=
  ∃ b verified, bundle = some b ∧ verifyBundle host around m.state.standing m.state.channel b = .ok verified

/-- A bundle lands in `staging` whole and is accepted there. -/
def Lands (host : Host Key) (again : Surroundings Key) (m : Manager) (bundle : Option Bundle) (stops : Bool)
    (landed : Slot) (restaged : Verified) : Prop :=
  stops = false ∧ bundle.bind cpSync = some landed ∧
    verifyBundle host again m.state.standing m.state.channel landed = .ok restaged

/-- The manager after a `stage` that went through. -/
def holding (m : Manager) (landed : Slot) (restaged : Verified) : Manager :=
  save { m with
    staging := landed
    state := { m.state with staged := some ⟨restaged.version, m.state.channel, false⟩ }
    log := { m.log with staged := some landed } }

theorem stage_cases (bundle : Option Bundle) :
    (∃ e, m.stage host bundle around again stops left = (m, .threw e)) ∨
      (Admits host around m bundle ∧ (¬ ∃ landed restaged, Lands host again m bundle stops landed restaged) ∧
        ∃ staging e, m.stage host bundle around again stops left = ({ m with staging := staging }, .threw e)) ∨
      Admits host around m bundle ∧ ∃ landed restaged, Lands host again m bundle stops landed restaged ∧
        m.stage host bundle around again stops left = (m.holding landed restaged, .returned restaged.version) := by
  cases bundle with
  | none => exact .inl ⟨_, rfl⟩
  | some b =>
    cases hv : verifyBundle host around m.state.standing m.state.channel b with
    | error e => exact .inl ⟨e, by simp only [stage, hv]⟩
    | ok verified =>
      have hadmits : Admits host around m (some b) := ⟨b, verified, rfl, hv⟩
      cases hl : if stops then none else cpSync b with
      | none =>
        refine .inr (.inl ⟨hadmits, ?_, left, copyError, by simp only [stage, hv, hl]⟩)
        rintro ⟨landed, restaged, rfl, hland, -⟩
        simp only [Bool.false_eq_true, if_false] at hl
        simp [hl] at hland
      | some landed =>
        have hstops : stops = false := by
          cases stops with
          | false => rfl
          | true => cases hl
        subst hstops
        simp only [Bool.false_eq_true, if_false] at hl
        cases ha : verifyBundle host again m.state.standing m.state.channel landed with
        | error e =>
          refine .inr (.inl ⟨hadmits, ?_, landed, e, by simp [stage, hv, hl, ha]⟩)
          rintro ⟨landed', restaged, -, hland, hok⟩
          simp only [Option.bind_some, hl, Option.some.injEq] at hland
          subst hland
          rw [ha] at hok
          cases hok
        | ok restaged =>
          exact .inr (.inr ⟨hadmits, landed, restaged, ⟨rfl, by simp [hl], ha⟩, by simp [stage, hv, hl, ha, holding]⟩)

end

end Manager

namespace Machine

def inFlight (s : Machine) : List Call := s.waiting.filterMap Waiting.call

/-- At most one `apply` is under way, and the property holds of the manager and of it. -/
def Holds (J : Manager → Option Call → Prop) (s : Machine) : Prop :=
  ∃ call : Option Call, s.inFlight = call.toList ∧ J s.manager call

section

variable {α β : Type} {f : α → Option β}

theorem filterMap_eraseIdx_none {xs : List α} {i : ℕ} {x : α} (hx : xs[i]? = some x) (hf : f x = none) :
    (xs.eraseIdx i).filterMap f = xs.filterMap f := by
  induction xs generalizing i with
  | nil => rfl
  | cons y ys ih =>
    cases i with
    | zero =>
      simp only [List.getElem?_cons_zero, Option.some.injEq] at hx
      subst hx
      simp [hf]
    | succ => simp only [List.eraseIdx_cons_succ, List.filterMap_cons, ih hx]

theorem length_filterMap_eraseIdx {xs : List α} {i : ℕ} {x : α} {y : β} (hx : xs[i]? = some x) (hf : f x = some y) :
    y ∈ xs.filterMap f ∧ (xs.filterMap f).length = ((xs.eraseIdx i).filterMap f).length + 1 := by
  refine ⟨List.mem_filterMap.mpr ⟨x, List.mem_of_getElem? hx, hf⟩, ?_⟩
  induction xs generalizing i with
  | nil => cases hx
  | cons z zs ih =>
    cases i with
    | zero =>
      simp only [List.getElem?_cons_zero, Option.some.injEq] at hx
      subst hx
      simp [hf]
    | succ =>
      have h := ih hx
      simp only [List.eraseIdx_cons_succ, List.filterMap_cons]
      cases f z with
      | none => exact h
      | some => simp only [List.length_cons, h]

end

variable {Key : Type} {host : Host Key} {config : Config} {J : Manager → Option Call → Prop}

theorem inFlight_goOn (s : Machine) (outcome : Manager × Progress) (rest : List Waiting) :
    (s.goOn outcome rest).inFlight = rest.filterMap Waiting.call ++ outcome.2.call.toList := by
  simp only [inFlight, goOn, List.filterMap_append]
  congr 1
  cases outcome.2 with
  | waits waiting => cases hw : waiting.call <;> simp [Progress.waiting, Progress.call, hw]
  | returned => rfl
  | threw => rfl

variable {s : Machine}

theorem Holds.resume (hkept : Manager.Kept J) (h : Holds J s) (index : ℕ) (reply : Reply) :
    Holds J (s.step host config (.resume index reply)) := by
  obtain ⟨call, hcall, hJ⟩ := h
  simp only [step]
  cases hw : s.waiting[index]? with
  | none => exact ⟨call, hcall, hJ⟩
  | some waiting =>
    have hgo := @Manager.resume_moves config s.manager waiting reply
    cases hc : waiting.call with
    | none =>
      rw [hc] at hgo
      obtain ⟨hnone, hquiet⟩ := hgo.of_none
      refine ⟨call, ?_, hkept.quiet hquiet hJ⟩
      rw [inFlight_goOn, hnone, filterMap_eraseIdx_none hw hc, ← hcall]
      simp [inFlight]
    | some c =>
      obtain ⟨hin, hlen⟩ := length_filterMap_eraseIdx hw hc
      change c ∈ s.inFlight at hin
      change s.inFlight.length = _ at hlen
      rw [hcall] at hin hlen
      cases call with
      | none => cases hin
      | some =>
        simp only [Option.toList_some, List.mem_singleton] at hin
        subst hin
        rw [hc] at hgo
        refine ⟨_, ?_, hkept.moves hgo hJ⟩
        have hnil : (s.waiting.eraseIdx index).filterMap Waiting.call = [] := by
          apply List.eq_nil_of_length_eq_zero
          simpa using hlen.symm
        rw [inFlight_goOn, hnil, List.nil_append]

theorem Holds.goOn {call : Option Call} (hcall : s.inFlight = call.toList) {outcome : Manager × Progress}
    (hnone : outcome.2.call = none) (hJ : J outcome.1 call) : Holds J (s.goOn outcome s.waiting) := by
  refine ⟨call, ?_, hJ⟩
  rw [inFlight_goOn, hnone, ← hcall]
  simp [inFlight]

theorem Holds.rollback (hkept : Manager.Kept J) (h : Holds J s) (restoreWorkspace restorable : Bool) :
    Holds J (s.step host config (.rollback restoreWorkspace restorable)) := by
  obtain ⟨call, hcall, hJ⟩ := h
  obtain ⟨hnone, hquiet⟩ := (@Manager.rollback_moves config s.manager restoreWorkspace restorable none none).of_none
  exact .goOn hcall hnone (hkept.quiet hquiet hJ)

theorem Holds.setChannel (hkept : Manager.Kept J) (h : Holds J s) (channel : Value) :
    Holds J (s.step host config (.setChannel channel)) := by
  obtain ⟨call, hcall, hJ⟩ := h
  have hcases : (∃ e, s.manager.setChannel channel = (s.manager, .threw e)) ∨
      ∃ name, s.manager.setChannel channel = (Manager.save { s.manager with state := { s.manager.state with channel := name } },
        .returned s.manager.state.installedVersion) := by
    unfold Manager.setChannel
    split
    · exact .inl ⟨_, rfl⟩
    · simp only
      split
      · split
        · exact .inl ⟨_, rfl⟩
        · exact .inl ⟨_, rfl⟩
      · exact .inr ⟨_, rfl⟩
  rcases hcases with ⟨e, he⟩ | ⟨name, he⟩
  · simp only [step, he]
    exact .goOn hcall rfl hJ
  · have hquiet : Manager.Quiet s.manager (Manager.save { s.manager with state := { s.manager.state with channel := name } }) :=
      ⟨rfl, rfl, rfl, .inl rfl, .inr (.inr rfl)⟩
    simp only [step, he]
    exact .goOn hcall rfl (hkept.quiet (.single hquiet) hJ)

theorem Holds.apply (h : Holds J s) {around : Surroundings Key} {watchdog : Option Thrown}
    (halone : ∀ verified, s.manager.Begins host around watchdog verified → s.inFlight = [])
    (hbegins : ∀ verified, s.manager.Begins host around watchdog verified → J s.manager none →
      J s.manager (some ⟨s.manager.target verified, false⟩)) :
    Holds J (s.step host config (.apply around watchdog)) := by
  obtain ⟨call, hcall, hJ⟩ := h
  rcases @Manager.begins_or_refuses Key host s.manager around watchdog with ⟨e, he⟩ | ⟨verified, hverified, he⟩
  · simp only [step, he]
    exact .goOn hcall rfl hJ
  · have hempty := halone verified hverified
    cases call with
    | some =>
      rw [hcall] at hempty
      cases hempty
    | none =>
      simp only [step, he]
      refine ⟨some ⟨s.manager.target verified, false⟩, ?_, hbegins verified hverified hJ⟩
      rw [inFlight_goOn]
      change s.inFlight ++ _ = _
      rw [hempty]
      rfl

theorem Holds.record (hkept : Manager.Kept J) (h : Holds J s) : Holds J (s.step host config .record) := by
  obtain ⟨call, hcall, hJ⟩ := h
  exact ⟨call, hcall, hkept.quiet (.single (Manager.quiet_save s.manager)) hJ⟩

end Machine

end Noesar.Updates
