import Noesar.Updates.Interleaving
import Noesar.Updates.Failure

namespace Noesar.Updates

open Lib Lib.Framing

/-- `later` is a version at or above `earlier`. -/
def NotBelow (later earlier : Value) : Prop := ∃ order, compareVersions later earlier = .ok order ∧ order ≠ .lt

theorem notBelow_iff {later earlier : Value} :
    NotBelow later earlier ↔ ∃ a b, Version.parse later = .ok a ∧ Version.parse earlier = .ok b ∧ b.key ≤ a.key := by
  constructor
  · rintro ⟨order, horder, hne⟩
    obtain ⟨a, b, ha, hb, hreports⟩ := compareVersions_ok horder
    refine ⟨a, b, ha, hb, ?_⟩
    cases order with
    | lt => exact absurd rfl hne
    | eq => exact le_of_eq (Eq.symm hreports)
    | gt => exact le_of_lt hreports
  · rintro ⟨a, b, ha, hb, hle⟩
    refine ⟨_, compareVersions_of_parse ha hb, fun hlt ↦ ?_⟩
    have hreports := Version.compareFrom_reports a b
    rw [hlt] at hreports
    exact absurd hle (not_le_of_gt hreports)

theorem Above.notBelow {later earlier : Value} (h : Above later earlier) : NotBelow later earlier :=
  ⟨.gt, h, by decide⟩

theorem Above.notBelow_self {later earlier : Value} (h : Above later earlier) : NotBelow later later := by
  obtain ⟨a, b, ha, -, -⟩ := above_iff.mp h
  exact notBelow_iff.mpr ⟨a, a, ha, ha, le_refl _⟩

theorem Above.trans_notBelow {a b c : Value} (h : Above a b) (h' : NotBelow b c) : Above a c := by
  obtain ⟨x, y, hx, hy, hxy⟩ := above_iff.mp h
  obtain ⟨y', z, hy', hz, hyz⟩ := notBelow_iff.mp h'
  rw [hy] at hy'
  cases hy'
  exact above_iff.mpr ⟨x, z, hx, hz, lt_of_le_of_lt hyz hxy⟩

namespace Manager

/-- The versions applied so far increase, and every state that counts knows of the highest. -/
structure Increasing (m : Manager) (call : Option Call) : Prop where
  ahead : Ahead m call
  known : ∀ state ∈ m.records, ∀ x ∈ m.log.applied, NotBelow state.highestEverInstalled x.version
  increasing : m.log.applied.Pairwise fun earlier later ↦ Above later.version earlier.version

theorem kept_increasing : Kept Increasing := by
  intro x y hmove h
  have hahead := kept_ahead x y hmove h.ahead
  cases hmove with
  | quiet hquiet =>
    refine ⟨hahead, fun state hs ↦ ?_, hquiet.log ▸ h.increasing⟩
    rw [hquiet.log]
    rcases hquiet.records hs with hs | rfl
    · exact h.known state hs
    · rw [hquiet.highest]
      exact h.known _ (state_mem_records _)
  | switches hs =>
    refine ⟨hahead, fun state hstate ↦ ?_, ?_⟩
    · rw [eq_of_mem_records hs.saved hstate, hs.highest, hs.log]
      exact h.known _ (state_mem_records _)
    · rw [hs.log]
      exact h.increasing
  | @finishes m m' target hf =>
    have habove : ∀ x ∈ m.log.applied, Above target.toVersion x.version := by
      intro x hx
      exact (h.ahead.above _ rfl).trans_notBelow (h.known m.state (state_mem_records _) x hx)
    refine ⟨hahead, fun state hstate x hx ↦ ?_, ?_⟩
    · rw [eq_of_mem_records hf.saved hstate, h.ahead.finishes hf]
      rw [hf.log] at hx
      rcases List.mem_append.mp hx with hx | hx
      · exact (habove x hx).notBelow
      · rw [List.mem_singleton.mp hx]
        exact (h.ahead.above _ rfl).notBelow_self
    · rw [hf.log]
      refine List.pairwise_append.mpr ⟨h.increasing, List.pairwise_singleton _ _, ?_⟩
      intro x hx y hy
      rw [List.mem_singleton.mp hy]
      exact habove x hx

theorem Increasing.congr {m m' : Manager} {call : Option Call} (h : Increasing m call)
    (hhighest : m'.state.highestEverInstalled = m.state.highestEverInstalled) (happlied : m'.log.applied = m.log.applied)
    (hsaved : m'.saved = m.saved ∨ m'.saved = some m'.state) : Increasing m' call := by
  have hstate : ∀ x ∈ m'.log.applied, NotBelow m'.state.highestEverInstalled x.version := by
    rw [hhighest, happlied]
    exact h.known m.state (state_mem_records _)
  refine ⟨h.ahead.congr hhighest hsaved, fun state hs ↦ ?_, happlied ▸ h.increasing⟩
  rcases List.mem_cons.mp hs with rfl | hs
  · exact hstate
  · rcases hsaved with he | he
    · rw [happlied]
      exact h.known state (List.mem_cons_of_mem _ (he ▸ hs))
    · rw [he] at hs
      simp only [Option.toList_some, List.mem_singleton] at hs
      exact hs ▸ hstate

theorem Increasing.begins {Key : Type} {host : Host Key} {m : Manager} (h : Increasing m none) {around : Surroundings Key}
    {watchdog : Option Thrown} {verified : Verified} (hbegins : m.Begins host around watchdog verified) :
    Increasing m (some ⟨m.target verified, false⟩) :=
  ⟨h.ahead.begins (hbegins.above (h.ahead.definite _ (state_mem_records m))), h.known, h.increasing⟩

end Manager

namespace Machine

variable {Key : Type} {host : Host Key} {config : Config}

/-- No `apply` begins while another is under way, and the process is not started without its state under a
version below one that was applied. -/
def Remembers (host : Host Key) (s : Machine) : Command Key → Prop
  | .apply around watchdog => ∀ verified, s.manager.Begins host around watchdog verified → s.inFlight = []
  | .restart currentVersion readable => readable = false ∨ s.manager.saved = none →
      ∀ x ∈ s.manager.log.applied, NotBelow (.text currentVersion) x.version
  | _ => True

section

variable {s : Machine} (h : Holds Manager.Increasing s)

include h

theorem holds_increasing_stage (bundle : Option Bundle) (around again : Surroundings Key) (stops : Bool) (left : Slot) :
    Holds Manager.Increasing (s.step host config (.stage bundle around again stops left)) := by
  obtain ⟨call, hcall, hJ⟩ := h
  rcases @Manager.stage_cases Key host s.manager around again stops left bundle with
    ⟨e, he⟩ | ⟨-, -, staging, e, he⟩ | ⟨-, landed, restaged, -, he⟩
  · simp only [step, he]
    exact .goOn hcall rfl hJ
  · simp only [step, he]
    exact .goOn hcall rfl (hJ.congr rfl rfl (.inl rfl))
  · simp only [step, he]
    exact .goOn hcall rfl (hJ.congr rfl rfl (.inr rfl))

theorem holds_increasing_approve (confirmation : Value) : Holds Manager.Increasing (s.step host config (.approve
    confirmation)) := by
  obtain ⟨call, hcall, hJ⟩ := h
  simp only [step, Manager.approve]
  split
  · exact .goOn hcall rfl hJ
  · split
    · exact .goOn hcall rfl hJ
    · exact .goOn hcall rfl (hJ.congr rfl rfl (.inr rfl))

theorem holds_increasing_restart {currentVersion : String} {readable : Bool} (hc : s.Remembers host (.restart
    currentVersion readable)) : Holds Manager.Increasing (s.step host config (.restart currentVersion readable)) := by
  obtain ⟨call, -, hJ⟩ := h
  refine ⟨none, rfl, Manager.ahead_restart hJ.ahead currentVersion readable, fun state hs x hx ↦ ?_, hJ.increasing⟩
  rcases Manager.mem_records_restart hs with hs | ⟨rfl, hlost⟩
  · exact hJ.known state (List.mem_cons_of_mem _ hs) x hx
  · exact hc hlost x hx

theorem holds_increasing_step {command : Command Key} (hc : s.Remembers host command) : Holds Manager.Increasing (s.step
    host config command) := by
  cases command with
  | setChannel channel => exact h.setChannel Manager.kept_increasing channel
  | record => exact h.record Manager.kept_increasing
  | stage bundle around again stops left => exact holds_increasing_stage h bundle around again stops left
  | approve confirmation => exact holds_increasing_approve h confirmation
  | apply => exact h.apply hc fun _ hbegins hJ ↦ hJ.begins hbegins
  | rollback restoreWorkspace restorable => exact h.rollback Manager.kept_increasing restoreWorkspace restorable
  | resume index reply => exact h.resume Manager.kept_increasing index reply
  | restart => exact holds_increasing_restart h hc

end

theorem holds_increasing_start (currentVersion : String) (current previous staging : Slot) :
    Holds Manager.Increasing (start currentVersion current previous staging) := by
  exact ⟨none, rfl, Manager.ahead_initial currentVersion current previous staging, fun _ _ x hx ↦ (by cases hx), .nil⟩

/-- Over whole histories, restarts and rollbacks included, the applied versions increase, and what is accepted
is above all of them. -/
theorem applied_versions_increase (host : Host Key) (config : Config) (currentVersion : String)
    (current previous staging : Slot) (commands : List (Command Key))
    (h : Run.Along (step host config) (Remembers host) (start currentVersion current previous staging) commands) :
    let s := Run.after (step host config) (start currentVersion current previous staging) commands
    (s.manager.log.applied.Pairwise fun earlier later ↦ Above later.version earlier.version) ∧
      ∀ (σ : Type) (around : Surroundings Key) (channel : String) (dir : Directory σ) (verified : Verified),
        verifyBundle host around s.manager.state.standing channel dir = .ok verified →
          ∀ x ∈ s.manager.log.applied, Above verified.version x.version := by
  intro s
  obtain ⟨call, -, hJ⟩ : Holds Manager.Increasing s :=
    h.invariant (fun _ _ hs hc ↦ holds_increasing_step hs hc) (holds_increasing_start currentVersion current previous staging)
  refine ⟨hJ.increasing, fun σ around channel dir verified hv x hx ↦ ?_⟩
  obtain ⟨-, hversion, hto, -⟩ := verifyBundle_ok hv
  have habove := (checkVersion_ok hversion).2
  rw [State.standing, hJ.ahead.definite _ (Manager.state_mem_records _), ← hto] at habove
  exact habove.trans_notBelow (hJ.known _ (Manager.state_mem_records _) x hx)

end Machine

namespace Sample

def install (bundle : Bundle) : List (Command Unit) :=
  [.stage (some bundle) around around false Slot.empty, .approve (.text "APPLY UPDATE"), .apply around none,
    .resume 0 (.returned true true), .resume 0 (.returned true true), .resume 0 (.returned true true)]

theorem installs :
    (Run.after (Machine.step host config) (.start "0.6.0" Slot.empty Slot.empty Slot.empty) approved).inFlight = [] ∧
      (Run.after (Machine.step host config) (.start "0.6.0" Slot.empty Slot.empty Slot.empty)
        (install bundle)).manager.saved ≠ none := by
  decide +kernel

end Sample

theorem applied_versions_increase_over_restart :
    (Run.after (Machine.step Sample.host Sample.config) (.start "0.6.0" Slot.empty Slot.empty Slot.empty)
      (Sample.install Sample.bundle ++ [.restart "0.6.0" true])).manager.log.applied.Pairwise
        fun earlier later ↦ Above later.version earlier.version := by
  obtain ⟨hflight, hsaved⟩ := Sample.installs
  have halong : Run.Along (Machine.step Sample.host Sample.config) (Machine.Remembers Sample.host) (.start "0.6.0" Slot.empty Slot.empty Slot.empty)
      (Sample.install Sample.bundle ++ [.restart "0.6.0" true]) := by
    refine Run.Along.append.mpr ⟨⟨trivial, trivial, fun _ _ ↦ hflight, trivial, trivial, trivial, trivial⟩, ⟨?_, trivial⟩⟩
    intro hlost
    exact hlost.elim (fun h ↦ by cases h) (fun h ↦ absurd h hsaved)
  have hincrease := Machine.applied_versions_increase Sample.host Sample.config "0.6.0" Slot.empty Slot.empty Slot.empty
    (Sample.install Sample.bundle ++ [.restart "0.6.0" true]) halong
  exact hincrease.1

/-- Without its state file a manager takes a version it has applied before. -/
theorem lost_state_applies_again :
    ¬ ∀ commands : List (Command Unit),
      (Run.after (Machine.step Sample.host Sample.config) (.start "0.6.0" Slot.empty Slot.empty Slot.empty) commands).manager.log.applied.Pairwise
        fun earlier later ↦ Above later.version earlier.version := by
  intro hall
  have hagain := hall (Sample.install Sample.bundle ++ [.restart "0.6.0" false] ++ Sample.install Sample.bundle)
  revert hagain
  decide +kernel

end Noesar.Updates
