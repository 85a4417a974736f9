import Noesar.Updates.AntiRollback

namespace Noesar.Updates

open Lib Lib.Framing

section

variable {Key : Type} (host : Host Key)

/-- The bytes have passed `verifyBundle`, which read the version from them. -/
def Passed (content : Slot) (version : Value) : Prop :=
  ∃ around standing channel verified, verifyBundle host around standing channel content = .ok verified ∧
    verified.version = version

/-- What was installed is what was approved and verified, and its version is what was recorded. -/
structure Faithful (log : Log) : Prop where
  promotions : ∀ p ∈ log.promotions, p.approved = some p.copied ∧ p.verified = p.copied ∧ Passed host p.copied p.version
  applied : ∀ x ∈ log.applied, (∃ p ∈ log.promotions, p.copied = x.content ∧ p.version = x.version) ∧
    x.installedVersion = x.version ∧ x.highestEverInstalled = x.version

end

theorem not_verifies_empty {Key : Type} {host : Host Key} {around : Surroundings Key} {standing : Standing} {channel : String}
    {verified : Verified} : verifyBundle host around standing channel Slot.empty ≠ .ok verified := by
  intro h
  obtain ⟨hmanifest, -⟩ := verifyBundle_ok h
  obtain ⟨_, bytes, _, -, hread, -⟩ := readManifest_ok hmanifest
  cases hread

namespace Manager

variable {Key : Type} {host : Host Key}

/-- While a staged record is held `staging` holds what was staged, unless the slots have been switched since; an
approved record is the one that was approved last; and an `apply` that has not switched the slots yet finds in
`staging` what it verified. -/
structure Sound (host : Host Key) (m : Manager) (call : Option Call) : Prop where
  ahead : Ahead m call
  contents : ∀ state ∈ m.records, ∀ staged, state.staged = some staged →
    ∃ content, m.log.staged = some content ∧ (m.staging = content ∨ m.staging = Slot.empty)
  approved : ∀ state ∈ m.records, ∀ staged, state.staged = some staged → staged.approved → m.log.approved = m.log.staged
  passed : ∀ c, call = some c → Passed host c.target.verified c.target.toVersion ∧ c.target.approved = some c.target.verified
  unswitched : ∀ c, call = some c → c.switched = false → m.staging = c.target.verified
  switched : ∀ c, call = some c → c.switched = true →
    ∃ p ∈ m.log.promotions, p.copied = c.target.verified ∧ p.version = c.target.toVersion
  faithful : Faithful host m.log

variable {m : Manager} {call : Option Call}

theorem Quiet.staged_records {m' : Manager} (h : Quiet m m') {state : State} (hs : state ∈ m'.records)
    {staged : Staged} (hstaged : state.staged = some staged) : ∃ state₀ ∈ m.records, state₀.staged = some staged := by
  rcases h.records hs with hs | rfl
  · exact ⟨state, hs, hstaged⟩
  · rcases h.staged with he | he
    · exact ⟨m.state, state_mem_records m, he ▸ hstaged⟩
    · rw [he] at hstaged
      cases hstaged

theorem faithful_switches {m' : Manager} {target : Target} (h : Faithful host m.log) (hs : Switches target m m')
    (hstaging : m.staging = target.verified) (hpassed : Passed host target.verified target.toVersion)
    (happroved : target.approved = some target.verified) : Faithful host m'.log := by
  rw [hs.log]
  refine ⟨fun p hp ↦ ?_, fun x hx ↦ ?_⟩
  · rcases List.mem_append.mp hp with hp | hp
    · exact h.promotions p hp
    · rw [List.mem_singleton.mp hp, hstaging]
      exact ⟨happroved, rfl, hpassed⟩
  · obtain ⟨⟨p, hp, hx₁⟩, hx₂⟩ := h.applied x hx
    exact ⟨⟨p, List.mem_append_left _ hp, hx₁⟩, hx₂⟩

theorem kept_sound : Kept (Sound host) := by
  intro x y hmove h
  have hahead := kept_ahead x y hmove h.ahead
  cases hmove with
  | quiet hquiet hcall =>
    have hsame : ∀ {P : Call → Prop} {call call' : Option Call}, (call' = call ∨ call' = none) →
        (∀ c, call = some c → P c) → ∀ c, call' = some c → P c := by
      intro P call call' hcall hP c hc
      rcases hcall with rfl | rfl
      · exact hP c hc
      · cases hc
    refine ⟨hahead, fun state hs staged hstaged ↦ ?_, fun state hs staged hstaged ↦ ?_, hsame hcall h.passed, ?_, ?_, ?_⟩
    · obtain ⟨state₀, hs₀, hstaged₀⟩ := hquiet.staged_records hs hstaged
      rw [hquiet.log, hquiet.staging]
      exact h.contents state₀ hs₀ staged hstaged₀
    · obtain ⟨state₀, hs₀, hstaged₀⟩ := hquiet.staged_records hs hstaged
      rw [hquiet.log]
      exact h.approved state₀ hs₀ staged hstaged₀
    · rw [hquiet.staging]
      exact hsame hcall h.unswitched
    · rw [hquiet.log]
      exact hsame hcall h.switched
    · rw [hquiet.log]
      exact h.faithful
  | @switches m m' target hs =>
    obtain ⟨hpassed, happroved⟩ := h.passed ⟨target, false⟩ rfl
    have hstaging := h.unswitched ⟨target, false⟩ rfl rfl
    refine ⟨hahead, fun state hstate staged hstaged ↦ ?_, fun state hstate staged hstaged ↦ ?_, ?_, ?_, ?_,
      faithful_switches h.faithful hs hstaging hpassed happroved⟩
    · rw [eq_of_mem_records hs.saved hstate, hs.staged] at hstaged
      obtain ⟨content, hcontent, -⟩ := h.contents m.state (state_mem_records _) staged hstaged
      exact ⟨content, by rw [hs.log]; exact hcontent, .inr hs.staging⟩
    · rw [eq_of_mem_records hs.saved hstate, hs.staged] at hstaged
      rw [hs.log]
      exact h.approved m.state (state_mem_records _) staged hstaged
    · intro c hc
      cases hc
      exact ⟨hpassed, happroved⟩
    · intro c hc hfalse
      cases hc
      cases hfalse
    · intro c hc _
      cases hc
      rw [hs.log]
      exact ⟨_, List.mem_append_right _ (List.mem_singleton_self _), hstaging, rfl⟩
  | @finishes m m' target hf =>
    have hnone : ∀ state ∈ m'.records, state.staged = none := by
      intro state hstate
      rw [eq_of_mem_records hf.saved hstate, hf.staged]
    refine ⟨hahead, fun state hstate staged hstaged ↦ ?_, fun state hstate staged hstaged ↦ ?_, fun c hc ↦ (by cases hc),
      fun c hc ↦ (by cases hc), fun c hc ↦ (by cases hc), ?_⟩
    · rw [hnone state hstate] at hstaged
      cases hstaged
    · rw [hnone state hstate] at hstaged
      cases hstaged
    · rw [hf.log]
      refine ⟨h.faithful.promotions, fun x hx ↦ ?_⟩
      rcases List.mem_append.mp hx with hx | hx
      · exact h.faithful.applied x hx
      · rw [List.mem_singleton.mp hx]
        exact ⟨h.switched _ rfl rfl, rfl, h.ahead.finishes hf⟩

theorem Sound.staged (h : Sound host m call) (hswitched : ∀ c, call = some c → c.switched = true) (landed : Slot)
    (restaged : Verified) :
    Sound host (m.holding landed restaged) call := by
  have hrecords : ∀ state ∈ (m.holding landed restaged).records,
      state.staged = some ⟨restaged.version, m.state.channel, false⟩ := by
    intro state hs
    rw [eq_of_mem_records rfl hs]
    rfl
  refine ⟨h.ahead.congr rfl (.inr rfl), fun state _ staged _ ↦ ⟨landed, rfl, .inl rfl⟩, fun state hs staged hstaged ha ↦ ?_,
    h.passed, fun c hc hfalse ↦ ?_, h.switched, ⟨h.faithful.promotions, h.faithful.applied⟩⟩
  · rw [hrecords state hs] at hstaged
    cases hstaged
    cases ha
  · rw [hswitched c hc] at hfalse
    cases hfalse

theorem Sound.cleared (h : Sound host m call) (hswitched : ∀ c, call = some c → c.switched = true)
    (hnone : ∀ state ∈ m.records, state.staged = none) (staging : Slot) :
    Sound host { m with staging := staging } call := by
  refine ⟨h.ahead.congr rfl (.inl rfl), fun state hs staged hstaged ↦ ?_, h.approved, h.passed, fun c hc hfalse ↦ ?_,
    h.switched, h.faithful⟩
  · rw [hnone state hs] at hstaged
    cases hstaged
  · rw [hswitched c hc] at hfalse
    cases hfalse

theorem Sound.approve (h : Sound host m call) {staged : Staged} (hstaged : m.state.staged = some staged) :
    Sound host (save { m with state := { m.state with staged := some { staged with approved := true } },
                              log := { m.log with approved := m.log.staged } }) call := by
  refine ⟨h.ahead.congr rfl (.inr rfl), fun _ _ _ _ ↦ ?_, fun _ _ _ _ _ ↦ rfl, h.passed, h.unswitched, h.switched,
    ⟨h.faithful.promotions, h.faithful.applied⟩⟩
  exact h.contents m.state (state_mem_records m) staged hstaged

theorem Sound.begins (h : Sound host m none) {around : Surroundings Key} {watchdog : Option Thrown}
    {verified : Verified} (hbegins : m.Begins host around watchdog verified) :
    Sound host m (some ⟨m.target verified, false⟩) := by
  have habove := hbegins.above (h.ahead.definite _ (state_mem_records m))
  obtain ⟨staged, hstaged, ha, -, hverify⟩ := hbegins
  have happroved : m.log.approved = some m.staging := by
    rw [h.approved m.state (state_mem_records m) staged hstaged ha]
    obtain ⟨content, hcontent, hstaging | hempty⟩ := h.contents m.state (state_mem_records m) staged hstaged
    · rw [hcontent, hstaging]
    · rw [hempty] at hverify
      exact absurd hverify not_verifies_empty
  refine ⟨h.ahead.begins habove, h.contents, h.approved, ?_, ?_, ?_, h.faithful⟩
  · intro c hc
    cases hc
    exact ⟨⟨around, _, _, verified, hverify, rfl⟩, happroved⟩
  · intro c hc _
    cases hc
    rfl
  · intro c hc htrue
    cases hc
    cases htrue

theorem Sound.restart (h : Sound host m call) (currentVersion : String) (readable : Bool) :
    Sound host (m.restart currentVersion readable) none := by
  have hkept : ∀ state ∈ (m.restart currentVersion readable).records, ∀ staged, state.staged = some staged →
      state ∈ m.records := by
    intro state hs staged hstaged
    rcases mem_records_restart hs with hs | ⟨rfl, -⟩
    · exact List.mem_cons_of_mem _ hs
    · cases hstaged
  refine ⟨ahead_restart h.ahead currentVersion readable, fun state hs staged hstaged ↦ ?_,
    fun state hs staged hstaged ↦ ?_, fun c hc ↦ (by cases hc), fun c hc ↦ (by cases hc), fun c hc ↦ (by cases hc),
    h.faithful⟩
  · exact h.contents state (hkept state hs staged hstaged) staged hstaged
  · exact h.approved state (hkept state hs staged hstaged) staged hstaged

end Manager

namespace Machine

variable {Key : Type} {host : Host Key} {config : Config}

/-- No `apply` begins while another is under way; no bundle is copied into `staging` while an `apply` that has not
switched the slots yet is under way; and none fails to arrive there whole while a staged record is held. -/
def Undisturbed (host : Host Key) (s : Machine) : Command Key → Prop
  | .apply around watchdog => ∀ verified, s.manager.Begins host around watchdog verified → s.inFlight = []
  | .stage bundle around again stops _ => s.manager.Admits host around bundle →
      (∀ c ∈ s.inFlight, c.switched = true) ∧
      ((∃ landed restaged, s.manager.Lands host again bundle stops landed restaged) ∨
        ∀ state ∈ s.manager.records, state.staged = none)
  | _ => True

variable {s : Machine}

theorem holds_sound_stage (h : Holds (Manager.Sound host) s) {bundle : Option Bundle}
    {around again : Surroundings Key} {stops : Bool} {left : Slot}
    (hc : s.Undisturbed host (.stage bundle around again stops left)) :
    Holds (Manager.Sound host) (s.step host config (.stage bundle around again stops left)) := by
  obtain ⟨call, hcall, hJ⟩ := h
  have hswitched : s.manager.Admits host around bundle → ∀ c, call = some c → c.switched = true := by
    intro hadmits c hc'
    apply (hc hadmits).1
    rw [hcall, hc']
    exact List.mem_singleton_self c
  rcases @Manager.stage_cases Key host s.manager around again stops left bundle with
    ⟨e, he⟩ | ⟨hadmits, hlost, staging, e, he⟩ | ⟨hadmits, landed, restaged, -, he⟩
  · simp only [step, he]
    exact .goOn hcall rfl hJ
  · have hnone := (hc hadmits).2.resolve_left hlost
    simp only [step, he]
    exact .goOn hcall rfl (hJ.cleared (hswitched hadmits) hnone staging)
  · simp only [step, he]
    exact .goOn hcall rfl (hJ.staged (hswitched hadmits) landed restaged)

theorem holds_sound_approve (h : Holds (Manager.Sound host) s) (confirmation : Value) :
    Holds (Manager.Sound host) (s.step host config (.approve confirmation)) := by
  obtain ⟨call, hcall, hJ⟩ := h
  simp only [step, Manager.approve]
  split
  · exact .goOn hcall rfl hJ
  next staged hstaged =>
    split
    · exact .goOn hcall rfl hJ
    · exact .goOn hcall rfl (hJ.approve hstaged)

theorem holds_sound_step {command : Command Key} (h : Holds (Manager.Sound host) s) (hc : s.Undisturbed host command) :
    Holds (Manager.Sound host) (s.step host config command) := by
  cases command with
  | setChannel channel => exact h.setChannel Manager.kept_sound channel
  | record => exact h.record Manager.kept_sound
  | stage => exact holds_sound_stage h hc
  | approve confirmation => exact holds_sound_approve h confirmation
  | apply => exact h.apply hc fun _ hbegins hJ ↦ hJ.begins hbegins
  | rollback restoreWorkspace restorable => exact h.rollback Manager.kept_sound restoreWorkspace restorable
  | resume index reply => exact h.resume Manager.kept_sound index reply
  | restart currentVersion readable =>
    obtain ⟨call, -, hJ⟩ := h
    exact ⟨none, rfl, hJ.restart currentVersion readable⟩

theorem holds_sound_start (currentVersion : String) (current previous staging : Slot) :
    Holds (Manager.Sound host) (start currentVersion current previous staging) := by
  have hnone : ∀ state ∈ (Manager.initial currentVersion current previous staging).records, state.staged = none := by
    intro state hs
    rw [List.mem_singleton.mp hs]
    rfl
  refine ⟨none, rfl, Manager.ahead_initial currentVersion current previous staging, fun state hs staged hstaged ↦ ?_,
    fun state hs staged hstaged ↦ ?_, fun c hc ↦ (by cases hc), fun c hc ↦ (by cases hc), fun c hc ↦ (by cases hc),
    ⟨fun p hp ↦ (by cases hp), fun x hx ↦ (by cases hx)⟩⟩
  · rw [hnone state hs] at hstaged
    cases hstaged
  · rw [hnone state hs] at hstaged
    cases hstaged

/-- However the operations are interleaved, what is installed is what was approved and verified. -/
theorem installed_is_approved (host : Host Key) (config : Config) (currentVersion : String)
    (current previous staging : Slot) (commands : List (Command Key))
    (h : Run.Along (step host config) (Undisturbed host) (start currentVersion current previous staging) commands) :
    Faithful host (Run.after (step host config) (start currentVersion current previous staging) commands).manager.log := by
  obtain ⟨call, -, hJ⟩ : Holds (Manager.Sound host) (Run.after (step host config) (start currentVersion current previous staging) commands) :=
    h.invariant (fun _ _ hs hc ↦ holds_sound_step hs hc) (holds_sound_start currentVersion current previous staging)
  exact hJ.faithful

end Machine

namespace Sample

def later : Bundle := ⟨listing "0.8.0" .nil, by decide⟩

def replaced : List (Command Unit) :=
  [.stage (some bundle) around around false Slot.empty, .approve (.text "APPLY UPDATE"), .apply around none,
    .stage (some later) around around false Slot.empty, .resume 0 (.returned true true), .resume 0 (.returned true true)]

end Sample

theorem installed_is_approved_once :
    Faithful Sample.host (Run.after (Machine.step Sample.host Sample.config) (.start "0.6.0" Slot.empty Slot.empty Slot.empty)
      (Sample.install Sample.bundle)).manager.log := by
  have hflight := Sample.installs.1
  have halong : Run.Along (Machine.step Sample.host Sample.config) (Machine.Undisturbed Sample.host)
      (.start "0.6.0" Slot.empty Slot.empty Slot.empty) (Sample.install Sample.bundle) := by
    refine ⟨fun _ ↦ ⟨fun c hc ↦ (by cases hc), .inr fun state hs ↦ ?_⟩, trivial, fun _ _ ↦ hflight, trivial, trivial, trivial, trivial⟩
    rw [List.mem_singleton.mp hs]
    rfl
  exact Machine.installed_is_approved Sample.host Sample.config "0.6.0" Slot.empty Slot.empty Slot.empty _ halong

/-- A package staged while an approved one waits is installed in its place. -/
theorem staged_meanwhile_is_installed :
    ¬ ∀ commands : List (Command Unit),
      Faithful Sample.host (Run.after (Machine.step Sample.host Sample.config) (.start "0.6.0" Slot.empty Slot.empty Slot.empty)
        commands).manager.log := by
  intro hall
  have hreplaced : ∃ p ∈ (Run.after (Machine.step Sample.host Sample.config) (.start "0.6.0" Slot.empty Slot.empty Slot.empty)
      Sample.replaced).manager.log.promotions, p.approved ≠ some p.copied := by
    decide +kernel
  obtain ⟨p, hp, hne⟩ := hreplaced
  exact hne ((hall Sample.replaced).promotions p hp).1

end Noesar.Updates
