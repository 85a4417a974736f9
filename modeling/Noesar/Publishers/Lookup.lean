import Noesar.Lib.Run
import Noesar.Publishers.Registry

namespace Noesar.Publishers

open Lib Lib.Framing Lib.Utf16 Lib.Run

open Author (text)

inductive Op
  | registerKey (call : Registration)
  | revoke (call : Revocation)
  | setTrustLevel (call : LevelChange)
  | reload (restarted : Bool)

def Op.publisherId : Op → Option Units
  | .registerKey call => call.publisherId
  | .revoke call => call.publisherId
  | .setTrustLevel _ | .reload _ => none

inductive Event
  | registered (publisherId trustLevel fingerprint : Units)
  | revoked (publisherId : Units) (fingerprint : Option Units)
  | levelSet (publisherId trustLevel : Units)

def Event.publisherId : Event → Units
  | .registered publisherId _ _ | .revoked publisherId _ | .levelSet publisherId _ => publisherId

def Event.Revokes (publisherId fingerprint : Units) : Event → Prop
  | .revoked id target => id = publisherId ∧ (target = none ∨ target = some fingerprint)
  | _ => False

def Known (events : List Event) (publisherId fingerprint : Units) : Prop :=
  ∃ trustLevel, .registered publisherId trustLevel fingerprint ∈ events

def Active (events : List Event) (publisherId fingerprint : Units) : Prop :=
  ∃ before trustLevel later, events = before ++ .registered publisherId trustLevel fingerprint :: later ∧
    ∀ e ∈ later, ¬e.Revokes publisherId fingerprint

def levelAfter (publisherId : Units) (level : Option Units) : Event → Option Units
  | .registered id trustLevel _ | .levelSet id trustLevel => if id = publisherId then some trustLevel else level
  | .revoked _ _ => level

def currentLevel (events : List Event) (publisherId : Units) : Option Units := events.foldl (levelAfter publisherId) none

structure History where
  world : World := {}
  events : List Event := []

section

variable (platform : Platform)

def step (h : History) : Op → History
  | .registerKey call =>
    match registerKey platform h.world call with
    | .ok (registered, world) =>
      ⟨world, h.events ++ [.registered registered.publisherId registered.trustLevel registered.fingerprint]⟩
    | .error _ => h
  | .revoke call =>
    match revoke h.world call with
    | .ok (_, world) => ⟨world, h.events ++ [.revoked call.publisherId (asked call.fingerprint)]⟩
    | .error _ => h
  | .setTrustLevel call =>
    match setTrustLevel h.world call with
    | .ok world => ⟨world, h.events ++ [.levelSet call.publisherId call.trustLevel]⟩
    | .error _ => h
  | .reload restarted => { h with world := h.world.reload restarted }

/-- A lookup answers, with a key exactly if the fingerprint is active for the publisher at the declared level and its
file can be read, and with a key of that fingerprint only. -/
def Exact (h : History) (readable : Units → Bool) (lookup : Lookup) : Prop :=
  ∃ answer, findActiveKey h.world readable lookup = .ok answer ∧
    (answer.isSome ↔ Active h.events lookup.publisherId lookup.fingerprint ∧
      (lookup.declaredTrustLevel = none ∨ lookup.declaredTrustLevel = currentLevel h.events lookup.publisherId) ∧
      readable (keyFile lookup.publisherId lookup.fingerprint)) ∧
    ∀ key, answer = some key → keyFingerprint platform key.publicKeyPem = some lookup.fingerprint

/-- A lookup of what every object inherits, at any level or at the one that has been set on it. -/
def Stray (world : World) (lookup : Lookup) : Prop :=
  lookup.publisherId ∈ Workflows.inherited.map text ∧
    (lookup.declaredTrustLevel = none ∨ lookup.declaredTrustLevel = world.inheritedLevel lookup.publisherId)

/-- No key is registered of which an active key of the publisher shares the first sixteen digits. -/
def Apart (h : History) : Op → Prop
  | .registerKey call => ∀ registered world, registerKey platform h.world call = .ok (registered, world) →
      ∀ other, Active h.events call.publisherId other → other.take 16 = registered.fingerprint.take 16 →
        other = registered.fingerprint
  | _ => True

/-- What the registry holds of a publisher is what has been done for it. -/
structure Describes (events : List Event) (publisherId : Units) (publisher : Publisher) : Prop where
  proper : publisherId ∉ Workflows.inherited.map text
  keyed : publisher.keys ≠ []
  level : currentLevel events publisherId = some publisher.trustLevel
  known : ∀ fingerprint, Known events publisherId fingerprint ↔ ∃ key ∈ publisher.keys, key.fingerprint = fingerprint
  active : ∀ fingerprint, Active events publisherId fingerprint ↔
    ∃ key ∈ publisher.keys, key.fingerprint = fingerprint ∧ key.state = .active
  filed : ∀ key ∈ publisher.keys, key.publicKeyPath = keyFile publisherId key.fingerprint ∧ 16 ≤ key.fingerprint.length

structure Keeps (h : History) : Prop where
  saved : h.world.load = h.world.state
  own : ∀ publisherId publisher, h.world.state.get publisherId = some publisher → Describes h.events publisherId publisher
  missing : ∀ publisherId, h.world.state.get publisherId = none → ∀ fingerprint, ¬Known h.events publisherId fingerprint

def Filed (h : History) : Prop := ∀ publisherId fingerprint, Active h.events publisherId fingerprint →
  ∃ cs, h.world.keyFiles.get (keyFile publisherId fingerprint) = some cs ∧ keyFingerprint platform (encode cs) = some fingerprint

end

section

variable {events : List Event} {e : Event} {publisherId fingerprint : Units} {id fp : Units}

theorem known_snoc : Known (events ++ [e]) publisherId fingerprint ↔
    Known events publisherId fingerprint ∨ ∃ trustLevel, e = .registered publisherId trustLevel fingerprint := by
  simp only [Known, List.mem_append, List.mem_singleton, exists_or]
  exact or_congr_right (exists_congr fun _ ↦ eq_comm)

theorem active_snoc : Active (events ++ [e]) publisherId fingerprint ↔
    (∃ trustLevel, e = .registered publisherId trustLevel fingerprint) ∨
      Active events publisherId fingerprint ∧ ¬e.Revokes publisherId fingerprint := by
  constructor
  · rintro ⟨before, trustLevel, later, hsplit, hlater⟩
    induction later using List.reverseRecOn with
    | nil =>
      obtain ⟨-, hlast⟩ := List.append_inj' hsplit rfl
      exact .inl ⟨trustLevel, List.singleton_inj.mp hlast⟩
    | append_singleton later last =>
      rw [← List.cons_append, ← List.append_assoc] at hsplit
      obtain ⟨hevents, hlast⟩ := List.append_inj' hsplit rfl
      rw [List.singleton_inj.mp hlast]
      exact .inr ⟨⟨before, trustLevel, later, hevents, fun e he ↦ hlater e (List.mem_append_left _ he)⟩,
        hlater last (List.mem_append_right _ List.mem_cons_self)⟩
  · rintro (⟨trustLevel, rfl⟩ | ⟨⟨before, trustLevel, later, rfl, hlater⟩, he⟩)
    · exact ⟨events, trustLevel, [], rfl, nofun⟩
    · refine ⟨before, trustLevel, later ++ [e], by simp, fun last hlast ↦ ?_⟩
      rcases List.mem_append.mp hlast with hlast | hlast
      · exact hlater last hlast
      · rwa [List.mem_singleton.mp hlast]

theorem known_of_active (h : Active events publisherId fingerprint) : Known events publisherId fingerprint := by
  obtain ⟨before, trustLevel, later, rfl, -⟩ := h
  exact ⟨trustLevel, by simp⟩

theorem currentLevel_snoc : currentLevel (events ++ [e]) publisherId = levelAfter publisherId (currentLevel events publisherId) e := by
  rw [currentLevel, List.foldl_append]
  rfl

theorem encode_length (cs : List Char) : cs.length ≤ (encode cs).length := by
  induction cs with
  | nil => rfl
  | cons c cs ih =>
    have hunits : 1 ≤ (units c).length := by
      unfold units
      split
      · rfl
      · simp
    rw [encode, List.flatMap_cons, List.length_append, List.length_cons]
    rw [encode] at ih
    omega

theorem written_encode (cs : List Char) : written (encode cs) = cs := by
  rw [written, points_encode, List.map_map]
  exact List.map_id cs

theorem keyFingerprint_written {platform : Platform} {pem : Units} :
    keyFingerprint platform (encode (written pem)) = keyFingerprint platform pem := by
  rw [keyFingerprint, written_encode]
  rfl

theorem keyFingerprint_length {platform : Platform} {pem : Units} (h : keyFingerprint platform pem = some fingerprint) :
    16 ≤ fingerprint.length := by
  obtain ⟨key, -, rfl⟩ := Option.map_eq_some_iff.mp h
  have hlength := encode_length (hex (platform.sha256 key).toList).toList
  rw [String.length_toList, hex_length, Vector.length_toList] at hlength
  exact le_trans (by norm_num) hlength

theorem keyFile_injective (hf : 16 ≤ fingerprint.length) (hfp : 16 ≤ fp.length)
    (h : keyFile publisherId fingerprint = keyFile id fp) : publisherId = id ∧ fingerprint.take 16 = fp.take 16 := by
  have hnames := List.append_cancel_right h
  have hlength : (fingerprint.take 16).length = (fp.take 16).length := by
    rw [List.length_take_of_le hf, List.length_take_of_le hfp]
  obtain ⟨hids, htake⟩ := List.append_inj' hnames hlength
  exact ⟨List.append_cancel_right hids, htake⟩

theorem known_other (he : e.publisherId ≠ publisherId) :
    Known (events ++ [e]) publisherId fingerprint ↔ Known events publisherId fingerprint := by
  rw [known_snoc, or_iff_left]
  rintro ⟨trustLevel, rfl⟩
  exact he rfl

theorem active_other (he : e.publisherId ≠ publisherId) :
    Active (events ++ [e]) publisherId fingerprint ↔ Active events publisherId fingerprint := by
  have hrevokes : ¬e.Revokes publisherId fingerprint := by
    intro hrevokes
    cases e with
    | revoked => exact he hrevokes.1
    | _ => exact hrevokes
  rw [active_snoc, or_iff_right, and_iff_left hrevokes]
  rintro ⟨trustLevel, rfl⟩
  exact he rfl

theorem currentLevel_other (he : e.publisherId ≠ publisherId) :
    currentLevel (events ++ [e]) publisherId = currentLevel events publisherId := by
  rw [currentLevel_snoc]
  cases e with
  | revoked => rfl
  | _ => exact if_neg he

end

section

variable {events : List Event} {e : Event} {publisherId fingerprint : Units} {publisher : Publisher} {world world' : World}

theorem Describes.other (h : Describes events publisherId publisher) (he : e.publisherId ≠ publisherId) :
    Describes (events ++ [e]) publisherId publisher where
  proper := h.proper
  keyed := h.keyed
  level := (currentLevel_other he).trans h.level
  known fingerprint := (known_other he).trans (h.known fingerprint)
  active fingerprint := (active_other he).trans (h.active fingerprint)
  filed := h.filed

theorem Keeps.set (h : Keeps ⟨world, events⟩) (hsaved : world'.load = world'.state)
    (hstate : world'.state = world.state.set e.publisherId publisher) (hnew : Describes (events ++ [e]) e.publisherId publisher) :
    Keeps ⟨world', events ++ [e]⟩ where
  saved := hsaved
  own id other hget := by
    rw [hstate, InsertionMap.get_set] at hget
    split at hget
    next hid =>
      cases hget
      exact hid ▸ hnew
    next hid => exact (h.own id other hget).other hid
  missing id hget fingerprint := by
    rw [hstate, InsertionMap.get_set] at hget
    split at hget
    · cases hget
    next hid =>
      rw [known_other hid]
      exact h.missing id hget fingerprint

/-- An accepted registration adds a key to those of the publisher, if there is one, and writes it to its file. -/
structure Registers (platform : Platform) (world : World) (call : Registration) (registered : Registered) (world' : World)
    (publisher : Publisher) (key : Key) : Prop where
  names : registered.publisherId = call.publisherId ∧ registered.trustLevel = call.trustLevel ∧
    registered.fingerprint = key.fingerprint
  digest : keyFingerprint platform call.publicKeyPem = some key.fingerprint
  held : world.held call.publisherId = .own publisher ∨
    world.held call.publisherId = .missing ∧ publisher.keys = [] ∧ publisher.trustLevel = call.trustLevel
  fresh : ∀ held ∈ publisher.keys, held.fingerprint ≠ key.fingerprint
  level : publisher.keys = [] ∨ publisher.trustLevel = call.trustLevel
  added : key.state = .active ∧ key.publicKeyPath = keyFile call.publisherId key.fingerprint
  load : world'.load = world'.state
  state : world'.state = world.state.set call.publisherId { publisher with keys := publisher.keys ++ [key] }
  levels : world'.inheritedLevels = world.inheritedLevels
  files : world'.keyFiles = world.keyFiles.set (keyFile call.publisherId key.fingerprint) (written call.publicKeyPem)

theorem registerKey_ok {platform : Platform} {call : Registration} {registered : Registered}
    (h : registerKey platform world call = .ok (registered, world')) :
    ∃ publisher key, Registers platform world call registered world' publisher key := by
  simp only [registerKey, fingerprintOf, bind_ok, demand_ok, require_ok, exists_unit, pure, Except.pure, Except.ok.injEq] at h
  obtain ⟨-, -, _, ⟨fingerprint, hdigest, -, rfl⟩, publisher, hpublisher, hfresh, hlevel, hresult⟩ := h
  cases hresult
  refine ⟨publisher, _, ⟨⟨rfl, rfl, rfl⟩, hdigest, ?_, hfresh, hlevel, ⟨rfl, rfl⟩, rfl, rfl, rfl, rfl⟩⟩
  rw [World.publisherOr] at hpublisher
  split at hpublisher
  next held hheld =>
    cases hpublisher
    exact .inl hheld
  next hheld =>
    cases hpublisher
    exact .inr ⟨hheld, rfl, rfl⟩
  next => cases hpublisher

theorem held_own : world.held publisherId = .own publisher ↔ world.state.get publisherId = some publisher := by
  rw [World.held]
  cases world.state.get publisherId with
  | none =>
    dsimp only
    split <;> simp
  | some => simp

theorem held_missing : world.held publisherId = .missing ↔
    world.state.get publisherId = none ∧ publisherId ∉ Workflows.inherited.map text := by
  rw [World.held]
  cases world.state.get publisherId with
  | none =>
    dsimp only
    split <;> simp [*]
  | some => simp

theorem held_inherited : world.held publisherId = .inherited ↔
    world.state.get publisherId = none ∧ publisherId ∈ Workflows.inherited.map text := by
  rw [World.held]
  cases world.state.get publisherId with
  | none =>
    dsimp only
    split <;> simp [*]
  | some => simp

theorem Registers.keeps {platform : Platform} {call : Registration} {registered : Registered} {key : Key}
    (hreg : Registers platform world call registered world' publisher key) (h : Keeps ⟨world, events⟩) :
    Keeps ⟨world', events ++ [.registered registered.publisherId registered.trustLevel registered.fingerprint]⟩ := by
  obtain ⟨hid, hlevel, hfingerprint⟩ := hreg.names
  rw [hid, hlevel, hfingerprint]
  refine h.set hreg.load hreg.state ?_
  obtain ⟨hproper, hknown, hactive, hfiled⟩ : call.publisherId ∉ Workflows.inherited.map text ∧
      (∀ fingerprint, Known events call.publisherId fingerprint ↔ ∃ key ∈ publisher.keys, key.fingerprint = fingerprint) ∧
      (∀ fingerprint, Active events call.publisherId fingerprint ↔
        ∃ key ∈ publisher.keys, key.fingerprint = fingerprint ∧ key.state = .active) ∧
      ∀ key ∈ publisher.keys, key.publicKeyPath = keyFile call.publisherId key.fingerprint ∧ 16 ≤ key.fingerprint.length := by
    rcases hreg.held with hown | ⟨hmissing, hnone, -⟩
    · have hd := h.own call.publisherId publisher (held_own.mp hown)
      exact ⟨hd.proper, hd.known, hd.active, hd.filed⟩
    · obtain ⟨hget, hproper⟩ := held_missing.mp hmissing
      have hunknown := h.missing call.publisherId hget
      rw [hnone]
      refine ⟨hproper, fun fingerprint ↦ iff_of_false (hunknown fingerprint) ?_,
        fun fingerprint ↦ iff_of_false (fun hactive ↦ hunknown fingerprint (known_of_active hactive)) ?_,
        fun key hkey ↦ absurd hkey List.not_mem_nil⟩
      · exact fun ⟨_, hkey, _⟩ ↦ List.not_mem_nil hkey
      · exact fun ⟨_, hkey, _⟩ ↦ List.not_mem_nil hkey
  have htrust : publisher.trustLevel = call.trustLevel := by
    rcases hreg.held with hown | ⟨-, -, htrust⟩
    · exact hreg.level.resolve_left (h.own call.publisherId publisher (held_own.mp hown)).keyed
    · exact htrust
  refine ⟨hproper, by simp, ?_, fun fingerprint ↦ ?_, fun fingerprint ↦ ?_, fun held hheld ↦ ?_⟩
  · rw [currentLevel_snoc, htrust]
    exact if_pos rfl
  · simp only [known_snoc, hknown, List.mem_append, List.mem_singleton, or_and_right, exists_or, exists_eq_left,
      Event.registered.injEq, Event.publisherId, true_and, exists_eq_left']
  · simp only [active_snoc, hactive, List.mem_append, List.mem_singleton, or_and_right, exists_or, exists_eq_left,
      Event.registered.injEq, Event.publisherId, Event.Revokes, true_and, hreg.added.1, and_true, not_false_eq_true,
      exists_eq_left']
    exact or_comm
  · rcases List.mem_append.mp hheld with hheld | hheld
    · exact hfiled held hheld
    · rw [List.mem_singleton.mp hheld]
      exact ⟨hreg.added.2, keyFingerprint_length hreg.digest⟩

theorem revokeKey_spec (target : Option Units) (actor : Units) (nowUnix : Instant) (reason : Option Units) (key : Key) :
    (revokeKey target actor nowUnix reason key).fingerprint = key.fingerprint ∧
      (revokeKey target actor nowUnix reason key).publicKeyPath = key.publicKeyPath ∧
      ((revokeKey target actor nowUnix reason key).state = .active ↔ key.state = .active ∧ ¬targeted target key) := by
  unfold revokeKey
  split
  next h => exact ⟨rfl, rfl, by simp [h.1]⟩
  next h =>
    refine ⟨rfl, rfl, fun hactive ↦ ⟨hactive, fun htarget ↦ h ⟨htarget, hactive⟩⟩, fun hactive ↦ hactive.1⟩

theorem targeted_iff {key : Key} {target : Option Units} (h : key.state = .active) :
    targeted target key ↔ target = none ∨ target = some key.fingerprint := by
  cases target with
  | none => simp [targeted, h]
  | some => simp [targeted, eq_comm]

theorem revoke_ok {call : Revocation} {revokedCount : ℕ} (h : revoke world call = .ok (revokedCount, world')) :
    ∃ publisher, world.state.get call.publisherId = some publisher ∧ world'.load = world'.state ∧
      world'.keyFiles = world.keyFiles ∧ world'.inheritedLevels = world.inheritedLevels ∧
      world'.state = world.state.set call.publisherId { publisher with
        keys := publisher.keys.map (revokeKey (asked call.fingerprint) (call.actorId.getD owner) call.nowUnix call.reason) } := by
  simp only [revoke, bind_ok, require_ok, exists_unit, pure, Except.pure, Except.ok.injEq] at h
  obtain ⟨publisher, hpublisher, -, hresult⟩ := h
  cases hresult
  refine ⟨publisher, ?_, rfl, rfl, rfl, rfl⟩
  rw [World.publisherOr] at hpublisher
  split at hpublisher
  next held hheld =>
    cases hpublisher
    exact held_own.mp hheld
  next => cases hpublisher
  next => cases hpublisher

theorem Keeps.revoke (h : Keeps ⟨world, events⟩) {call : Revocation} {revokedCount : ℕ}
    (hrevoke : revoke world call = .ok (revokedCount, world')) :
    Keeps ⟨world', events ++ [.revoked call.publisherId (asked call.fingerprint)]⟩ := by
  obtain ⟨publisher, hget, hload, -, -, hstate⟩ := revoke_ok hrevoke
  have hd : Describes events call.publisherId publisher := h.own call.publisherId publisher hget
  have hkey := revokeKey_spec (asked call.fingerprint) (call.actorId.getD owner) call.nowUnix call.reason
  refine h.set hload hstate ⟨hd.proper, by simpa using hd.keyed, ?_, fun fingerprint ↦ ?_, fun fingerprint ↦ ?_, ?_⟩
  · rw [currentLevel_snoc]
    exact hd.level
  · rw [known_snoc, or_iff_left (by rintro ⟨_, ⟨⟩⟩), Event.publisherId, hd.known]
    simp only [List.mem_map, exists_exists_and_eq_and, (hkey _).1]
  · rw [active_snoc, or_iff_right (by rintro ⟨_, ⟨⟩⟩), Event.publisherId, hd.active]
    simp only [List.mem_map, exists_exists_and_eq_and, (hkey _).1, (hkey _).2.2]
    constructor
    · rintro ⟨⟨key, hmem, rfl, hactive⟩, hspared⟩
      exact ⟨key, hmem, rfl, hactive, fun htarget ↦ hspared ⟨rfl, (targeted_iff hactive).mp htarget⟩⟩
    · rintro ⟨key, hmem, rfl, hactive, hspared⟩
      exact ⟨⟨key, hmem, rfl, hactive⟩, fun hrevokes ↦ hspared ((targeted_iff hactive).mpr hrevokes.2)⟩
  · rw [List.forall_mem_map]
    intro key hmem
    rw [(hkey key).1, (hkey key).2.1]
    exact hd.filed key hmem

theorem Keeps.setTrustLevel (h : Keeps ⟨world, events⟩) {call : LevelChange} (hset : setTrustLevel world call = .ok world') :
    Keeps ⟨world', events ++ [.levelSet call.publisherId call.trustLevel]⟩ := by
  unfold Publishers.setTrustLevel at hset
  dsimp only at hset
  split at hset
  next publisher hheld =>
    cases hset
    have hd : Describes events call.publisherId publisher := h.own call.publisherId publisher (held_own.mp hheld)
    refine h.set rfl rfl ⟨hd.proper, hd.keyed, ?_, fun fingerprint ↦ ?_, fun fingerprint ↦ ?_, hd.filed⟩
    · rw [currentLevel_snoc]
      exact if_pos rfl
    · rw [known_snoc, or_iff_left (by rintro ⟨_, ⟨⟩⟩), Event.publisherId, hd.known]
    · rw [active_snoc, or_iff_right (by rintro ⟨_, ⟨⟩⟩), Event.publisherId, hd.active]
      exact and_iff_left id
  next hheld =>
    cases hset
    obtain ⟨-, hinherited⟩ := held_inherited.mp hheld
    refine ⟨rfl, fun id publisher hget ↦ ?_, fun id hget fingerprint ↦ ?_⟩
    · have hd := h.own id publisher hget
      apply hd.other
      rintro rfl
      exact hd.proper hinherited
    · rw [known_snoc, or_iff_left (by rintro ⟨_, ⟨⟩⟩)]
      exact h.missing id hget fingerprint
  next => cases hset

theorem Keeps.reload (h : Keeps ⟨world, events⟩) (restarted : Bool) : Keeps ⟨world.reload restarted, events⟩ where
  saved := rfl
  own id publisher hget := h.own id publisher (h.saved ▸ hget)
  missing id hget := h.missing id (h.saved ▸ hget)

end

section

variable {platform : Platform} {h : History} {op : Op} {readable : Units → Bool} {lookup : Lookup} {publisher : Publisher}

theorem keeps_start : Keeps {} where
  saved := rfl
  own _ _ hget := by cases hget
  missing _ _ _ hknown := by
    obtain ⟨_, hmem⟩ := hknown
    exact absurd hmem List.not_mem_nil

theorem Keeps.step (hkeeps : Keeps h) (op : Op) : Keeps (step platform h op) := by
  cases op with
  | registerKey =>
    rw [Publishers.step]
    split
    next registered world hregister =>
      obtain ⟨publisher, key, hreg⟩ := registerKey_ok hregister
      exact hreg.keeps hkeeps
    next => exact hkeeps
  | revoke =>
    rw [Publishers.step]
    split
    next revokedCount world hrevoke => exact hkeeps.revoke hrevoke
    next => exact hkeeps
  | setTrustLevel =>
    rw [Publishers.step]
    split
    next world hset => exact hkeeps.setTrustLevel hset
    next => exact hkeeps
  | reload restarted => exact hkeeps.reload restarted

theorem Keeps.of_known (hkeeps : Keeps h) {publisherId fingerprint : Units} (hknown : Known h.events publisherId fingerprint) :
    ∃ publisher, h.world.state.get publisherId = some publisher ∧ Describes h.events publisherId publisher := by
  cases hget : h.world.state.get publisherId with
  | none => exact absurd hknown (hkeeps.missing publisherId hget fingerprint)
  | some publisher => exact ⟨publisher, rfl, hkeeps.own publisherId publisher hget⟩

theorem Keeps.length (hkeeps : Keeps h) {publisherId fingerprint : Units} (hknown : Known h.events publisherId fingerprint) :
    16 ≤ fingerprint.length := by
  obtain ⟨publisher, -, hd⟩ := hkeeps.of_known hknown
  obtain ⟨key, hkey, rfl⟩ := (hd.known fingerprint).mp hknown
  exact (hd.filed key hkey).2

theorem eligible_iff {level : Option Units} :
    (lookup.declaredTrustLevel = none || lookup.declaredTrustLevel = level : Bool) ↔
      lookup.declaredTrustLevel = none ∨ lookup.declaredTrustLevel = level := by
  rw [Bool.or_eq_true, decide_eq_true_iff, decide_eq_true_iff]

theorem findActiveKey_active (hget : h.world.state.get lookup.publisherId = some publisher)
    (hd : Describes h.events lookup.publisherId publisher)
    (heligible : lookup.declaredTrustLevel = none ∨ lookup.declaredTrustLevel = currentLevel h.events lookup.publisherId)
    (hactive : Active h.events lookup.publisherId lookup.fingerprint) : findActiveKey h.world readable lookup =
      .ok ((h.world.readFile readable (keyFile lookup.publisherId lookup.fingerprint)).map (⟨·, publisher.trustLevel⟩)) := by
  rw [hd.level] at heligible
  rw [findActiveKey, held_own.mpr hget]
  dsimp only
  rw [if_pos (eligible_iff.mpr heligible)]
  obtain ⟨key, hkey, hfingerprint, hstate⟩ := (hd.active lookup.fingerprint).mp hactive
  cases hfind : publisher.keys.find? fun key ↦ key.fingerprint = lookup.fingerprint && key.state = .active with
  | none =>
    have hnone := List.find?_eq_none.mp hfind key hkey
    simp [hfingerprint, hstate] at hnone
  | some found =>
    have hfound : found.fingerprint = lookup.fingerprint := by
      have hsome := List.find?_some hfind
      simp only [Bool.and_eq_true, decide_eq_true_eq] at hsome
      exact hsome.1
    dsimp only
    rw [(hd.filed found (List.mem_of_find?_eq_some hfind)).1, hfound]

theorem findActiveKey_none (hget : h.world.state.get lookup.publisherId = some publisher)
    (hd : Describes h.events lookup.publisherId publisher)
    (hnone : ¬((lookup.declaredTrustLevel = none ∨ lookup.declaredTrustLevel = currentLevel h.events lookup.publisherId) ∧
      Active h.events lookup.publisherId lookup.fingerprint)) : findActiveKey h.world readable lookup = .ok none := by
  rw [hd.level] at hnone
  rw [findActiveKey, held_own.mpr hget]
  dsimp only
  split
  next heligible =>
    cases hfind : publisher.keys.find? fun key ↦ key.fingerprint = lookup.fingerprint && key.state = .active with
    | none => rfl
    | some found =>
      have hsome := List.find?_some hfind
      simp only [Bool.and_eq_true, decide_eq_true_eq] at hsome
      exact absurd ⟨eligible_iff.mp heligible, (hd.active lookup.fingerprint).mpr ⟨found, List.mem_of_find?_eq_some hfind, hsome⟩⟩ hnone
  next => rfl

theorem Keeps.exact_iff (hkeeps : Keeps h) (hfiled : Filed platform h) (readable : Units → Bool) (lookup : Lookup) :
    Exact platform h readable lookup ↔ ¬Stray h.world lookup := by
  cases hget : h.world.state.get lookup.publisherId with
  | some publisher =>
    have hd := hkeeps.own lookup.publisherId publisher hget
    refine iff_of_true ?_ fun hstray ↦ hd.proper hstray.1
    by_cases hright : (lookup.declaredTrustLevel = none ∨ lookup.declaredTrustLevel = currentLevel h.events lookup.publisherId) ∧
      Active h.events lookup.publisherId lookup.fingerprint
    · obtain ⟨heligible, hactive⟩ := hright
      obtain ⟨cs, hfile, hdigest⟩ := hfiled lookup.publisherId lookup.fingerprint hactive
      refine ⟨_, findActiveKey_active hget hd heligible hactive, ?_, fun key hkey ↦ ?_⟩
      · rw [World.readFile, hfile, Option.isSome_map]
        split
        next hreadable => exact iff_of_true rfl ⟨hactive, heligible, hreadable⟩
        next hunreadable => exact iff_of_false Bool.false_ne_true fun h ↦ hunreadable h.2.2
      · rw [World.readFile, hfile] at hkey
        split at hkey
        · cases hkey
          exact hdigest
        · cases hkey
    · refine ⟨none, findActiveKey_none hget hd hright, ?_, nofun⟩
      exact iff_of_false Bool.false_ne_true fun h ↦ hright ⟨h.2.1, h.1⟩
  | none =>
    have hinactive : ¬Active h.events lookup.publisherId lookup.fingerprint :=
      fun hactive ↦ hkeeps.missing lookup.publisherId hget lookup.fingerprint (known_of_active hactive)
    have hnothing : findActiveKey h.world readable lookup = .ok none → Exact platform h readable lookup := fun hnone ↦
      ⟨none, hnone, iff_of_false Bool.false_ne_true fun h ↦ hinactive h.1, nofun⟩
    by_cases hinherited : lookup.publisherId ∈ Workflows.inherited.map text
    · have hheld := held_inherited.mpr ⟨hget, hinherited⟩
      by_cases heligible : lookup.declaredTrustLevel = none ∨
          lookup.declaredTrustLevel = h.world.inheritedLevel lookup.publisherId
      · refine iff_of_false ?_ fun hstray ↦ hstray ⟨hinherited, heligible⟩
        rintro ⟨answer, hanswer, -⟩
        rw [findActiveKey, hheld] at hanswer
        dsimp only at hanswer
        rw [if_pos (eligible_iff.mpr heligible)] at hanswer
        cases hanswer
      · refine iff_of_true (hnothing ?_) fun hstray ↦ heligible hstray.2
        rw [findActiveKey, hheld]
        dsimp only
        rw [if_neg fun h ↦ heligible (eligible_iff.mp h)]
    · refine iff_of_true (hnothing ?_) fun hstray ↦ hinherited hstray.1
      rw [findActiveKey, held_missing.mpr ⟨hget, hinherited⟩]

theorem filed_start : Filed platform {} := by
  intro publisherId fingerprint hactive
  obtain ⟨_, hmem⟩ := known_of_active hactive
  exact absurd hmem List.not_mem_nil

theorem Filed.of_files {h' : History} (hfiled : Filed platform h) (hfiles : h'.world.keyFiles = h.world.keyFiles)
    (hactive : ∀ publisherId fingerprint, Active h'.events publisherId fingerprint → Active h.events publisherId fingerprint) :
    Filed platform h' := by
  intro publisherId fingerprint h'active
  rw [hfiles]
  exact hfiled publisherId fingerprint (hactive publisherId fingerprint h'active)

theorem setTrustLevel_files {world world' : World} {call : LevelChange} (h : setTrustLevel world call = .ok world') :
    world'.keyFiles = world.keyFiles := by
  unfold setTrustLevel at h
  dsimp only at h
  split at h
  · cases h
    rfl
  · cases h
    rfl
  · cases h

theorem Filed.step (hkeeps : Keeps h) (hfiled : Filed platform h) (hapart : Apart platform h op) :
    Filed platform (step platform h op) := by
  cases op with
  | registerKey call =>
    rw [Publishers.step]
    split
    next registered world hregister =>
      obtain ⟨publisher, key, hreg⟩ := registerKey_ok hregister
      obtain ⟨hid, -, hfingerprint⟩ := hreg.names
      have hapart := hapart registered world hregister
      have hnew : keyFingerprint platform (encode (written call.publicKeyPem)) = some key.fingerprint :=
        keyFingerprint_written.trans hreg.digest
      intro publisherId fingerprint hactive
      rw [hreg.files, InsertionMap.get_set]
      rcases active_snoc.mp hactive with ⟨_, hsame⟩ | ⟨hactive, -⟩
      · cases hsame
        rw [hid, hfingerprint, if_pos rfl]
        exact ⟨_, rfl, hnew⟩
      · split
        next hpath =>
          obtain ⟨rfl, htake⟩ := keyFile_injective (keyFingerprint_length hreg.digest)
            (hkeeps.length (known_of_active hactive)) hpath
          rw [hapart fingerprint hactive (by rw [hfingerprint, htake]), hfingerprint]
          exact ⟨_, rfl, hnew⟩
        next => exact hfiled publisherId fingerprint hactive
    next => exact hfiled
  | revoke =>
    rw [Publishers.step]
    split
    next revokedCount world hrevoke =>
      obtain ⟨-, -, -, hfiles, -⟩ := revoke_ok hrevoke
      refine hfiled.of_files hfiles fun publisherId fingerprint hactive ↦ ?_
      rcases active_snoc.mp hactive with ⟨_, ⟨⟩⟩ | ⟨hactive, -⟩
      exact hactive
    next => exact hfiled
  | setTrustLevel =>
    rw [Publishers.step]
    split
    next world hset =>
      refine hfiled.of_files (setTrustLevel_files hset) fun publisherId fingerprint hactive ↦ ?_
      rcases active_snoc.mp hactive with ⟨_, ⟨⟩⟩ | ⟨hactive, -⟩
      exact hactive
    next => exact hfiled
  | reload => exact hfiled

theorem apart_of_exact (hkeeps : Keeps h)
    (hexact : ∀ readable lookup, ¬Stray (step platform h op).world lookup → Exact platform (step platform h op) readable lookup) :
    Apart platform h op := by
  cases op with
  | registerKey call =>
    intro registered world hregister other hother htake
    have hkeeps' : Keeps (step platform h (.registerKey call)) := hkeeps.step (.registerKey call)
    rw [step, hregister] at hexact hkeeps'
    obtain ⟨publisher, key, hreg⟩ := registerKey_ok hregister
    obtain ⟨hid, -, hfingerprint⟩ := hreg.names
    rw [hfingerprint] at htake ⊢
    have hactive := active_snoc (e := .registered registered.publisherId registered.trustLevel registered.fingerprint).mpr
      (.inr ⟨hother, id⟩)
    obtain ⟨held, hget, hd⟩ := hkeeps'.of_known (known_of_active hactive)
    obtain ⟨answer, hanswer, -, hright⟩ := hexact (fun _ ↦ true) ⟨call.publisherId, other, none⟩ fun hstray ↦ hd.proper hstray.1
    have hfound : findActiveKey world (fun _ ↦ true) ⟨call.publisherId, other, none⟩ =
        .ok ((world.readFile (fun _ ↦ true) (keyFile call.publisherId other)).map (⟨·, held.trustLevel⟩)) :=
      findActiveKey_active (h := ⟨world, _⟩) hget hd (.inl rfl) hactive
    have hpath : keyFile call.publisherId other = keyFile call.publisherId key.fingerprint := by rw [keyFile, htake, keyFile]
    rw [hfound, World.readFile, if_pos rfl, hpath, hreg.files, InsertionMap.get_set_self] at hanswer
    cases hanswer
    have hdigest := hright _ rfl
    rw [keyFingerprint_written, hreg.digest] at hdigest
    exact (Option.some.inj hdigest).symm
  | _ => trivial

theorem revoked_step (hkeeps : Keeps h) {publisherId fingerprint : Units}
    (hrevoked : Known h.events publisherId fingerprint ∧ ¬Active h.events publisherId fingerprint) :
    Known (step platform h op).events publisherId fingerprint ∧ ¬Active (step platform h op).events publisherId fingerprint := by
  have hsnoc (e : Event) (hfresh : ∀ trustLevel, e ≠ .registered publisherId trustLevel fingerprint) :
      Known (h.events ++ [e]) publisherId fingerprint ∧ ¬Active (h.events ++ [e]) publisherId fingerprint := by
    refine ⟨known_snoc.mpr (.inl hrevoked.1), fun hactive ↦ ?_⟩
    rcases active_snoc.mp hactive with ⟨trustLevel, hsame⟩ | ⟨hactive, -⟩
    · exact hfresh trustLevel hsame
    · exact hrevoked.2 hactive
  cases op with
  | registerKey =>
    rw [step]
    split
    next registered world hregister =>
      obtain ⟨publisher, key, hreg⟩ := registerKey_ok hregister
      obtain ⟨hid, -, hfingerprint⟩ := hreg.names
      refine hsnoc _ fun trustLevel hsame ↦ ?_
      cases hsame
      obtain ⟨held, hget, hd⟩ := hkeeps.of_known hrevoked.1
      rw [hid] at hget hd hrevoked
      rcases hreg.held with hown | ⟨hmissing, -⟩
      · have hsame := (held_own.mpr hget).symm.trans hown
        cases hsame
        obtain ⟨old, hold, heq⟩ := (hd.known _).mp hrevoked.1
        exact hreg.fresh old hold (heq.trans hfingerprint)
      · rw [held_own.mpr hget] at hmissing
        cases hmissing
    next => exact hrevoked
  | revoke | setTrustLevel =>
    rw [step]
    split
    · exact hsnoc _ nofun
    · exact hrevoked
  | reload => exact hrevoked

theorem findActiveKey_congr {world world' : World}
    (hget : world'.state.get lookup.publisherId = world.state.get lookup.publisherId)
    (hlevels : world'.inheritedLevels = world.inheritedLevels)
    (hfiles : ∀ publisher, world.state.get lookup.publisherId = some publisher → ∀ key ∈ publisher.keys,
      world'.keyFiles.get key.publicKeyPath = world.keyFiles.get key.publicKeyPath) :
    findActiveKey world' readable lookup = findActiveKey world readable lookup := by
  have hheld : world'.held lookup.publisherId = world.held lookup.publisherId := by rw [World.held, hget, World.held]
  have hlevel : world'.inheritedLevel lookup.publisherId = world.inheritedLevel lookup.publisherId := by
    rw [World.inheritedLevel, hlevels, World.inheritedLevel]
  rw [findActiveKey, findActiveKey, hheld, hlevel]
  cases hown : world.held lookup.publisherId with
  | own publisher =>
    dsimp only
    cases hfind : publisher.keys.find? fun key ↦ key.fingerprint = lookup.fingerprint && key.state = .active with
    | none => rfl
    | some key =>
      dsimp only
      rw [World.readFile, World.readFile, hfiles publisher (held_own.mp hown) key (List.mem_of_find?_eq_some hfind)]
  | _ => rfl

theorem Keeps.findActiveKey_step (hkeeps : Keeps h) {publisherId : Units} (hop : op.publisherId = some publisherId)
    (hother : publisherId ≠ lookup.publisherId) :
    findActiveKey (Publishers.step platform h op).world readable lookup = findActiveKey h.world readable lookup := by
  cases op with
  | registerKey =>
    cases hop
    rw [Publishers.step]
    split
    next registered world hregister =>
      obtain ⟨publisher, key, hreg⟩ := registerKey_ok hregister
      refine findActiveKey_congr ?_ hreg.levels fun held hget old hold ↦ ?_
      · rw [hreg.state, InsertionMap.get_set, if_neg hother]
      · obtain ⟨hpath, hlength⟩ := (hkeeps.own lookup.publisherId held hget).filed old hold
        rw [hreg.files, InsertionMap.get_set, if_neg]
        rw [hpath]
        exact fun hsame ↦ hother (keyFile_injective (keyFingerprint_length hreg.digest) hlength hsame).1
    next => rfl
  | revoke =>
    cases hop
    rw [Publishers.step]
    split
    next revokedCount world hrevoke =>
      obtain ⟨publisher, -, -, hfiles, hlevels, hstate⟩ := revoke_ok hrevoke
      refine findActiveKey_congr ?_ hlevels fun held hget old hold ↦ by rw [hfiles]
      rw [hstate, InsertionMap.get_set, if_neg hother]
    next => rfl
  | setTrustLevel | reload => cases hop

end

section Sample

def keyless : Platform := ⟨fun _ ↦ none, fun _ ↦ Vector.replicate 32 0⟩

end Sample

end Noesar.Publishers
