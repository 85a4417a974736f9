import Noesar.Reference.Manager

namespace Noesar.Reference

open Lib Lib.Framing Lib.Json Manager

section Statements

variable {φ : Type}

def versionOf (source : Inspection φ) : Except PyError (Value φ) := subscript "version" source.manifest

def publisherOf (source : Inspection φ) : Except PyError (Value φ) := subscript "publisher" source.manifest >>= subscript "id"

structure Describes (record : Record φ) (source : Inspection φ) : Prop where
  version : versionOf source = .ok (.string record.version)
  package : source.packageSha256 = record.packageSha256
  publisher : publisherOf source = .ok (.string record.publisherId)

def Faithful (s : Manager φ) : Prop := ∀ id record, s.registry.get id = some record → record.state = .active →
  ∃ directory, s.active.get id = some directory ∧ Describes record directory.source

structure Permitted (s : Manager φ) (id : String) (source : Inspection φ) : Prop where
  publisher : ∀ publisherId, publisherOf source = .ok (.string publisherId) → publisherId ∉ s.revocations.publishers
  package : source.packageSha256 ∉ s.revocations.packages
  capability : ∀ version, versionOf source = .ok (.string version) → s!"{id}@{version}" ∉ s.revocations.capabilities

/-- A rollback brings back the package that the entry is of, and an installation over a package that waits to be activated
comes to its end once it has begun to unpack. -/
def Steady (s : Manager φ) : Command φ → Prop
  | .rollback _ id _ => ∀ record newest older, s.registry.get id = some record →
      s.backups.get id = some (newest :: older) → Describes record newest.source
  | .install call => ∀ inspected id version record, call.verified = .ok inspected →
      subscript "id" inspected.manifest = .ok (.string id) → versionOf inspected = .ok (.string version) →
      s.registry.get id = some record → record.state = .quarantined → record.version = version →
      call.extraction = .ok () ∧ (InsertionMap.lookup "planHash" call.plan).isSome = true
  | _ => True

end Statements

section Steps

variable {φ : Type}

/-- What holds of an entry: its files, active or waiting, are those of its package. -/
structure Kept (s : Manager φ) (id : String) (record : Record φ) : Prop where
  active : record.state = .active → ∃ directory, s.active.get id = some directory ∧ Describes record directory.source
  quarantined : record.state = .quarantined →
    ∀ directory, s.quarantine.get (id, record.version) = some directory → Describes record directory.source

def Sound (s : Manager φ) : Prop := ∀ id record, s.registry.get id = some record → Kept s id record

variable {s : Manager φ} {id : String}

theorem Sound.faithful (h : Sound s) : Faithful s := fun id record hrecord ↦ (h id record hrecord).active

theorem Sound.initial : Sound (Manager.initial (φ := φ)) := fun _ _ h ↦ by cases h

theorem Sound.set {s' : Manager φ} {record : Record φ} (h : Sound s)
    (hregistry : s'.registry = s.registry.set id record) (hactive : ∀ j ≠ id, s'.active.get j = s.active.get j)
    (hquarantine : ∀ j ≠ id, ∀ version, s'.quarantine.get (j, version) = s.quarantine.get (j, version))
    (hkept : Kept s' id record) : Sound s' := by
  intro j other hother
  rw [hregistry, InsertionMap.get_set] at hother
  by_cases hj : id = j
  · rw [if_pos hj] at hother
    cases hother
    exact hj ▸ hkept
  · rw [if_neg hj] at hother
    have hbefore := h j other hother
    refine ⟨fun hstate ↦ ?_, fun hstate directory hdirectory ↦ ?_⟩
    · rw [hactive j (Ne.symm hj)]
      exact hbefore.active hstate
    · rw [hquarantine j (Ne.symm hj)] at hdirectory
      exact hbefore.quarantined hstate directory hdirectory

theorem Sound.same {s' : Manager φ} (h : Sound s) (hregistry : s'.registry = s.registry)
    (hactive : s'.active = s.active) (hquarantine : s'.quarantine = s.quarantine) : Sound s' := by
  intro id record hrecord
  rw [hregistry] at hrecord
  have hkept := h id record hrecord
  refine ⟨fun hstate ↦ ?_, fun hstate directory hdirectory ↦ ?_⟩
  · rw [hactive]
    exact hkept.active hstate
  · rw [hquarantine] at hdirectory
    exact hkept.quarantined hstate directory hdirectory

theorem Describes.of_fields {record record' : Record φ} {source : Inspection φ} (h : Describes record source)
    (hversion : record'.version = record.version) (hpackage : record'.packageSha256 = record.packageSha256)
    (hpublisher : record'.publisherId = record.publisherId) : Describes record' source :=
  ⟨hversion ▸ h.version, hpackage ▸ h.package, hpublisher ▸ h.publisher⟩

theorem verifiedString_ok {v : Value φ} {s : String} : verifiedString v = .ok s ↔ v = .string s := by
  rw [verifiedString, demand_ok]
  cases v with
  | string => simp [stringOf]
  | null | bool b | number n | array items | object members => simp [stringOf]

variable {host : Capability.Host} {py : Interpreter φ} {secret : Bytes} {loads : Bytes → Option (Value φ)}

theorem checkInstall_ok {c : InstallCall φ} {checked : Checked φ} (h : checkInstall host py secret loads c = .ok checked) :
    c.verified = .ok checked.inspected ∧ subscript "id" checked.inspected.manifest = .ok (.string checked.id) ∧
      versionOf checked.inspected = .ok (.string checked.version) ∧
      publisherOf checked.inspected = .ok (.string checked.publisherId) ∧
      checkApproval host py secret loads c (.string checked.id) (.string checked.version) = .ok checked.payload := by
  simp only [checkInstall, bind_ok, exists_unit, verifiedString_ok] at h
  obtain ⟨-, inspected, hverified, id, hid, version, hversion, -, -, -, -, -, -, -, -, -, -, -, -, -, -, -, payload, hpayload,
    id', rfl, version', rfl, publisherId, ⟨_, hpublisher, rfl⟩, heq⟩ := h
  cases heq
  exact ⟨hverified, hid, hversion, bind_ok.mpr hpublisher, hpayload⟩

theorem install_cases (s : Manager φ) (c : InstallCall φ) :
    (∃ used, (s.install host py secret loads c).2 = { s with usedNonces := used }) ∨
    ∃ checked used quarantine, checkInstall host py secret loads c = .ok checked ∧
      quarantine = s.quarantine.set (checked.id, checked.version) ⟨checked.inspected, c.unpacked⟩ ∧
      ((c.extraction = .ok () → InsertionMap.lookup "planHash" c.plan = none) ∧
          (s.install host py secret loads c).2 = { s with usedNonces := used, quarantine := quarantine } ∨
        ∃ registry planHash, registry = s.registry.set checked.id (checked.record c.principal planHash) ∧
          (s.install host py secret loads c).2 =
            { s with usedNonces := used, quarantine := quarantine, registry := registry }) := by
  unfold install
  cases hcheck : checkInstall host py secret loads c with
  | error => exact .inl ⟨s.usedNonces, rfl⟩
  | ok checked =>
    dsimp only
    cases consume py s.usedNonces checked.payload with
    | error => exact .inl ⟨s.usedNonces, rfl⟩
    | ok used =>
      refine .inr ⟨checked, used, _, rfl, rfl, ?_⟩
      unfold unpack item
      cases hextraction : c.extraction with
      | error => exact .inl ⟨nofun, rfl⟩
      | ok _ =>
        cases hhash : InsertionMap.lookup "planHash" c.plan with
        | none => exact .inl ⟨fun _ ↦ rfl, rfl⟩
        | some planHash => exact .inr ⟨_, planHash, rfl, rfl⟩

theorem Sound.install (h : Sound s) {c : InstallCall φ} (hsteady : Steady s (.install c)) :
    Sound (s.install host py secret loads c).2 := by
  rcases @install_cases φ host py secret loads s c with
    ⟨used, hs⟩ | ⟨checked, used, _, hcheck, rfl, ⟨hbroken, hs⟩ | ⟨_, planHash, rfl, hs⟩⟩
  · rw [hs]
    exact h.same rfl rfl rfl
  · -- the directory was replaced, and no entry that waits is of that package
    obtain ⟨hverified, hid, hversion, -, -⟩ := checkInstall_ok hcheck
    rw [hs]
    intro id record hrecord
    have hkept := h id record hrecord
    refine ⟨hkept.active, fun hstate directory hdirectory ↦ ?_⟩
    dsimp only at hdirectory
    rw [InsertionMap.get_set] at hdirectory
    split_ifs at hdirectory with hsame
    · rw [Prod.mk.injEq] at hsame
      obtain ⟨rfl, hsame⟩ := hsame
      obtain ⟨hextraction, hhash⟩ := hsteady _ _ _ record hverified hid hversion hrecord hstate hsame.symm
      rw [hbroken hextraction] at hhash
      cases hhash
    · exact hkept.quarantined hstate directory hdirectory
  · obtain ⟨-, -, hversion, hpublisher, -⟩ := checkInstall_ok hcheck
    rw [hs]
    refine h.set rfl (fun _ _ ↦ rfl) (fun j hj version ↦ ?_) ⟨nofun, fun _ directory hdirectory ↦ ?_⟩
    · exact InsertionMap.get_set_ne _ _ fun hsame ↦ hj (congrArg Prod.fst hsame)
    · rw [show (checked.record c.principal planHash).version = checked.version from rfl] at hdirectory
      dsimp only at hdirectory
      rw [InsertionMap.get_set_self] at hdirectory
      cases hdirectory
      exact ⟨hversion, rfl, hpublisher⟩

theorem Sound.activate (h : Sound s) (principal : Principal) (id : String) (now : ℤ) :
    Sound (s.activate py principal id now).2 := by
  unfold Manager.activate
  cases hcheck : checkActivate py s principal id now with
  | error => exact h
  | ok found =>
    obtain ⟨record, directory⟩ := found
    simp only [checkActivate, bind_ok, exists_unit, demand_ok] at hcheck
    obtain ⟨-, record', hrecord, directory', hdirectory, -, -, -, -, heq⟩ := hcheck
    cases heq
    obtain ⟨hrecord, hstate⟩ := Option.filter_eq_some_iff.mp hrecord
    have hdescribes := (h id record hrecord).quarantined (of_decide_eq_true hstate) directory hdirectory
    dsimp only
    refine h.set rfl (fun j hj ↦ ?_) (fun j hj version ↦ ?_) ⟨fun _ ↦ ⟨directory, ?_, ?_⟩, fun h ↦ by cases h⟩
    · exact InsertionMap.get_set_ne _ _ hj
    · exact InsertionMap.get_delete_ne _ fun hsame ↦ hj (congrArg Prod.fst hsame)
    · exact InsertionMap.get_set_self _ _ _
    · exact hdescribes.of_fields rfl rfl rfl

theorem Sound.disable (h : Sound s) (principal : Principal) (id : String) (now : ℤ) :
    Sound (s.disable principal id now).2 := by
  unfold Manager.disable
  split
  · exact h
  · exact h
  · split
    · exact h
    · exact h.set rfl (fun _ _ ↦ rfl) (fun _ _ _ ↦ rfl) ⟨nofun, nofun⟩

theorem Sound.uninstall (h : Sound s) (principal : Principal) (id : String) (now : ℤ) :
    Sound (s.uninstall principal id now).2 := by
  unfold Manager.uninstall
  split
  · exact h
  · exact h
  · exact h.set rfl (fun j hj ↦ InsertionMap.get_delete_ne _ hj) (fun _ _ _ ↦ rfl) ⟨nofun, nofun⟩

theorem Sound.rollback (h : Sound s) {principal : Principal} {now : ℤ}
    (hsteady : Steady s (.rollback principal id now)) : Sound (s.rollback principal id now).2 := by
  unfold Manager.rollback
  split
  · exact h
  · exact h
  · exact h
  next record newest older _ hrecord hbackups =>
    have hsome : s.backups.get id = some (newest :: older) := by
      cases hget : s.backups.get id with
      | none =>
        rw [hget] at hbackups
        cases hbackups
      | some =>
        rw [hget] at hbackups
        exact congrArg some hbackups
    refine h.set rfl (fun j hj ↦ ?_) (fun _ _ _ ↦ rfl) ⟨fun _ ↦ ⟨newest, ?_, ?_⟩, nofun⟩
    · exact InsertionMap.get_set_ne _ _ hj
    · exact InsertionMap.get_set_self _ _ _
    · exact (hsteady record newest older hrecord hsome).of_fields rfl rfl rfl

theorem Sound.step (h : Sound s) {c : Command φ} (hsteady : Steady s c) :
    Sound (Manager.step host py secret loads s c) := by
  cases c with
  | install => exact h.install hsteady
  | activate principal id now => exact h.activate principal id now
  | disable principal id now => exact h.disable principal id now
  | uninstall principal id now => exact h.uninstall principal id now
  | rollback => exact h.rollback hsteady
  | registerPublisher principal publisherId trustLevel now =>
    change Sound (s.registerPublisher principal publisherId trustLevel now).2
    unfold registerPublisher
    split
    · exact h
    · split
      · exact h
      · exact h.same rfl rfl rfl
  | revokePublisher principal publisherId now =>
    change Sound (s.revokePublisher principal publisherId now).2
    unfold revokePublisher
    split
    · exact h
    · split
      · exact h
      · exact h.same rfl rfl rfl
  | revokePackage principal packageSha256 now =>
    change Sound (s.revokePackage principal packageSha256 now).2
    unfold revokePackage
    split
    · exact h
    · exact h.same rfl rfl rfl

theorem invokeBuiltin_permitted {builtins : List String} (h : Faithful s) {principal : Principal} {now : ℤ}
    {directory : Directory φ} {value : Value φ}
    (hinvoke : invokeBuiltin builtins s principal id now = .ok (directory, value)) :
    Permitted s id directory.source := by
  simp only [invokeBuiltin, Revocations.assertAllowed, bind_ok, exists_unit, require_ok, demand_ok] at hinvoke
  obtain ⟨-, record, hrecord, -, -, ⟨hpublisher, hpackage, hcapability⟩, directory', hdirectory, _, _, _, _, _, _, _, _, _, _, _,
    heq⟩ := hinvoke
  cases heq
  obtain ⟨hrecord, hstate⟩ := Option.filter_eq_some_iff.mp hrecord
  obtain ⟨directory', hdirectory', hdescribes⟩ := h id record hrecord (of_decide_eq_true hstate)
  cases hdirectory.symm.trans hdirectory'
  refine ⟨fun publisherId hpublisherId ↦ ?_, hdescribes.package ▸ hpackage, fun version hversion ↦ ?_⟩
  · cases hdescribes.publisher.symm.trans hpublisherId
    exact hpublisher
  · cases hdescribes.version.symm.trans hversion
    exact hcapability

end Steps

section Runs

variable {φ : Type} {host : Capability.Host} {py : Interpreter φ} {secret : Bytes} {loads : Bytes → Option (Value φ)}

end Runs

section Sample

theorem administrator_identified : "actor-1" ≠ "" ∧ "session-1" ≠ "" := by decide

def administrator : Principal := ⟨"actor-1", .admin, "session-1", 0, "local", none, administrator_identified⟩

def versioned (version : String) : Inspection Empty where
  manifest := .object [("id", .string "org.example.echo"), ("version", .string version), ("kind", .string "skill"),
    ("publisher", .object [("id", .string "publisher-1"), ("trustLevel", .string "noesar-official")]),
    ("license", .object [("spdx", .string "MIT")]),
    ("entrypoint", .object [("type", .string "builtin"), ("value", .string "echo")]), ("permissions", .array [])]
  manifestBytes := []
  signature := []
  packageSha256 := version

def installation (version : String) : InstallCall Empty where
  principal := administrator
  verified := .ok (versioned version)
  plan := ((plan .sample integral 0 administrator (.ok (versioned version)) false).toOption).getD []
  approvalToken := none
  extraction := .ok ()
  unpacked := .ok (versioned version).manifest
  now := 0

def installed (version : String) : List (Command Empty) :=
  [.install (installation version), .activate administrator "org.example.echo" 0]

abbrev sampleStep : Manager Empty → Command Empty → Manager Empty := step .sample integral [] (loads integral)

def rolledBack : Manager Empty :=
  Run.after sampleStep .initial (installed "1.0.0" ++ installed "2.0.0" ++ [.rollback administrator "org.example.echo" 0])

def versionText (source : Inspection Empty) : Option String := (versionOf source).toOption.bind fun v ↦ stringOf (some v)

end Sample

end Noesar.Reference
