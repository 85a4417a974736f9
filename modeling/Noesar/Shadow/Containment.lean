import Noesar.Capability.Ids
import Noesar.Lib.Disk
import Noesar.Shadow.Executor

namespace Noesar.Shadow

open Lib Lib.Framing Lib.PosixPath Capability

inductive Coverage
  | wholeWorkspace
  | declaredPathsOnly
  deriving DecidableEq, Repr

/-- The copy an executor works on, at a directory of a disk: the path it is told, and the
directory to which that path leads. -/
structure DiskShadow (disk : Disk) where
  coverage : Coverage
  root : List String
  real : List String
  plain : ∀ name ∈ root, Plain name
  leads : disk.resolve root = .here real
  directory : disk.get real = some .directory

/-- What the operating system adds: the texts of its errors, and what commands do. -/
structure System where
  message : ℕ → String
  command : ℕ → Disk → Disk × Effect

def diskSurface (system : System) (root : List String) : Surface Disk where
  locate := contained root
  carryOut position disk action location :=
    let effect (performed : Bool) : Effect :=
      if performed then ⟨true, none, none⟩ else ⟨false, some (system.message position), none⟩
    if action.kind = "EXECUTE" then system.command position disk
    else if action.kind = "READ" then (disk, effect (disk.readFile location).isSome)
    else if action.kind = "WRITE" then
      ((disk.writeFile location (utf8 action.contents)).1, effect (disk.writeFile location (utf8 action.contents)).2)
    else if !disk.present location then (disk, ⟨false, some "no such file", none⟩)
    else ((disk.removeFile location).1, effect (disk.removeFile location).2)

def wholeWorkspaceRequired : String :=
  "the executor requires a whole-workspace shadow: one holding only the declared paths cannot observe an undeclared write, and a clean comparison from it would be an artefact of its own construction"

/-- `execute` up to its comparison, which only reads. -/
def executeOn {host : Host} {disk : Disk} (system : System) (sandbox : ExecuteSandbox) (digest : String)
    (tokens : List (JsToken host)) (nowUnix : Number) (minter : JsMinter host) (shadow : DiskShadow disk)
    (actions : List Action) : Except ShadowError (List Outcome × JsMinter host × Disk) :=
  if shadow.coverage ≠ .wholeWorkspace then .error ⟨.invalid, wholeWorkspaceRequired, none⟩
  else .ok (performAll (diskSurface system shadow.root) sandbox digest tokens nowUnix 0 minter disk actions)

def CarriedOut {host : Host} (root : List String) (digest : String) (tokens : List (JsToken host)) (nowUnix : Number)
    (minter : JsMinter host) (action : Action) (location : List String) : Prop :=
  action.kind ∈ Js.operations ∧ contained root action.path = .ok location ∧
    ∃ token, tokenFor tokens action digest = some token ∧
      ∃ left minter', minter.Spends token ⟨action.path, action.kind⟩ nowUnix left minter'

/-- The links of the disk lead an action to no place it would change outside a directory. -/
def Stays (real : List String) (disk : Disk) (action : Action) (location : List String) : Prop :=
  (action.kind = "WRITE" → ∀ p, disk.landing location = some p →
    real <+: p ∨ disk.get p = some .directory ∨ disk.get p = some (.file (utf8 action.contents))) ∧
  (action.kind = "DELETE" → disk.present location = true → ∀ p, disk.removal location = some p → real <+: p)

theorem contained_names {root : List String} (hroot : ∀ name ∈ root, Plain name) {relative : String}
    {location : List String} (h : contained root relative = .ok location) : ∀ name ∈ location, name ≠ ".." := by
  rw [contained_eq hroot] at h
  unfold place at h
  split at h
  · cases h
  · split at h
    · cases h
    · split at h
      · cases h
      next hparent =>
        cases h
        intro name hname
        rcases List.mem_append.mp hname with hname | hname
        · exact (hroot name hname).2.2
        · rintro rfl
          exact hparent (aParentComponent_of_mem hname)

section

variable {host : Host} {disk : Disk} {system : System} {sandbox : ExecuteSandbox} {digest : String}
  {tokens : List (JsToken host)} {nowUnix : Number} {minter : JsMinter host} {root real location : List String}
  {action : Action} {position : ℕ}

theorem performAction_disk (hkind : action.kind ≠ "EXECUTE") :
    (∃ location, CarriedOut root digest tokens nowUnix minter action location ∧
      (performAction (diskSurface system root) sandbox digest tokens nowUnix position minter disk action).2.2 =
        ((diskSurface system root).carryOut position disk action location).1) ∨
    (∀ location, ¬ CarriedOut root digest tokens nowUnix minter action location) ∧
      (performAction (diskSurface system root) sandbox digest tokens nowUnix position minter disk action).2.2 =
        disk := by
  by_cases h : ∃ location, CarriedOut root digest tokens nowUnix minter action location
  · obtain ⟨location, hcarried⟩ := h
    refine .inl ⟨location, hcarried, ?_⟩
    obtain ⟨hoperation, hlocate, token, htoken, left, minter', hspend⟩ := hcarried
    have hspend := TokenMinter.spend_ok_iff.mpr hspend
    have hlocate : (diskSurface system root).locate action.path = .ok location := hlocate
    unfold performAction
    dsimp only
    rw [if_neg fun hk ↦ hkind hk.1, if_neg fun hk ↦ hkind hk.1, if_neg (not_not.mpr hoperation), htoken]
    dsimp only
    rw [hspend]
    dsimp only
    rw [if_neg fun hk ↦ hkind hk.1, hlocate]
  · refine .inr ⟨not_exists.mp h, ?_⟩
    have hcases := performAction_cases (diskSurface system root) sandbox digest tokens nowUnix position minter disk action
    rcases hcases with ⟨_, _, _, he⟩ | ⟨token, left, minter', location, htoken, hspend, hlocate, hoperation, -⟩
    · rw [he]
    · exact absurd ⟨location, hoperation, hlocate, token, htoken, left, minter', hspend⟩ h

theorem carryOut_disk (hkind : action.kind ≠ "EXECUTE") (hoperation : action.kind ∈ Js.operations) :
    (action.kind = "READ" ∧ ((diskSurface system root).carryOut position disk action location).1 = disk) ∨
    (action.kind = "WRITE" ∧ ((diskSurface system root).carryOut position disk action location).1 =
      (disk.writeFile location (utf8 action.contents)).1) ∨
    action.kind = "DELETE" ∧ ((diskSurface system root).carryOut position disk action location).1 =
      if disk.present location then (disk.removeFile location).1 else disk := by
  simp only [Js.operations, List.mem_cons, List.not_mem_nil, or_false] at hoperation
  rcases hoperation with hk | hk | hk | hk
  · exact .inl ⟨hk, by simp [diskSurface, hk]⟩
  · exact .inr (.inl ⟨hk, by simp [diskSurface, hk]⟩)
  · refine .inr (.inr ⟨hk, ?_⟩)
    cases hpresent : disk.present location with
    | true | false => simp [diskSurface, hk, hpresent]
  · exact absurd hk hkind

theorem carryOut_directory (hroot : ∀ name ∈ root, Plain name) (hkind : action.kind ≠ "EXECUTE")
    (hoperation : action.kind ∈ Js.operations) (hlocate : contained root action.path = .ok location)
    (hreal : disk.get real = some .directory) :
    ((diskSurface system root).carryOut position disk action location).1.get real = some .directory := by
  rcases @carryOut_disk disk system root location action position hkind hoperation with
    ⟨-, he⟩ | ⟨-, he⟩ | ⟨-, he⟩
  · rw [he, hreal]
  · rw [he]
    exact Disk.writeFile_directory hreal (contained_names hroot hlocate)
  · rw [he]
    split
    · exact Disk.removeFile_directory hreal
    · exact hreal

theorem carryOut_inside_iff (hroot : ∀ name ∈ root, Plain name) (hkind : action.kind ≠ "EXECUTE")
    (hoperation : action.kind ∈ Js.operations) (hlocate : contained root action.path = .ok location)
    (hreal : disk.get real = some .directory) :
    (∀ q, ¬ real <+: q →
      ((diskSurface system root).carryOut position disk action location).1.get q = disk.get q) ↔
      Stays real disk action location := by
  have hwrite := @Disk.writeFile_inside_iff disk location real (utf8 action.contents) hreal
    (contained_names hroot hlocate)
  have hremove := @Disk.removeFile_inside_iff disk location real
  unfold Stays
  rcases @carryOut_disk disk system root location action position hkind hoperation with
    ⟨hk, he⟩ | ⟨hk, he⟩ | ⟨hk, he⟩
  · rw [he]
    simp [hk]
  · rw [he, hwrite]
    simp [hk]
  · rw [he]
    cases disk.present location with
    | true => simp [hk, hremove]
    | false => simp [hk]

theorem performAction_inside_iff (hroot : ∀ name ∈ root, Plain name) (hkind : action.kind ≠ "EXECUTE")
    (hreal : disk.get real = some .directory) :
    (∀ q, ¬ real <+: q →
      (performAction (diskSurface system root) sandbox digest tokens nowUnix position minter disk action).2.2.get q =
        disk.get q) ↔
      ∀ location, CarriedOut root digest tokens nowUnix minter action location → Stays real disk action location := by
  rcases performAction_disk hkind with ⟨location, hcarried, he⟩ | ⟨hrefused, he⟩
  · rw [he, carryOut_inside_iff hroot hkind hcarried.1 hcarried.2.1 hreal]
    constructor
    · intro hstays location' hcarried'
      have hlocate := hcarried'.2.1
      rw [hcarried.2.1] at hlocate
      cases hlocate
      exact hstays
    · intro hstays
      exact hstays location hcarried
  · rw [he]
    constructor
    · intro _ location hcarried
      exact absurd hcarried (hrefused location)
    · intro _ q _
      rfl

theorem performAction_directory (hroot : ∀ name ∈ root, Plain name) (hkind : action.kind ≠ "EXECUTE")
    (hreal : disk.get real = some .directory) :
    (performAction (diskSurface system root) sandbox digest tokens nowUnix position minter disk action).2.2.get real =
      some .directory := by
  rcases performAction_disk hkind with ⟨location, ⟨hoperation, hlocate, -⟩, he⟩ | ⟨-, he⟩
  · rw [he]
    exact carryOut_directory hroot hkind hoperation hlocate hreal
  · rw [he, hreal]

theorem performAll_directory (hroot : ∀ name ∈ root, Plain name) {actions : List Action}
    (hkinds : ∀ action ∈ actions, action.kind ≠ "EXECUTE") (hreal : disk.get real = some .directory) :
    (performAll (diskSurface system root) sandbox digest tokens nowUnix position minter disk actions).2.2.get real =
      some .directory := by
  induction actions generalizing position minter disk with
  | nil => exact hreal
  | cons action actions ih =>
    rw [performAll_cons]
    apply ih (fun a ha ↦ hkinds a (List.mem_cons_of_mem action ha))
    exact performAction_directory hroot (hkinds action (by simp)) hreal

theorem performAll_concat_inside_iff (hroot : ∀ name ∈ root, Plain name) {actions : List Action}
    (hkinds : ∀ action ∈ actions, action.kind ≠ "EXECUTE") (hkind : action.kind ≠ "EXECUTE")
    (hreal : disk.get real = some .directory) {ran : List Outcome × JsMinter host × Disk}
    (hran : performAll (diskSurface system root) sandbox digest tokens nowUnix 0 minter disk actions = ran)
    (hinside : ∀ q, ¬ real <+: q → ran.2.2.get q = disk.get q) :
    (∀ q, ¬ real <+: q → (performAll (diskSurface system root) sandbox digest tokens nowUnix 0 minter disk
      (actions ++ [action])).2.2.get q = disk.get q) ↔
      ∀ location, CarriedOut root digest tokens nowUnix ran.2.1 action location →
        Stays real ran.2.2 action location := by
  have hdirectory : ran.2.2.get real = some .directory := by
    rw [← hran]
    exact performAll_directory hroot hkinds hreal
  rw [performAll_concat, hran, ← @performAction_inside_iff host ran.2.2 system sandbox digest tokens nowUnix ran.2.1
    root real action (0 + actions.length) hroot hkind hdirectory]
  constructor
  · intro hafter q hq
    rw [hafter q hq, hinside q hq]
  · intro hstep q hq
    rw [hstep q hq, hinside q hq]

end

/-- The executor leaves alone all that lies outside its copy, after any number of its
actions, exactly when the links of the disk, as it is before each action, lead that action
nowhere else. -/
theorem execute_stays_inside_iff {host : Host} {disk : Disk} (system : System) (sandbox : ExecuteSandbox)
    (digest : String) (tokens : List (JsToken host)) (nowUnix : Number) (minter : JsMinter host)
    (shadow : DiskShadow disk) (actions : List Action) (hkinds : ∀ action ∈ actions, action.kind ≠ "EXECUTE") :
    (∀ n ran, executeOn system sandbox digest tokens nowUnix minter shadow (actions.take n) = .ok ran →
      ∀ q, ¬ shadow.real <+: q → ran.2.2.get q = disk.get q) ↔
    ∀ n ran action location,
      executeOn system sandbox digest tokens nowUnix minter shadow (actions.take n) = .ok ran →
      actions[n]? = some action → CarriedOut shadow.root digest tokens nowUnix ran.2.1 action location →
      Stays shadow.real ran.2.2 action location := by
  by_cases hcoverage : shadow.coverage = .wholeWorkspace
  · have hran : ∀ n ran, executeOn system sandbox digest tokens nowUnix minter shadow (actions.take n) = .ok ran ↔
        performAll (diskSurface system shadow.root) sandbox digest tokens nowUnix 0 minter disk (actions.take n) =
          ran := by
      intro n ran
      rw [executeOn, if_neg (not_not.mpr hcoverage), Except.ok.injEq]
    simp only [hran]
    have hkindsTake (n : ℕ) : ∀ action ∈ actions.take n, action.kind ≠ "EXECUTE" := fun action h ↦
      hkinds action (List.mem_of_mem_take h)
    constructor
    · intro hinside n ran action location hn haction
      have hconcat : actions.take (n + 1) = actions.take n ++ [action] := by
        rw [List.take_add_one, haction]
        rfl
      have hafter := hinside (n + 1)
      rw [hconcat] at hafter
      exact (performAll_concat_inside_iff shadow.plain (hkindsTake n) (hkinds action (List.mem_of_getElem? haction))
        shadow.directory hn (hinside n ran hn)).mp (hafter _ rfl) location
    · intro hstays n
      induction n with
      | zero =>
        intro ran hn q _
        rw [List.take_zero] at hn
        rw [← hn]
        rfl
      | succ n ih =>
        cases haction : actions[n]? with
        | none =>
          have hsame : actions.take (n + 1) = actions.take n := by
            rw [List.take_add_one, haction]
            exact List.append_nil _
          rw [hsame]
          exact ih
        | some action =>
          have hconcat : actions.take (n + 1) = actions.take n ++ [action] := by
            rw [List.take_add_one, haction]
            rfl
          intro ran hn
          rw [hconcat] at hn
          rw [← hn]
          exact (performAll_concat_inside_iff shadow.plain (hkindsTake n)
            (hkinds action (List.mem_of_getElem? haction)) shadow.directory rfl (ih _ rfl)).mpr
            fun location ↦ hstays n _ action location rfl haction
  · simp [executeOn, hcoverage]

section Sample

/-- A workspace with a link to a directory of its own, and its copy: the link is copied
as it is written. -/
def sampleDisk : Disk :=
  ((((((((Disk.empty.mkdir ["ws"]).mkdir ["ws", "data"]).write ["ws", "data", "x.txt"] (utf8 "old")).symlink
    ["ws", "current"] "/ws/data").mkdir ["shadow"]).mkdir ["shadow", "data"]).write
    ["shadow", "data", "x.txt"] (utf8 "old")).symlink ["shadow", "current"] "/ws/data")

def sampleShadow : DiskShadow sampleDisk :=
  ⟨.wholeWorkspace, ["shadow"], ["shadow"], by decide, by decide +kernel, by decide +kernel⟩

def writePlan (path : String) : AuthorizedPlan Host.sample Number RawLimits :=
  ⟨⟨"safe", [], [⟨"s", "edit", [path], [], [], ⟨false, false, none⟩⟩]⟩, ⟨"owner", .ofRat 0, .ofRat 900⟩, _, rfl⟩

def writeRequest (path : String) : (Js.dialect Host.sample).Asked := Js.sampleRequest "s" [path] ["WRITE"] (.ofRat 1)

def writeOnce (path contents : String) (n : ℕ) : Except ShadowError (List Outcome × JsMinter Host.sample × Disk) :=
  executeOn ⟨fun _ ↦ "", fun _ disk ↦ (disk, ⟨false, none, none⟩)⟩ .absent (writePlan path).digest
    [Js.sampleSession.minter.tokenFor (writePlan path) (writeRequest path) none] (.ofRat 2)
    (Js.sampleSession.step (.mint (writePlan path) (writeRequest path) (Number.ofRat 1))).minter sampleShadow
    ([Action.write path contents].take n)

end Sample

theorem execute_stays_inside_iff_direct_write :
    ((writeOnce "data/x.txt" "new" 1).toOption.map fun ran ↦ ran.2.2.get ["shadow", "data", "x.txt"]) =
      some (some (.file (utf8 "new"))) ∧
    ∀ n ran, writeOnce "data/x.txt" "new" n = .ok ran →
      ∀ q, ¬ ["shadow"] <+: q → ran.2.2.get q = sampleDisk.get q := by
  refine ⟨by decide +kernel, ?_⟩
  refine (execute_stays_inside_iff _ _ _ _ _ _ sampleShadow [Action.write "data/x.txt" "new"] (by decide)).mpr ?_
  intro n ran action location hn haction hcarried
  cases n with
  | zero =>
    cases haction
    cases hn
    have hlocation : contained ["shadow"] "data/x.txt" = .ok ["shadow", "data", "x.txt"] := by decide +kernel
    have hlanding : sampleDisk.landing ["shadow", "data", "x.txt"] = some ["shadow", "data", "x.txt"] := by
      decide +kernel
    have hlocate : contained ["shadow"] "data/x.txt" = .ok location := hcarried.2.1
    rw [hlocation] at hlocate
    cases hlocate
    refine ⟨fun _ p hp ↦ ?_, fun hk ↦ absurd hk (by decide)⟩
    have hp : sampleDisk.landing ["shadow", "data", "x.txt"] = some p := hp
    rw [hlanding] at hp
    cases hp
    exact .inl ⟨["data", "x.txt"], rfl⟩
  | succ => cases haction

/-- A write below the copied link arrives in the workspace. -/
theorem write_through_link_leaves_shadow :
    sampleDisk.get ["ws", "data", "x.txt"] = some (.file (utf8 "old")) ∧
    ¬ sampleShadow.real <+: ["ws", "data", "x.txt"] ∧
    ((writeOnce "current/x.txt" "new" 1).toOption.map fun ran ↦ ran.2.2.get ["ws", "data", "x.txt"]) =
      some (some (.file (utf8 "new"))) := by
  decide +kernel

end Noesar.Shadow
