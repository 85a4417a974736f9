import Noesar.Shadow.Containment
import Noesar.Shadow.Rust

namespace Noesar.Shadow

open Lib Lib.Framing Lib.PosixPath Capability

namespace Rust

/-- A joined path: the names that lead to it, and whether it ends in a separator or a dot,
so that it can only name a directory. -/
structure Place where
  names : List String
  asDirectory : Bool
  deriving DecidableEq, Repr

def asDirectory (path : String) : Bool := (segments path).getLast?.any fun seg ↦ seg = "" || seg = "."

/-- The check of the joined path against the root never fires: a relative path is joined
below it. -/
def contained (root : List String) (relative : String) : Except ShadowError Place :=
  if isAbsolute relative then
    .error ⟨.containment, "an absolute path is not inside the shadow", some relative⟩
  else if ".." ∈ segments relative then
    .error ⟨.containment, "a parent component leaves the shadow", some relative⟩
  else .ok ⟨root ++ Disk.parts relative, asDirectory relative⟩

/-- `create_dir_all` of the parent, whose failure is not looked at, and a write. -/
def writeInto (disk : Disk) (place : Place) (bytes : Bytes) : Disk × Bool :=
  let disk := (disk.makeAll place.names.dropLast.reverse).getD disk
  if place.asDirectory then (disk, false)
  else match disk.resolve place.names with
    | .here p => if disk.get p = some .directory then (disk, false) else (disk.write p bytes, true)
    | .missing p [] => (disk.write p bytes, true)
    | _ => (disk, false)

def act (disk : Disk) (action : Action) (place : Place) : Disk × Bool :=
  match action with
  | .read _ => (disk, !place.asDirectory && (disk.readFile place.names).isSome)
  | .write _ contents => writeInto disk place (utf8 contents)
  | .delete _ => if place.asDirectory then (disk, false) else disk.removeFile place.names
  | .execute _ _ _ => (disk, false)

def diskSurface (system : System) (root : List String) : Surface Disk Place where
  locate := contained root
  carryOut position disk action place :=
    if action.operation = .execute then system.command position disk
    else ((act disk action place).1,
      if (act disk action place).2 then ⟨true, none, none⟩ else ⟨false, some (system.message position), none⟩)

def Action.js : Action → Shadow.Action
  | .read path => ⟨"READ", path, "", none, "", []⟩
  | .write path contents => Shadow.Action.write path contents
  | .delete path => ⟨"DELETE", path, "", none, "", []⟩
  | .execute path command args => ⟨"EXECUTE", path, "", none, command, args⟩

def Takes (path : String) : Prop := isAbsolute path = false ∧ ".." ∉ segments path ∧ asDirectory path = false

instance (path : String) : Decidable (Takes path) := inferInstanceAs (Decidable (_ ∧ _))

theorem writeInto_eq_writeFile {disk : Disk} {names : List String} {bytes : Bytes}
    (hnames : ∀ name ∈ names, name ≠ "..") : writeInto disk ⟨names, false⟩ bytes = disk.writeFile names bytes := by
  unfold writeInto Disk.writeFile
  dsimp only
  rw [if_neg (by simp)]
  cases hmade : disk.makeAll names.dropLast.reverse with
  | some => rfl
  | none =>
    obtain ⟨hhere, hmissing⟩ := Disk.resolve_of_makeAll_none hnames hmade
    rw [Option.getD_none]
    cases hresolve : disk.resolve names with
    | here p => exact absurd hresolve (hhere p)
    | missing p rest =>
      cases rest with
      | nil => exact absurd hresolve (hmissing p)
      | cons => rfl
    | blocked | follow => rfl

end Rust

def act (disk : Disk) (action : Rust.Action) (names : List String) : Disk × Bool :=
  match action with
  | .read _ => (disk, (disk.readFile names).isSome)
  | .write _ contents => disk.writeFile names (utf8 contents)
  | .delete _ => if disk.present names then disk.removeFile names else (disk, false)
  | .execute _ _ _ => (disk, false)

theorem carryOut_act (system : System) (root : List String) (position : ℕ) (disk : Disk) (names : List String)
    {action : Rust.Action} (hkind : action.operation ≠ .execute) :
    ((diskSurface system root).carryOut position disk action.js names).1 = (act disk action names).1 ∧
      ((diskSurface system root).carryOut position disk action.js names).2.performed = (act disk action names).2 := by
  have heffect (performed : Bool) (message : String) :
      (if performed = true then (⟨true, none, none⟩ : Effect) else ⟨false, some message, none⟩).performed = performed := by
    cases performed <;> rfl
  cases action with
  | read | write => exact ⟨rfl, heffect _ _⟩
  | delete =>
    unfold act
    cases hpresent : disk.present names with
    | true => exact ⟨by simp [diskSurface, Rust.Action.js, hpresent], by simp [diskSurface, Rust.Action.js, hpresent, heffect]⟩
    | false => exact ⟨by simp [diskSurface, Rust.Action.js, hpresent], by simp [diskSurface, Rust.Action.js, hpresent]⟩
  | execute => exact absurd rfl hkind

theorem Rust.carryOut_act (system : System) (root : List String) (position : ℕ) (disk : Disk) (place : Place)
    {action : Rust.Action} (hkind : action.operation ≠ .execute) :
    ((Rust.diskSurface system root).carryOut position disk action place).1 = (Rust.act disk action place).1 ∧
      ((Rust.diskSurface system root).carryOut position disk action place).2.performed =
        (Rust.act disk action place).2 := by
  unfold Rust.diskSurface
  dsimp only
  rw [if_neg hkind]
  refine ⟨rfl, ?_⟩
  cases (Rust.act disk action place).2 <;> rfl

theorem act_failed {disk : Disk} {action : Rust.Action} {names : List String} (hnames : ∀ name ∈ names, name ≠ "..")
    (h : (act disk action names).2 = false) : (act disk action names).1 = disk := by
  cases action with
  | read => rfl
  | write => exact (Disk.writeFile_failed hnames h).2
  | delete =>
    unfold act Disk.removeFile at h ⊢
    cases hpresent : disk.present names with
    | false => rfl
    | true =>
      cases hremoval : disk.removal names with
      | none => rfl
      | some => simp [hpresent, hremoval] at h
  | execute => rfl

theorem foldl_push_upward {segs : List String} (h : ".." ∉ segs) (stack : List String) :
    segs.foldl (push true) stack = (segs.filter fun seg ↦ seg ≠ "" && seg ≠ ".").reverse ++ stack := by
  induction segs generalizing stack with
  | nil => rfl
  | cons seg segs ih =>
    have hseg : seg ≠ ".." := fun he ↦ h (by simp [he])
    rw [List.foldl_cons, ih (fun hm ↦ h (List.mem_cons_of_mem seg hm)), List.filter_cons]
    by_cases htrivial : seg = "" ∨ seg = "."
    · have hpush : push true stack seg = stack := by simp [push, htrivial]
      have hout : ¬ (seg ≠ "" && seg ≠ ".") = true := by
        simp only [Bool.and_eq_true, decide_eq_true_eq, ← not_or, not_not]
        exact htrivial
      rw [hpush, if_neg hout]
    · have hplain : Plain seg := ⟨fun he ↦ htrivial (.inl he), fun he ↦ htrivial (.inr he), hseg⟩
      have hin : (seg ≠ "" && seg ≠ ".") = true := by
        simp only [Bool.and_eq_true, decide_eq_true_eq]
        exact ⟨hplain.1, hplain.2.1⟩
      rw [push_plain hplain, if_pos hin]
      simp

variable {path : String}

theorem normalize_eq_parts (h : ".." ∉ segments path) : normalize path = Disk.parts path := by
  unfold PosixPath.normalize normalizeSegments Disk.parts
  rw [foldl_push_upward h, List.append_nil, List.reverse_reverse]

theorem parts_names (h : ".." ∉ segments path) : ∀ name ∈ Disk.parts path, name ≠ ".." := by
  rintro name hname rfl
  exact h (List.mem_of_mem_filter hname)

theorem place_ok {names : List String} (h : place path = .ok names) :
    isAbsolute path = false ∧ names = normalize path ∧ ∀ name ∈ names, name ≠ ".." := by
  unfold place at h
  split_ifs at h with hempty habsolute hparent
  cases h
  refine ⟨Bool.eq_false_of_not_eq_true habsolute, rfl, ?_⟩
  rintro name hname rfl
  exact hparent (aParentComponent_of_mem hname)

def tried (root : List String) (disk : Disk) (action : Rust.Action) : Disk × Bool :=
  match place action.path with
  | .ok names => act disk action (root ++ names)
  | .error _ => (disk, false)

def Rust.tried (root : List String) (disk : Disk) (action : Rust.Action) : Disk × Bool :=
  match Rust.contained root action.path with
  | .ok place => Rust.act disk action place
  | .error _ => (disk, false)

/-- Where the two sides do the same on files. A path only one of them acts on is one whose
effect fails; a path neither acts on has its directories, if it is to be written; and what is
to be deleted is not a link that leads nowhere. -/
structure EffectsAlike (root : List String) (disk : Disk) (action : Rust.Action) : Prop where
  jsOnly : ∀ names, place action.path = .ok names → ¬ Rust.Takes action.path →
    (act disk action (root ++ names)).2 = false
  rustOnly : (∀ names, place action.path ≠ .ok names) → Rust.Takes action.path →
    (Rust.act disk action ⟨root ++ Disk.parts action.path, false⟩).2 = false
  directories : ∀ path contents, action = .write path contents → (∀ names, place path ≠ .ok names) →
    isAbsolute path = false → ".." ∉ segments path → Rust.asDirectory path = true →
    (disk.makeAll (root ++ Disk.parts path).dropLast.reverse).getD disk = disk
  deletes : ∀ path names, action = .delete path → place path = .ok names → Rust.Takes path →
    disk.present (root ++ names) = true ∨ disk.removal (root ++ names) = none

section

variable {root : List String} {disk : Disk} {action : Rust.Action}

theorem Rust.contained_cases (root : List String) (path : String) :
    (∃ e, Rust.contained root path = .error e ∧ ¬ Rust.Takes path ∧ (isAbsolute path = true ∨ ".." ∈ segments path)) ∨
    isAbsolute path = false ∧ ".." ∉ segments path ∧
      Rust.contained root path = .ok ⟨root ++ Disk.parts path, Rust.asDirectory path⟩ := by
  unfold Rust.contained Rust.Takes
  by_cases habsolute : isAbsolute path = true
  · rw [if_pos habsolute]
    exact .inl ⟨_, rfl, fun h ↦ by rw [habsolute] at h; exact absurd h.1 (by simp), .inl habsolute⟩
  · rw [if_neg habsolute]
    by_cases hdots : ".." ∈ segments path
    · rw [if_pos hdots]
      exact .inl ⟨_, rfl, fun h ↦ h.2.1 hdots, .inr hdots⟩
    · rw [if_neg hdots]
      exact .inr ⟨Bool.eq_false_of_not_eq_true habsolute, hdots, rfl⟩

variable {names : List String}

theorem act_alike_iff (hnames : ∀ name ∈ names, name ≠ "..") :
    act disk action names = Rust.act disk action ⟨names, false⟩ ↔
      ∀ path, action = .delete path → disk.present names = true ∨ disk.removal names = none := by
  cases action with
  | read => simp [act, Rust.act]
  | write => simp [act, Rust.act, Rust.writeInto_eq_writeFile hnames]
  | execute => simp [act, Rust.act]
  | delete path =>
    have hout : (∀ p, Rust.Action.delete path = .delete p → disk.present names = true ∨ disk.removal names = none) ↔
        (disk.present names = true ∨ disk.removal names = none) := by simp
    rw [hout]
    unfold act Rust.act Disk.removeFile
    cases hpresent : disk.present names with
    | true => simp
    | false =>
      cases hremoval : disk.removal names with
      | none => simp
      | some => simp

theorem Rust.act_failed (hnames : ∀ name ∈ names, name ≠ "..") (h : (Rust.act disk action ⟨names, false⟩).2 = false) :
    (Rust.act disk action ⟨names, false⟩).1 = disk := by
  cases action with
  | read => rfl
  | write =>
    unfold Rust.act at h ⊢
    dsimp only at h ⊢
    rw [Rust.writeInto_eq_writeFile hnames] at h ⊢
    exact (Disk.writeFile_failed hnames h).2
  | delete =>
    unfold Rust.act Disk.removeFile at h ⊢
    cases hremoval : disk.removal names with
    | none => rfl
    | some => simp [hremoval] at h
  | execute => rfl

theorem Rust.act_asDirectory (disk : Disk) (action : Rust.Action) (names : List String) :
    Rust.act disk action ⟨names, true⟩ = (match action with
      | .write _ _ => (disk.makeAll names.dropLast.reverse).getD disk
      | _ => disk, false) := by
  cases action with
  | read | write | delete | execute => rfl

theorem effectsAlike_iff_of_jsOnly (hplace : place action.path = .ok names) (htakes : ¬ Rust.Takes action.path) :
    EffectsAlike root disk action ↔ (act disk action (root ++ names)).2 = false := by
  refine ⟨fun h ↦ h.jsOnly names hplace htakes, fun hfails ↦ ⟨?_, fun hno ↦ absurd hplace (hno names), ?_, ?_⟩⟩
  · intro names' hplace' _
    rw [hplace] at hplace'
    cases hplace'
    exact hfails
  · rintro path contents rfl hno
    exact absurd hplace (hno names)
  · rintro path names' rfl _ htakes'
    exact absurd htakes' htakes

theorem effectsAlike_iff_of_both {names : List String} (hplace : place action.path = .ok names)
    (htakes : Rust.Takes action.path) :
    EffectsAlike root disk action ↔ ∀ path, action = .delete path →
      disk.present (root ++ names) = true ∨ disk.removal (root ++ names) = none := by
  refine ⟨?_, fun hdeletes ↦ ⟨fun _ _ hno ↦ absurd htakes hno, fun hno ↦ absurd hplace (hno names), ?_, ?_⟩⟩
  · rintro h path rfl
    exact h.deletes path names rfl hplace htakes
  · rintro path contents rfl hno
    exact absurd hplace (hno names)
  · rintro path names' rfl hplace' _
    obtain rfl : names = names' := Except.ok.inj (hplace.symm.trans hplace')
    exact hdeletes path rfl

theorem effectsAlike_iff_of_rustOnly (hno : ∀ names, place action.path ≠ .ok names)
    (htakes : Rust.Takes action.path) :
    EffectsAlike root disk action ↔ (Rust.act disk action ⟨root ++ Disk.parts action.path, false⟩).2 = false := by
  refine ⟨fun h ↦ h.rustOnly hno htakes, fun hfails ↦ ⟨fun _ hok ↦ absurd hok (hno _), fun _ _ ↦ hfails, ?_, ?_⟩⟩
  · rintro path contents rfl _ _ _ hdirectory
    exact absurd (hdirectory.symm.trans htakes.2.2) (by simp)
  · rintro path names rfl hok
    exact absurd hok (hno names)

theorem effectsAlike_iff_of_neither (hno : ∀ names, place action.path ≠ .ok names)
    (htakes : ¬ Rust.Takes action.path) :
    EffectsAlike root disk action ↔ ∀ path contents, action = .write path contents → isAbsolute path = false →
      ".." ∉ segments path → Rust.asDirectory path = true →
      (disk.makeAll (root ++ Disk.parts path).dropLast.reverse).getD disk = disk := by
  refine ⟨?_, fun hmakes ↦ ⟨fun _ hok ↦ absurd hok (hno _), fun _ ht ↦ absurd ht htakes, ?_, ?_⟩⟩
  · rintro h path contents rfl
    exact h.directories path contents rfl hno
  · rintro path contents rfl _
    exact hmakes path contents rfl
  · rintro path names rfl hok
    exact absurd hok (hno names)

theorem act_eq_nothing_iff {other : Disk} (hnames : ∀ name ∈ names, name ≠ "..")
    (hother : (act disk action names).2 = false → other = disk) :
    act disk action names = (other, false) ↔ (act disk action names).2 = false := by
  constructor
  · intro he
    rw [he]
  · intro hfails
    rw [hother hfails]
    exact Prod.ext (act_failed hnames hfails) hfails

theorem tried_alike_iff (hroot : ∀ name ∈ root, name ≠ "..") :
    tried root disk action = Rust.tried root disk action ↔ EffectsAlike root disk action := by
  have hfull : ∀ {names : List String}, (∀ name ∈ names, name ≠ "..") → ∀ name ∈ root ++ names, name ≠ ".." := by
    intro names hnames name hname
    rcases List.mem_append.mp hname with hname | hname
    · exact hroot name hname
    · exact hnames name hname
  unfold tried Rust.tried
  cases hplace : place action.path with
  | ok =>
    obtain ⟨habsolute, rfl, hnames⟩ := place_ok hplace
    dsimp only
    rcases Rust.contained_cases root action.path with ⟨e, he, htakes, -⟩ | ⟨-, hdots, he⟩
    · -- the crate refuses a path in which the control plane has normalised `..` away
      rw [he, effectsAlike_iff_of_jsOnly hplace htakes]
      exact act_eq_nothing_iff (hfull hnames) fun _ ↦ rfl
    · rw [he]
      rw [normalize_eq_parts hdots] at hplace hnames ⊢
      dsimp only
      cases hdirectory : Rust.asDirectory action.path with
      | true =>
        have htakes : ¬ Rust.Takes action.path := fun h ↦ absurd (hdirectory.symm.trans h.2.2) (by simp)
        rw [Rust.act_asDirectory, effectsAlike_iff_of_jsOnly hplace htakes]
        apply act_eq_nothing_iff (hfull hnames)
        intro hfails
        cases action with
        | write => exact (Disk.writeFile_failed (hfull hnames) hfails).1
        | read | delete | execute => rfl
      | false => rw [act_alike_iff (hfull hnames), effectsAlike_iff_of_both hplace ⟨habsolute, hdots, hdirectory⟩]
  | error =>
    have hno : ∀ names, place action.path ≠ .ok names := by
      intro names hnames
      rw [hplace] at hnames
      cases hnames
    dsimp only
    rcases Rust.contained_cases root action.path with ⟨e', he, htakes, hout⟩ | ⟨habsolute, hdots, he⟩
    · rw [he, effectsAlike_iff_of_neither hno htakes]
      refine iff_of_true rfl ?_
      rintro path contents rfl habsolute hdots
      rcases hout with hout | hout
      · exact absurd (hout.symm.trans habsolute) (by simp)
      · exact absurd hout hdots
    · rw [he]
      dsimp only
      cases hdirectory : Rust.asDirectory action.path with
      | true =>
        have htakes : ¬ Rust.Takes action.path := fun h ↦ absurd (hdirectory.symm.trans h.2.2) (by simp)
        rw [Rust.act_asDirectory, effectsAlike_iff_of_neither hno htakes]
        constructor
        · rintro hsame path contents rfl _ _ _
          exact (congrArg Prod.fst hsame).symm
        · intro hmakes
          cases action with
          | write path contents => exact Prod.ext (hmakes path contents rfl habsolute hdots hdirectory).symm rfl
          | read | delete | execute => rfl
      | false =>
        rw [effectsAlike_iff_of_rustOnly hno ⟨habsolute, hdots, hdirectory⟩]
        constructor
        · intro hsame
          exact (congrArg Prod.snd hsame).symm
        · intro hfails
          exact Prod.ext (Rust.act_failed (hfull (parts_names hdots)) hfails).symm hfails.symm

end

end Noesar.Shadow
