import Noesar.Paths.Plan

namespace Noesar.Paths

open Lib Lib.PosixPath

section

variable {α : Type} (host : Host) (workspaceRoot : String) (request : Request α)

def target : List String := host.disk.destination (namesOf host [workspaceRoot, rawPath request])

def physicalRoot : List String := host.disk.destination (namesOf host [workspaceRoot])

def Guarded (place : List String) : Prop :=
  ∃ dir ∈ (protectedRoots.map fun root ↦ resolve host [root]) ++ secretDirectories host, dir <+: place

instance (place : List String) : Decidable (Guarded host place) := inferInstanceAs (Decidable (∃ dir ∈ _, dir <+: place))

/-- A plan is about the place where the path really goes. -/
structure Judges (plan : Plan α) : Prop where
  guarded : Guarded host (target host workspaceRoot request) → plan.blocked
  inside : plan.insideWorkspace → physicalRoot host workspaceRoot <+: target host workspaceRoot request

/-- Something is there, and a `..` in the path, or in the workspace root, comes back to where it does in the text. -/
structure Direct : Prop where
  there : existsSync host.disk (candidateOf host workspaceRoot request)
  path : target host workspaceRoot request = host.disk.destination (candidateOf host workspaceRoot request).names
  root : physicalRoot host workspaceRoot = host.disk.destination (resolve host [workspaceRoot])

def reading : List String :=
  let candidate := candidateOf host workspaceRoot request
  if existsSync host.disk candidate then host.disk.destination candidate.names else candidate.names

/-- A link leads into a protected directory from a path that reads as outside of all. -/
def SlipsIn : Prop :=
  Guarded host (target host workspaceRoot request) ∧ ¬Guarded host (reading host workspaceRoot request)

def SlipsOut : Prop :=
  within (reading host workspaceRoot request) (resolve host [workspaceRoot]) ∧
    ¬physicalRoot host workspaceRoot <+: target host workspaceRoot request

end

section

variable {α : Type} {host : Host} {workspaceRoot : String} {request : Request α} {plan : Plan α} {disk : Disk}
  {candidate : Candidate} {child parent place : List String}

theorem within_iff (hparent : parent ≠ []) : within child parent ↔ parent <+: child := by
  simp only [within, hparent, Bool.or_eq_true, decide_eq_true_eq, Bool.and_eq_true, List.isPrefixOf_iff_prefix, ne_eq,
    not_false_eq_true, true_and]
  constructor
  · rintro (rfl | h)
    · exact List.prefix_rfl
    · exact h
  · exact .inr

theorem prefix_of_within (h : within child parent) : parent <+: child := by
  by_cases hparent : parent = []
  · rw [hparent]
    exact List.nil_prefix
  · exact (within_iff hparent).mp h

theorem candidateOf_plain : ∀ name ∈ (candidateOf host workspaceRoot request).names, Plain name := by
  unfold candidateOf
  by_cases habsolute : isAbsolute (rawPath request)
  · simp only [habsolute, if_true]
    exact plain_normalizeSegments
  · simp only [habsolute]
    exact plain_normalizeSegments

theorem realpathSync_some (h : realpathSync disk candidate = some place) : disk.resolve candidate.names = .here place := by
  unfold realpathSync at h
  split at h
  next p hp =>
    split at h
    · cases h
    · rw [hp, Option.some.inj h]
  next => cases h

theorem canonical_eq : (realpathSync host.disk (candidateOf host workspaceRoot request)).getD
    (candidateOf host workspaceRoot request).names = reading host workspaceRoot request := by
  have hplain := @candidateOf_plain α host workspaceRoot request
  unfold reading existsSync
  dsimp only
  generalize candidateOf host workspaceRoot request = candidate at hplain ⊢
  cases hreal : realpathSync host.disk candidate with
  | none => rfl
  | some =>
    rw [Option.getD_some, Option.isSome_some, if_pos rfl]
    exact (Disk.destination_here (realpathSync_some hreal) hplain).symm

theorem resolve_absolute {path : String} (h : isAbsolute path) : resolve host [path] = normalizeSegments false (segments path) := by
  rw [resolve, namesOf, List.foldl_cons, List.foldl_nil, if_pos h]

theorem resolve_snoc {dir name : String} (hname : isAbsolute name = false) (hsegments : segments name = [name])
    (hplain : Plain name) : resolve host [dir, name] = resolve host [dir] ++ [name] := by
  have hnames : namesOf host [dir, name] = namesOf host [dir] ++ [name] := by
    rw [namesOf, List.foldl_cons, List.foldl_cons, List.foldl_nil, hname, if_neg Bool.false_ne_true, hsegments]
    rfl
  rw [resolve, hnames, normalizeSegments, List.foldl_append, List.foldl_cons, List.foldl_nil, push_plain hplain,
    List.reverse_cons]
  rfl

theorem guardedDir_ne_nil {dir : List String}
    (h : dir ∈ (protectedRoots.map fun root ↦ resolve host [root]) ++ secretDirectories host) : dir ≠ [] := by
  have hroots : ∀ root ∈ protectedRoots, isAbsolute root ∧ normalizeSegments false (segments root) ≠ [] := by decide +kernel
  rw [List.mem_append, List.mem_map, secretDirectories, List.mem_pair] at h
  rcases h with ⟨root, hroot, rfl⟩ | rfl | rfl
  · obtain ⟨habsolute, hne⟩ := hroots root hroot
    rwa [resolve_absolute habsolute]
  · rw [resolve_snoc (by decide +kernel) (by decide +kernel) (by decide +kernel)]
    exact List.concat_ne_nil _ _
  · rw [resolve_snoc (by decide +kernel) (by decide +kernel) (by decide +kernel)]
    exact List.concat_ne_nil _ _

theorem guarded_iff : Guarded host place ↔
    (protectedRoots.find? fun root ↦ within place (resolve host [root])).isSome ∨ (secretDirectories host).any (within place) := by
  have hwithin : Guarded host place ↔
      ∃ dir ∈ (protectedRoots.map fun root ↦ resolve host [root]) ++ secretDirectories host, within place dir := by
    apply exists_congr
    intro dir
    apply and_congr_right
    intro hdir
    exact (within_iff (guardedDir_ne_nil hdir)).symm
  rw [hwithin, List.find?_isSome, List.any_eq_true]
  constructor
  · rintro ⟨dir, hdir, h⟩
    rcases List.mem_append.mp hdir with hdir | hdir
    · obtain ⟨root, hroot, rfl⟩ := List.mem_map.mp hdir
      exact .inl ⟨root, hroot, h⟩
    · exact .inr ⟨dir, hdir, h⟩
  · rintro (⟨root, hroot, h⟩ | ⟨dir, hdir, h⟩)
    · exact ⟨_, List.mem_append_left _ (List.mem_map_of_mem hroot), h⟩
    · exact ⟨dir, List.mem_append_right _ hdir, h⟩

theorem createPathPlan_ok (h : createPathPlan host request workspaceRoot = .ok plan) :
    (plan.blocked ↔ Guarded host (reading host workspaceRoot request)) ∧
      plan.insideWorkspace = within (reading host workspaceRoot request) (resolve host [workspaceRoot]) := by
  unfold createPathPlan at h
  dsimp only at h
  rw [canonical_eq] at h
  split at h
  · cases h
  · split at h
    · cases h
    · rw [← Except.ok.inj h, guarded_iff]
      dsimp only
      rw [Bool.or_eq_true]
      exact ⟨Iff.rfl, rfl⟩

theorem Direct.inside (h : Direct host workspaceRoot request)
    (hinside : within (reading host workspaceRoot request) (resolve host [workspaceRoot])) :
    physicalRoot host workspaceRoot <+: target host workspaceRoot request := by
  obtain ⟨place, hplace⟩ := Option.isSome_iff_exists.mp h.there
  have hhere := realpathSync_some hplace
  have hreading : reading host workspaceRoot request = place := by
    rw [← canonical_eq, hplace]
    rfl
  rw [hreading] at hinside
  rw [h.path, h.root, Disk.destination_here hhere candidateOf_plain,
    Disk.destination_prefix hhere (prefix_of_within hinside) plain_normalizeSegments]
  exact prefix_of_within hinside

end

section Sample

def linked : Host where
  disk := (((Disk.empty.mkdir ["etc"]).write ["etc", "passwd"] []).mkdir ["ws"]).symlink ["ws", "link"] "/etc"
  cwd := ["ws"]
  homedir := "/home/owner"

def password : Request String := { path := some "link/passwd" }

def newFile : Request String := { path := some "link/new.conf" }

end Sample

end Noesar.Paths
