import Noesar.Reasoning.Plans

namespace Noesar.Reasoning

open Lib

variable {L : Type} {workspaceRoot : String} {step : Step L} {parts : List (Step L)}

/-- The parts of a step are all of it, in order, and small enough. -/
structure LosesNothing (step : Step L) (parts : List (Step L)) : Prop where
  sized : ∀ part ∈ parts, part.files.length ≤ maxVerifiableFiles ∧ part.commands.length ≤ 1
  commands : parts.flatMap Step.commands = step.commands
  files : ∀ file, file ∈ step.files ↔ ∃ part ∈ parts, file ∈ part.files
  first : parts.head?.map Step.dependsOn = some step.dependsOn
  chained : ∀ index part next, parts[index]? = some part → parts[index + 1]? = some next → next.dependsOn = [part.id]
  destructive : step.blastRadius.destructive = true → ∃ part ∈ parts, part.blastRadius.destructive = true
  reaches : step.blastRadius.reachesOutsideWorkspace = true → ∃ part ∈ parts, part.blastRadius.reachesOutsideWorkspace = true
  limits : ∀ part ∈ parts, part.blastRadius.limits = step.blastRadius.limits

structure DecomposesWhole (workspaceRoot : String) (step : Step L) : Prop where
  loses : ∀ parts, decompose workspaceRoot step = some parts → LosesNothing step parts
  agree : Rust.decompose workspaceRoot step.unlimited = .ok (match decompose workspaceRoot step with
    | none => .alreadyVerifiable
    | some parts => .split (parts.map Step.unlimited))

def filesParts (workspaceRoot : String) (step : Step L) : List (Step L) :=
  (chunks maxVerifiableFiles step.files).mapIdx (filesPart workspaceRoot step)

def commandParts (step : Step L) : List (Step L) := step.commands.mapIdx (commandPart step)

theorem length_filesParts : (filesParts workspaceRoot step).length = (step.files.length + 2) / 3 := by
  simp [filesParts, maxVerifiableFiles]

theorem decompose_eq : decompose workspaceRoot step =
    if maxVerifiableFiles < step.files.length then some (filesParts workspaceRoot step)
    else if 1 < step.commands.length then some (commandParts step)
    else none := by
  have hlength := @length_filesParts L workspaceRoot step
  unfold decompose
  by_cases hfiles : maxVerifiableFiles < step.files.length
  · have hmany : ¬(filesParts workspaceRoot step).length < 2 := by
      rw [hlength]
      unfold maxVerifiableFiles at hfiles
      omega
    rw [if_pos hfiles, if_neg (by omega)]
    exact if_neg hmany
  · have hfew : (filesParts workspaceRoot step).length < 2 := by
      rw [hlength]
      unfold maxVerifiableFiles at hfiles
      omega
    rw [if_neg hfiles]
    by_cases hcommands : 1 < step.commands.length
    · rw [if_pos hcommands, if_neg (by omega)]
      exact if_pos hfew
    · rw [if_neg hcommands, if_pos (by omega)]

variable {β γ : Type} {f : ℕ → β → γ}

theorem mapIdx_chained (f : ℕ → β → Step L) (xs : List β)
    (h : ∀ index x y, (f (index + 1) y).dependsOn = [(f index x).id]) (index : ℕ) (part next : Step L)
    (hpart : (xs.mapIdx f)[index]? = some part) (hnext : (xs.mapIdx f)[index + 1]? = some next) :
    next.dependsOn = [part.id] := by
  rw [List.getElem?_mapIdx] at hpart hnext
  obtain ⟨x, -, rfl⟩ := Option.map_eq_some_iff.mp hpart
  obtain ⟨y, -, rfl⟩ := Option.map_eq_some_iff.mp hnext
  exact h index x y

theorem mem_mapIdx_exists {xs : List β} {z : γ} (h : z ∈ xs.mapIdx f) :
    ∃ index x, xs[index]? = some x ∧ f index x = z := by
  obtain ⟨index, hlt, rfl⟩ := List.mem_mapIdx.mp h
  exact ⟨index, xs[index], List.getElem?_eq_getElem hlt, rfl⟩

theorem flatMap_mapIdx {δ : Type} (f : ℕ → β → γ) (g : γ → List δ) (xs : List β) :
    (xs.mapIdx f).flatMap g = (xs.mapIdx fun index x ↦ g (f index x)).flatten := by
  induction xs generalizing f with
  | nil => rfl
  | cons x xs ih =>
    rw [List.mapIdx_cons, List.mapIdx_cons, List.flatMap_cons, List.flatten_cons, ih]

theorem flatMap_mapIdx_singleton {g : γ → List β} (h : ∀ index x, g (f index x) = [x]) (xs : List β) :
    (xs.mapIdx f).flatMap g = xs := by
  induction xs generalizing f with
  | nil => rfl
  | cons x xs ih =>
    rw [List.mapIdx_cons, List.flatMap_cons, h, ih fun index ↦ h (index + 1)]
    rfl

theorem commands_filesParts : (filesParts workspaceRoot step).flatMap Step.commands =
    (step.commands.take (filesParts workspaceRoot step).length).filter (· ≠ "") := by
  have hlength : (filesParts workspaceRoot step).length = (chunks maxVerifiableFiles step.files).length :=
    List.length_mapIdx
  rw [hlength, ← flatten_mapIdx_getElem?]
  exact flatMap_mapIdx _ _ _

theorem commands_filesParts_iff : (filesParts workspaceRoot step).flatMap Step.commands = step.commands ↔
    step.commands.length ≤ (filesParts workspaceRoot step).length ∧ "" ∉ step.commands := by
  rw [commands_filesParts]
  generalize (filesParts workspaceRoot step).length = count
  constructor
  · intro h
    have hlength : step.commands.length ≤ count := by
      have hle := (List.length_filter_le (· ≠ "") (step.commands.take count)).trans (List.length_take_le count _)
      rwa [h] at hle
    refine ⟨hlength, ?_⟩
    rw [List.take_of_length_le hlength] at h
    intro hmem
    rw [← h] at hmem
    simpa using (List.mem_filter.mp hmem).2
  · rintro ⟨hlength, hempty⟩
    rw [List.take_of_length_le hlength, List.filter_eq_self]
    intro command hcommand
    simpa using fun he : command = "" ↦ hempty (he ▸ hcommand)

theorem commands_commandParts : (commandParts step).flatMap Step.commands = step.commands :=
  flatMap_mapIdx_singleton (fun _ _ ↦ rfl) _

theorem files_filesParts : (filesParts workspaceRoot step).flatMap Step.files = step.files := by
  have hfiles : (filesParts workspaceRoot step).flatMap Step.files =
      ((chunks maxVerifiableFiles step.files).mapIdx fun _ chunk ↦ chunk).flatten := flatMap_mapIdx _ _ _
  have hid : (chunks maxVerifiableFiles step.files).mapIdx (fun _ chunk ↦ chunk) = chunks maxVerifiableFiles step.files := by
    apply List.ext_getElem?
    simp
  rw [hfiles, hid, flatten_chunks (by decide)]

theorem mem_filesParts {part : Step L} (h : part ∈ filesParts workspaceRoot step) :
    ∃ index, ∃ chunk ∈ chunks maxVerifiableFiles step.files, part = filesPart workspaceRoot step index chunk := by
  obtain ⟨index, chunk, hchunk, rfl⟩ := mem_mapIdx_exists h
  exact ⟨index, chunk, List.mem_of_getElem? hchunk, rfl⟩

theorem filesParts_reach : (∃ part ∈ filesParts workspaceRoot step, part.blastRadius.reachesOutsideWorkspace = true) ↔
    ∃ file ∈ step.files, insideWorkspace workspaceRoot file = false := by
  have hpart {part : Step L} (h : part ∈ filesParts workspaceRoot step) :
      part.blastRadius.reachesOutsideWorkspace = true ↔ ∃ file ∈ part.files, insideWorkspace workspaceRoot file = false := by
    obtain ⟨index, chunk, -, rfl⟩ := mem_filesParts h
    simp [filesPart, blastRadius]
  constructor
  · rintro ⟨part, hmem, hreach⟩
    obtain ⟨file, hfile, hout⟩ := (hpart hmem).mp hreach
    refine ⟨file, ?_, hout⟩
    rw [← @files_filesParts L workspaceRoot step, List.mem_flatMap]
    exact ⟨part, hmem, hfile⟩
  · rintro ⟨file, hfile, hout⟩
    rw [← @files_filesParts L workspaceRoot step, List.mem_flatMap] at hfile
    obtain ⟨part, hmem, hfile⟩ := hfile
    exact ⟨part, hmem, (hpart hmem).mpr ⟨file, hfile, hout⟩⟩

theorem filesParts_cons (h : maxVerifiableFiles < step.files.length) : ∃ chunk rest,
    filesParts workspaceRoot step = filesPart workspaceRoot step 0 chunk :: rest := by
  unfold filesParts
  cases hchunks : chunks maxVerifiableFiles step.files with
  | nil =>
    have hflat := flatten_chunks (n := maxVerifiableFiles) (by decide) step.files
    rw [hchunks] at hflat
    rw [← hflat] at h
    exact absurd h (Nat.not_lt_zero _)
  | cons chunk => exact ⟨chunk, _, List.mapIdx_cons⟩

theorem files_lose_nothing_iff (h : maxVerifiableFiles < step.files.length) :
    LosesNothing step (filesParts workspaceRoot step) ↔ step.dependsOn = [] ∧
      step.commands.length ≤ (step.files.length + 2) / 3 ∧ "" ∉ step.commands ∧
      (step.blastRadius.reachesOutsideWorkspace = true → ∃ file ∈ step.files, insideWorkspace workspaceRoot file = false) ∧
      step.blastRadius.limits = none := by
  obtain ⟨chunk, rest, hcons⟩ := @filesParts_cons L workspaceRoot step h
  have hcommands := @commands_filesParts_iff L workspaceRoot step
  rw [length_filesParts] at hcommands
  have hhead : (filesParts workspaceRoot step).head?.map Step.dependsOn = some [] := by
    rw [hcons]
    rfl
  have hmem : filesPart workspaceRoot step 0 chunk ∈ filesParts workspaceRoot step := by
    rw [hcons]
    exact List.mem_cons_self
  constructor
  · intro hloses
    have hfirst := hloses.first
    rw [hhead] at hfirst
    obtain ⟨hlength, hempty⟩ := hcommands.mp hloses.commands
    exact ⟨(Option.some.inj hfirst).symm, hlength, hempty, fun hreach ↦ filesParts_reach.mp (hloses.reaches hreach),
      (hloses.limits _ hmem).symm⟩
  · rintro ⟨hdepends, hlength, hempty, hreach, hlimits⟩
    refine ⟨?_, hcommands.mpr ⟨hlength, hempty⟩, ?_, by rw [hhead, hdepends], ?_, ?_, ?_, ?_⟩
    · intro part hpart
      obtain ⟨index, chunk', hchunk', rfl⟩ := mem_filesParts hpart
      refine ⟨length_le_of_mem_chunks hchunk', ?_⟩
      exact Option.length_toList_le
    · intro file
      rw [← List.mem_flatMap, files_filesParts]
    · exact mapIdx_chained _ _ fun index x y ↦ rfl
    · exact fun hdestructive ↦ ⟨_, hmem, hdestructive⟩
    · exact fun hreaches ↦ filesParts_reach.mpr (hreach hreaches)
    · intro part hpart
      obtain ⟨index, chunk', -, rfl⟩ := mem_filesParts hpart
      exact hlimits.symm

theorem commands_lose_nothing_iff (hfiles : step.files.length ≤ maxVerifiableFiles) (hcommands : 1 < step.commands.length) :
    LosesNothing step (commandParts step) ↔ step.dependsOn = [] := by
  obtain ⟨command, rest, hcons⟩ := List.exists_cons_of_length_pos (Nat.zero_lt_of_lt hcommands)
  have hparts : ∃ tail, commandParts step = commandPart step 0 command :: tail := by
    unfold commandParts
    rw [hcons]
    exact ⟨_, List.mapIdx_cons⟩
  obtain ⟨tail, hparts⟩ := hparts
  have hhead : (commandParts step).head?.map Step.dependsOn = some [] := by
    rw [hparts]
    rfl
  have hmem : commandPart step 0 command ∈ commandParts step := by
    rw [hparts]
    exact List.mem_cons_self
  have hall {part : Step L} (h : part ∈ commandParts step) : part.files = step.files ∧ part.commands.length = 1 ∧
      part.blastRadius = step.blastRadius := by
    obtain ⟨index, command', -, rfl⟩ := mem_mapIdx_exists h
    exact ⟨rfl, rfl, rfl⟩
  constructor
  · intro hloses
    have hfirst := hloses.first
    rw [hhead] at hfirst
    exact (Option.some.inj hfirst).symm
  · intro hdepends
    refine ⟨?_, commands_commandParts, ?_, by rw [hhead, hdepends], ?_, ?_, ?_, ?_⟩
    · intro part hpart
      rw [(hall hpart).1, (hall hpart).2.1]
      exact ⟨hfiles, le_refl 1⟩
    · intro file
      constructor
      · exact fun hfile ↦ ⟨_, hmem, hfile⟩
      · rintro ⟨part, hpart, hfile⟩
        rwa [(hall hpart).1] at hfile
    · exact mapIdx_chained _ _ fun index x y ↦ rfl
    · exact fun hdestructive ↦ ⟨_, hmem, hdestructive⟩
    · exact fun hreaches ↦ ⟨_, hmem, hreaches⟩
    · intro part hpart
      rw [(hall hpart).2.2]

theorem map_mapIdx_congr {δ : Type} {f' : ℕ → β → δ} {g : γ → δ} {xs : List β}
    (h : ∀ index x, g (f index x) = f' index x) : (xs.mapIdx f).map g = xs.mapIdx f' := by
  apply List.ext_getElem?
  intro index
  rw [List.getElem?_map, List.getElem?_mapIdx, List.getElem?_mapIdx, Option.map_map]
  exact congrArg (fun k ↦ Option.map k xs[index]?) (funext (h index))

theorem unlimited_commandParts : (commandParts step).map Step.unlimited =
    step.unlimited.commands.mapIdx (Rust.commandPart step.unlimited) :=
  map_mapIdx_congr fun _ _ ↦ rfl

theorem unlimited_filesParts (hempty : "" ∉ step.commands) : (filesParts workspaceRoot step).map Step.unlimited =
    (chunks maxVerifiableFiles step.unlimited.files).mapIdx (Rust.filesPart workspaceRoot step.unlimited) := by
  refine map_mapIdx_congr fun index chunk ↦ ?_
  have hcommand : step.commands[index]?.filter (· ≠ "") = step.commands[index]? := by
    cases hget : step.commands[index]? with
    | none => rfl
    | some command =>
      have hne : command ≠ "" := fun he ↦ hempty (he ▸ List.mem_of_getElem? hget)
      simp [Option.filter, hne]
  unfold filesPart Step.unlimited Rust.filesPart
  rw [hcommand]
  rfl

theorem rust_decompose_eq (hempty : maxVerifiableFiles < step.files.length → "" ∉ step.commands) :
    Rust.decompose workspaceRoot step.unlimited = .ok (match decompose workspaceRoot step with
      | none => .alreadyVerifiable
      | some parts => .split (parts.map Step.unlimited)) := by
  have hlength := @length_filesParts L workspaceRoot step
  rw [decompose_eq]
  unfold Rust.decompose
  by_cases hfiles : maxVerifiableFiles < step.files.length
  · have hparts := @unlimited_filesParts L workspaceRoot step (hempty hfiles)
    have hmany : ¬((filesParts workspaceRoot step).map Step.unlimited).length < 2 := by
      rw [List.length_map, hlength]
      unfold maxVerifiableFiles at hfiles
      omega
    have hverifiable : ¬(step.unlimited.files.length ≤ maxVerifiableFiles ∧ step.unlimited.commands.length ≤ 1) :=
      fun h ↦ absurd h.1 (not_le_of_gt hfiles)
    rw [if_neg hverifiable, if_pos hfiles, ← hparts]
    dsimp only
    rw [if_neg hmany, Rust.Decomposition.trySplit, if_neg hmany]
  · have hfew : ((chunks maxVerifiableFiles step.unlimited.files).mapIdx
        (Rust.filesPart workspaceRoot step.unlimited)).length < 2 := by
      rw [List.length_mapIdx, length_chunks]
      unfold maxVerifiableFiles at hfiles ⊢
      have hsame : step.unlimited.files.length = step.files.length := rfl
      omega
    rw [if_neg hfiles]
    by_cases hcommands : 1 < step.commands.length
    · have hverifiable : ¬(step.unlimited.files.length ≤ maxVerifiableFiles ∧ step.unlimited.commands.length ≤ 1) :=
        fun h ↦ absurd h.2 (not_le_of_gt hcommands)
      have hmany : ¬((commandParts step).map Step.unlimited).length < 2 := by
        rw [List.length_map, commandParts, List.length_mapIdx]
        omega
      rw [if_neg hverifiable, if_pos hcommands]
      dsimp only
      rw [if_pos hfew, ← unlimited_commandParts, Rust.Decomposition.trySplit, if_neg hmany]
    · have hverifiable : step.unlimited.files.length ≤ maxVerifiableFiles ∧ step.unlimited.commands.length ≤ 1 :=
        ⟨not_lt.mp hfiles, not_lt.mp hcommands⟩
      rw [if_pos hverifiable, if_neg hcommands]

/-- A step decomposes whole just when it is not split, or depends on nothing and, if it is split by its
files, has a part for each command, no empty command, no reach that its files do not show and no limits. -/
theorem decomposes_whole_iff (workspaceRoot : String) (step : Step L) : DecomposesWhole workspaceRoot step ↔
    (step.files.length ≤ maxVerifiableFiles ∧ step.commands.length ≤ 1) ∨ step.dependsOn = [] ∧
      (maxVerifiableFiles < step.files.length →
        step.commands.length ≤ (step.files.length + 2) / 3 ∧ "" ∉ step.commands ∧
        (step.blastRadius.reachesOutsideWorkspace = true →
          ∃ file ∈ step.files, insideWorkspace workspaceRoot file = false) ∧
        step.blastRadius.limits = none) := by
  have heq := @decompose_eq L workspaceRoot step
  by_cases hfiles : maxVerifiableFiles < step.files.length
  · rw [if_pos hfiles] at heq
    have hnot : ¬(step.files.length ≤ maxVerifiableFiles ∧ step.commands.length ≤ 1) :=
      fun h ↦ absurd h.1 (not_le_of_gt hfiles)
    have hiff := @files_lose_nothing_iff L workspaceRoot step hfiles
    rw [or_iff_right hnot]
    constructor
    · intro h
      obtain ⟨hdepends, hrest⟩ := hiff.mp (h.loses _ heq)
      exact ⟨hdepends, fun _ ↦ hrest⟩
    · rintro ⟨hdepends, hrest⟩
      refine ⟨?_, rust_decompose_eq fun _ ↦ (hrest hfiles).2.1⟩
      intro parts hparts
      cases heq.symm.trans hparts
      exact hiff.mpr ⟨hdepends, hrest hfiles⟩
  · rw [if_neg hfiles] at heq
    have hagree := @rust_decompose_eq L workspaceRoot step fun h ↦ absurd h hfiles
    by_cases hcommands : 1 < step.commands.length
    · rw [if_pos hcommands] at heq
      have hnot : ¬(step.files.length ≤ maxVerifiableFiles ∧ step.commands.length ≤ 1) :=
        fun h ↦ absurd h.2 (not_le_of_gt hcommands)
      have hiff := commands_lose_nothing_iff (not_lt.mp hfiles) hcommands
      rw [or_iff_right hnot, and_iff_left fun h ↦ absurd h hfiles]
      constructor
      · exact fun h ↦ hiff.mp (h.loses _ heq)
      · intro hdepends
        refine ⟨?_, hagree⟩
        intro parts hparts
        cases heq.symm.trans hparts
        exact hiff.mpr hdepends
    · rw [if_neg hcommands] at heq
      constructor
      · exact fun _ ↦ .inl ⟨not_lt.mp hfiles, not_lt.mp hcommands⟩
      · refine fun _ ↦ ⟨?_, hagree⟩
        intro parts hparts
        cases heq.symm.trans hparts

/-- Four files and three commands: the third command is in no part. -/
theorem command_dropped : ¬∀ workspaceRoot (step : Step Empty), DecomposesWhole workspaceRoot step := by
  intro h
  let step : Step Empty := ⟨"a", "", ["1", "2", "3", "4"], ["x", "y", "z"], [], ⟨⟨false, false, none⟩, []⟩⟩
  have hparts : decompose "/workspace" step = some (filesParts "/workspace" step) := by
    rw [decompose_eq]
    rfl
  have hcommands := commands_filesParts_iff.mp ((h "/workspace" step).loses _ hparts).commands
  rw [length_filesParts] at hcommands
  exact absurd hcommands.1 (by decide)

end Noesar.Reasoning
