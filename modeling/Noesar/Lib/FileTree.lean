import Mathlib

namespace Noesar.Lib

inductive FileTree.Node (β : Type)
  | file (bytes : β)
  | directory

abbrev FileTree (β : Type) := List String → Option (FileTree.Node β)

namespace FileTree

variable {β : Type} {t t' : FileTree β}

def put (t : FileTree β) (p : List String) (node : Node β) : FileTree β := fun q ↦ if q = p then some node else t q

def bytesAt (t : FileTree β) (p : List String) : Option β :=
  match t p with
  | some (.file bytes) => some bytes
  | _ => none

def makeDirsFrom (t : FileTree β) (base : List String) : List String → Option (FileTree β)
  | [] => some t
  | name :: rest => match t (base ++ [name]) with
    | some (.file _) => none
    | some .directory => makeDirsFrom t (base ++ [name]) rest
    | none => makeDirsFrom (put t (base ++ [name]) .directory) (base ++ [name]) rest

def makeDirs (t : FileTree β) (p : List String) : Option (FileTree β) := makeDirsFrom t [] p

def writeFile (t : FileTree β) (p : List String) (bytes : β) : Option (FileTree β) :=
  (makeDirs t p.dropLast).bind fun t ↦ match t p with
    | some .directory => none
    | _ => some (put t p (.file bytes))

structure Entry (β : Type) where
  place : List String
  content : Option β

def add (t : FileTree β) (entry : Entry β) : Option (FileTree β) :=
  match entry.content with
  | some bytes => writeFile t entry.place bytes
  | none => makeDirs t entry.place

def addAll (t : FileTree β) (entries : List (Entry β)) : Option (FileTree β) := entries.foldlM add t

def lastWritten (entries : List (Entry β)) (p : List String) : Option β :=
  entries.reverse.findSome? fun entry ↦ if entry.place = p then entry.content else none

def Rooted (t : FileTree β) (root : List String) : Prop := ∀ p, p <+: root → t p = some .directory

section Directories

variable {path : List String}

theorem makeDirsFrom_at {base : List String} (h : makeDirsFrom t base path = some t') (q : List String) :
    t' q = t q ∨ t q = none ∧ t' q = some .directory ∧ ∃ r, r <+: path ∧ q = base ++ r := by
  induction path generalizing t base with
  | nil =>
    cases h
    exact .inl rfl
  | cons name rest ih =>
    have hbelow {r : List String} (hr : r <+: rest) : name :: r <+: name :: rest := List.cons_prefix_cons.mpr ⟨rfl, hr⟩
    rw [makeDirsFrom] at h
    split at h
    · cases h
    · rcases ih h with hsame | ⟨hnone, hdirectory, r, hr, rfl⟩
      · exact .inl hsame
      · exact .inr ⟨hnone, hdirectory, name :: r, hbelow hr, by simp⟩
    next hmissing =>
      rcases ih h with hsame | ⟨hnone, hdirectory, r, hr, rfl⟩
      · by_cases hq : q = base ++ [name]
        · refine .inr ⟨hq ▸ hmissing, ?_, [name], hbelow List.nil_prefix, hq⟩
          rw [hsame, put, if_pos hq]
        · rw [put, if_neg hq] at hsame
          exact .inl hsame
      · refine .inr ⟨?_, hdirectory, name :: r, hbelow hr, by simp⟩
        rw [put] at hnone
        split at hnone
        · cases hnone
        · exact hnone

theorem makeDirs_bytesAt (h : makeDirs t path = some t') (q : List String) :
    bytesAt t' q = bytesAt t q := by
  rcases makeDirsFrom_at h q with hsame | ⟨hnone, hdirectory, -⟩
  · rw [bytesAt, bytesAt, hsame]
  · rw [bytesAt, bytesAt, hnone, hdirectory]

theorem makeDirs_directory (h : makeDirs t path = some t') {q : List String} (hq : t q = some .directory) :
    t' q = some .directory := by
  rcases makeDirsFrom_at h q with hsame | ⟨-, hdirectory, -⟩
  · rw [hsame, hq]
  · exact hdirectory

theorem makeDirsFrom_made {base : List String} (h : makeDirsFrom t base path = some t')
    (hbase : t base = some .directory) : t' (base ++ path) = some .directory := by
  induction path generalizing t base with
  | nil =>
    cases h
    rwa [List.append_nil]
  | cons name rest ih =>
    rw [makeDirsFrom] at h
    rw [List.append_cons]
    split at h
    · cases h
    next hthere => exact ih h hthere
    · exact ih h (if_pos rfl)

theorem makeDirs_frame {root : List String} (hroot : Rooted t root) (hpath : root <+: path ∨ path <+: root)
    (h : makeDirs t path = some t') {q : List String} (hq : ¬root <+: q) : t' q = t q := by
  rcases makeDirsFrom_at h q with hsame | ⟨hnone, -, r, hr, rfl⟩
  · exact hsame
  · have habove : q <+: root := by
      rcases hpath with hpath | hpath
      · rcases List.prefix_or_prefix_of_prefix hr hpath with habove | hbelow
        · exact habove
        · exact absurd hbelow hq
      · exact hr.trans hpath
    rw [hroot q habove] at hnone
    cases hnone

end Directories

section Writing

theorem writeFile_eq {p : List String} {bytes : β} (h : writeFile t p bytes = some t') :
    ∃ t₁, makeDirs t p.dropLast = some t₁ ∧ t₁ p ≠ some .directory ∧ t' = put t₁ p (.file bytes) := by
  obtain ⟨t₁, hdirs, h⟩ := Option.bind_eq_some_iff.mp h
  split at h
  · cases h
  next hno =>
    cases h
    exact ⟨t₁, hdirs, hno, rfl⟩

theorem writeFile_bytesAt {p : List String} {bytes : β} (h : writeFile t p bytes = some t') (q : List String) :
    bytesAt t' q = if q = p then some bytes else bytesAt t q := by
  obtain ⟨t₁, hdirs, -, rfl⟩ := writeFile_eq h
  rw [← makeDirs_bytesAt hdirs, bytesAt, put]
  split_ifs with hq
  · rfl
  · rfl

variable {entry : Entry β}

theorem add_bytesAt (h : add t entry = some t') (q : List String) :
    bytesAt t' q = ((if entry.place = q then entry.content else none).or (bytesAt t q)) := by
  unfold add at h
  cases hcontent : entry.content with
  | none =>
    rw [hcontent] at h
    rw [makeDirs_bytesAt h, ite_self, Option.none_or]
  | some =>
    rw [hcontent] at h
    rw [writeFile_bytesAt h]
    by_cases hq : entry.place = q
    · rw [if_pos hq, if_pos hq.symm, Option.some_or]
    · rw [if_neg hq, if_neg fun hq' ↦ hq hq'.symm, Option.none_or]

theorem add_directory (h : add t entry = some t') {q : List String} (hq : t q = some .directory) :
    t' q = some .directory := by
  unfold add at h
  split at h
  · obtain ⟨t₁, hdirs, hno, rfl⟩ := writeFile_eq h
    have hkept := makeDirs_directory hdirs hq
    rw [put, if_neg]
    · exact hkept
    · rintro rfl
      exact hno hkept
  · exact makeDirs_directory h hq

theorem add_frame {root : List String} (hroot : Rooted t root) (hentry : root <+: entry.place)
    (h : add t entry = some t') {q : List String} (hq : ¬root <+: q) : t' q = t q := by
  unfold add at h
  split at h
  · obtain ⟨t₁, hdirs, -, rfl⟩ := writeFile_eq h
    have habove : root <+: entry.place.dropLast ∨ entry.place.dropLast <+: root :=
      List.prefix_or_prefix_of_prefix hentry (List.dropLast_prefix _)
    rw [put, if_neg, makeDirs_frame hroot habove hdirs hq]
    rintro rfl
    exact hq hentry
  · exact makeDirs_frame hroot (.inl hentry) h hq

theorem Rooted.add {root : List String} (hroot : Rooted t root) (h : add t entry = some t') :
    Rooted t' root := fun p hp ↦ add_directory h (hroot p hp)

end Writing

section Runs

variable {entries : List (Entry β)}

theorem addAll_cons {entry : Entry β} (h : addAll t (entry :: entries) = some t') :
    ∃ t₁, add t entry = some t₁ ∧ addAll t₁ entries = some t' := Option.bind_eq_some_iff.mp h

theorem lastWritten_cons (entry : Entry β) (entries : List (Entry β)) (p : List String) :
    lastWritten (entry :: entries) p =
      (lastWritten entries p).or (if entry.place = p then entry.content else none) := by
  rw [lastWritten, List.reverse_cons, List.findSome?_append, List.findSome?_singleton]
  rfl

theorem addAll_bytesAt (h : addAll t entries = some t') (q : List String) :
    bytesAt t' q = (lastWritten entries q).or (bytesAt t q) := by
  induction entries generalizing t with
  | nil =>
    cases h
    rfl
  | cons entry entries ih =>
    obtain ⟨t₁, hfirst, hrest⟩ := addAll_cons h
    rw [ih hrest, add_bytesAt hfirst, lastWritten_cons, Option.or_assoc]

theorem addAll_directory (h : addAll t entries = some t') {q : List String} (hq : t q = some .directory) :
    t' q = some .directory := by
  induction entries generalizing t with
  | nil =>
    cases h
    exact hq
  | cons entry entries ih =>
    obtain ⟨t₁, hfirst, hrest⟩ := addAll_cons h
    exact ih hrest (add_directory hfirst hq)

theorem addAll_made (h : addAll t entries = some t') (hroot : t [] = some .directory) {entry : Entry β}
    (hentry : entry ∈ entries) (hcontent : entry.content = none) :
    t' entry.place = some .directory := by
  induction entries generalizing t with
  | nil => cases hentry
  | cons first entries ih =>
    obtain ⟨t₁, hfirst, hrest⟩ := addAll_cons h
    rcases List.mem_cons.mp hentry with rfl | hentry
    · have hdirs : makeDirs t entry.place = some t₁ := by
        rw [add, hcontent] at hfirst
        exact hfirst
      exact addAll_directory hrest (makeDirsFrom_made hdirs hroot)
    · exact ih hrest (add_directory hfirst hroot) hentry

theorem addAll_frame {root : List String} (h : addAll t entries = some t') (hroot : Rooted t root)
    (hentries : ∀ entry ∈ entries, root <+: entry.place) {q : List String} (hq : ¬root <+: q) : t' q = t q := by
  induction entries generalizing t with
  | nil =>
    cases h
    rfl
  | cons entry entries ih =>
    obtain ⟨t₁, hfirst, hrest⟩ := addAll_cons h
    rw [List.forall_mem_cons] at hentries
    rw [ih hrest (hroot.add hfirst) hentries.2, add_frame hroot hentries.1 hfirst hq]

end Runs

end FileTree

end Noesar.Lib
