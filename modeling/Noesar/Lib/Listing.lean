import Mathlib

namespace Noesar.Lib

/-- What a directory holds, in the order in which it is listed. -/
inductive Listing (α : Type)
  | nil
  | leaf (name : String) (value : α) (rest : Listing α)
  | directory (name : String) (inside rest : Listing α)
  deriving DecidableEq, Repr

namespace Listing

variable {α β : Type}

inductive Entry (α : Type)
  | leaf (value : α)
  | directory (inside : Listing α)
  deriving DecidableEq, Repr

def names : Listing α → List String
  | nil => []
  | leaf name _ rest => name :: rest.names
  | directory name _ rest => name :: rest.names

/-- The walk over a tree: everything that is not a directory, with the names leading to it. -/
def leaves : Listing α → List (List String × α)
  | nil => []
  | leaf name value rest => ([name], value) :: rest.leaves
  | directory name inside rest => (inside.leaves.map fun e ↦ (name :: e.1, e.2)) ++ rest.leaves

def lookup (sought : String) : Listing α → Option (Entry α)
  | nil => none
  | leaf name value rest => if name = sought then some (.leaf value) else rest.lookup sought
  | directory name inside rest => if name = sought then some (.directory inside) else rest.lookup sought

def entryAt : Listing α → List String → Option (Entry α)
  | listing, [] => some (.directory listing)
  | listing, name :: more =>
    match listing.lookup name with
    | none => none
    | some (.directory inside) => inside.entryAt more
    | some (.leaf value) => if more = [] then some (.leaf value) else none

def Proper (name : String) : Prop := name ≠ "" ∧ name ≠ "." ∧ name ≠ ".." ∧ '/' ∉ name.toList

instance (name : String) : Decidable (Proper name) := inferInstanceAs (Decidable (_ ∧ _))

def Formed : Listing α → Prop
  | nil => True
  | leaf name _ rest => Proper name ∧ name ∉ rest.names ∧ rest.Formed
  | directory name inside rest => Proper name ∧ name ∉ rest.names ∧ inside.Formed ∧ rest.Formed

def decideFormed : (listing : Listing α) → Decidable listing.Formed
  | nil => .isTrue trivial
  | leaf name _ rest =>
    have := rest.decideFormed
    inferInstanceAs (Decidable (Proper name ∧ name ∉ rest.names ∧ rest.Formed))
  | directory name inside rest =>
    have := rest.decideFormed
    have := inside.decideFormed
    inferInstanceAs (Decidable (Proper name ∧ name ∉ rest.names ∧ inside.Formed ∧ rest.Formed))

instance (listing : Listing α) : Decidable listing.Formed := listing.decideFormed

variable {listing : Listing α} {name : String} {p : List String} {value : α}

theorem Formed.lookup (h : listing.Formed) {inside : Listing α} (hl : listing.lookup name = some (.directory inside)) :
    inside.Formed := by
  induction listing with
  | nil => cases hl
  | leaf _ _ rest ih =>
    simp only [Listing.lookup] at hl
    split at hl
    · cases hl
    · exact ih h.2.2 hl
  | directory _ inside' rest _ ih =>
    simp only [Listing.lookup] at hl
    split at hl
    · cases hl
      exact h.2.2.1
    · exact ih h.2.2.2 hl

theorem leaves_ne_nil (listing : Listing α) (h : (p, value) ∈ listing.leaves) : p ≠ [] := by
  induction listing generalizing p with
  | nil => cases h
  | leaf name v rest ih =>
    rcases List.mem_cons.mp h with he | h
    · simp_all
    · exact ih h
  | directory name inside rest _ ih =>
    rcases List.mem_append.mp h with h | h
    · obtain ⟨e, _, he⟩ := List.mem_map.mp h
      simp only [Prod.mk.injEq] at he
      simp [← he.1]
    · exact ih h

theorem names_of_mem_leaves {more : List String} (h : (name :: more, value) ∈ listing.leaves) :
    name ∈ listing.names := by
  induction listing with
  | nil => cases h
  | leaf n v rest ih =>
    rcases List.mem_cons.mp h with he | h
    · simp_all [names]
    · exact List.mem_cons_of_mem n (ih h)
  | directory n inside rest _ ih =>
    rcases List.mem_append.mp h with h | h
    · obtain ⟨e, _, he⟩ := List.mem_map.mp h
      simp_all [names]
    · exact List.mem_cons_of_mem n (ih h)

theorem mem_leaves_cons (h : listing.Formed) {more : List String} :
    (name :: more, value) ∈ listing.leaves ↔
      (more = [] ∧ listing.lookup name = some (.leaf value)) ∨
        ∃ inside, listing.lookup name = some (.directory inside) ∧ (more, value) ∈ inside.leaves := by
  induction listing with
  | nil => simp [leaves, Listing.lookup]
  | leaf n v rest ih =>
    obtain ⟨_, hn, hrest⟩ := h
    by_cases he : n = name
    · subst he
      have hout : (n :: more, value) ∉ rest.leaves := fun hm ↦ hn (names_of_mem_leaves hm)
      simp only [leaves, List.mem_cons, hout, or_false, Listing.lookup, if_true, Prod.mk.injEq, List.cons.injEq,
        true_and, Option.some.injEq, Entry.leaf.injEq, reduceCtorEq, false_and, exists_false]
      exact and_congr_right fun _ ↦ eq_comm
    · have hne : ¬ name = n := fun h ↦ he h.symm
      simp only [leaves, List.mem_cons, Prod.mk.injEq, List.cons.injEq, hne, false_and, false_or, Listing.lookup, he,
        if_false]
      exact ih hrest
  | directory n inside rest _ ih =>
    obtain ⟨_, hn, _, hrest⟩ := h
    by_cases he : n = name
    · subst he
      have hout : (n :: more, value) ∉ rest.leaves := fun hm ↦ hn (names_of_mem_leaves hm)
      simp [leaves, hout, Listing.lookup]
    · have hne : (name :: more, value) ∉ inside.leaves.map fun e ↦ (n :: e.1, e.2) := by
        intro hm
        obtain ⟨e, _, hp⟩ := List.mem_map.mp hm
        simp_all
      simp only [leaves, List.mem_append, hne, false_or, Listing.lookup, he, if_false]
      exact ih hrest

theorem mem_leaves_iff (h : listing.Formed) :
    (p, value) ∈ listing.leaves ↔ listing.entryAt p = some (.leaf value) := by
  induction p generalizing listing with
  | nil => exact ⟨fun hm ↦ absurd rfl (leaves_ne_nil listing hm), fun he ↦ by simp [entryAt] at he⟩
  | cons name more ih =>
    rw [mem_leaves_cons h]
    cases hl : listing.lookup name with
    | none => simp [entryAt, hl]
    | some entry =>
      cases entry with
      | leaf => by_cases hm : more = [] <;> simp [entryAt, hl, hm]
      | directory => simp [entryAt, hl, ih (h.lookup hl)]

theorem proper_of_mem_leaves (h : listing.Formed) (hm : (p, value) ∈ listing.leaves) : ∀ name ∈ p, Proper name := by
  induction listing generalizing p with
  | nil => cases hm
  | leaf n v rest ih =>
    rcases List.mem_cons.mp hm with he | hm
    · simp only [Prod.mk.injEq] at he
      intro name hname
      rw [he.1, List.mem_singleton] at hname
      exact hname ▸ h.1
    · exact ih h.2.2 hm
  | directory n inside rest ihi ih =>
    rcases List.mem_append.mp hm with hm | hm
    · obtain ⟨⟨q, w⟩, he, hp⟩ := List.mem_map.mp hm
      simp only [Prod.mk.injEq] at hp
      obtain ⟨rfl, rfl⟩ := hp
      intro name hname
      rcases List.mem_cons.mp hname with rfl | hname
      · exact h.1
      · exact ihi h.2.2.1 he name hname
    · exact ih h.2.2.2 hm

section Copy

variable (take : α → Option (Option β))

/-- A recursive copy. Of each leaf `take` says what is made of it: the copy stops there
(`none`), passes it over (`some none`), or puts a leaf of its own in its place. -/
def copy : Listing α → Option (Listing β)
  | nil => some nil
  | leaf name value rest =>
    match take value with
    | none => none
    | some none => rest.copy
    | some (some made) => rest.copy.map (leaf name made)
  | directory name inside rest =>
    match inside.copy with
    | none => none
    | some inside' => rest.copy.map (directory name inside')

variable {take}

theorem copy_names {listing : Listing α} {landed : Listing β} (h : listing.copy take = some landed) :
    landed.names ⊆ listing.names := by
  induction listing generalizing landed with
  | nil =>
    cases h
    simp [names]
  | leaf name value rest ih =>
    simp only [copy] at h
    split at h
    · cases h
    · exact List.Subset.trans (ih h) (List.subset_cons_self name _)
    · obtain ⟨rest', hr, rfl⟩ := Option.map_eq_some_iff.mp h
      exact List.cons_subset_cons name (ih hr)
  | directory name inside rest _ ih =>
    simp only [copy] at h
    split at h
    · cases h
    · obtain ⟨rest', hr, rfl⟩ := Option.map_eq_some_iff.mp h
      exact List.cons_subset_cons name (ih hr)

theorem Formed.copy {listing : Listing α} (hf : listing.Formed) {landed : Listing β}
    (h : listing.copy take = some landed) : landed.Formed := by
  induction listing generalizing landed with
  | nil =>
    cases h
    trivial
  | leaf name value rest ih =>
    simp only [Listing.copy] at h
    split at h
    · cases h
    · exact ih hf.2.2 h
    · obtain ⟨rest', hr, rfl⟩ := Option.map_eq_some_iff.mp h
      exact ⟨hf.1, fun hm ↦ hf.2.1 (copy_names hr hm), ih hf.2.2 hr⟩
  | directory name inside rest ihi ih =>
    simp only [Listing.copy] at h
    split at h
    · cases h
    · next inside' hi =>
      obtain ⟨rest', hr, rfl⟩ := Option.map_eq_some_iff.mp h
      exact ⟨hf.1, fun hm ↦ hf.2.1 (copy_names hr hm), ihi hf.2.2.1 hi, ih hf.2.2.2 hr⟩

end Copy

end Listing

end Noesar.Lib
