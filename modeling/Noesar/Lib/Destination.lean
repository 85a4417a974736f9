import Noesar.Lib.Disk

namespace Noesar.Lib.Disk

open PosixPath

def append (cur rest : List String) : List String := (rest.foldl (push false) cur.reverse).reverse

/-- Reads the names of a path from a directory on. What is not there, and what is below a file, is appended. -/
def destinationFrom (disk : Disk) (follow : List String → List String → List String) : List String → List String → List String
  | cur, [] => cur
  | cur, name :: rest =>
    if name = ".." then destinationFrom disk follow cur.dropLast rest
    else match disk.get (cur ++ [name]) with
      | some .directory => destinationFrom disk follow (cur ++ [name]) rest
      | some (.link target) => follow (if isAbsolute target then [] else cur) (parts target ++ rest)
      | _ => append (cur ++ [name]) rest

def destinationWithin (disk : Disk) : ℕ → List String → List String → List String
  | 0 => append
  | hops + 1 => destinationFrom disk (destinationWithin disk hops)

def destination (disk : Disk) (path : List String) : List String :=
  disk.destinationWithin (maxLinks + 1) [] (path.filter fun name ↦ name ≠ "" && name ≠ ".")

section

variable {disk : Disk} {follow : List String → List String → List String} {cur todo p rest start : List String}

theorem append_nil (cur : List String) : append cur [] = cur := List.reverse_reverse cur

theorem destinationFrom_here (h : disk.stride true cur todo = .here p) :
    disk.destinationFrom follow cur todo = p := by
  induction todo generalizing cur with
  | nil =>
    cases h
    rfl
  | cons name todo ih =>
    rw [stride] at h
    rw [destinationFrom]
    split at h
    next hdots => rw [if_pos hdots, ih h]
    next hdots =>
      rw [if_neg hdots]
      split at h
      · cases h
      next hget =>
        rw [hget]
        exact ih h
      next bytes hget =>
        split at h
        next hlast =>
          cases h
          rw [hget, hlast]
          exact append_nil _
        · cases h
      next target hget =>
        split at h
        next hlast => cases hlast.2
        · cases h

theorem destinationFrom_follow (h : disk.stride true cur todo = .follow start rest) :
    disk.destinationFrom follow cur todo = follow start rest := by
  induction todo generalizing cur with
  | nil => cases h
  | cons name todo ih =>
    rw [stride] at h
    rw [destinationFrom]
    split at h
    next hdots => rw [if_pos hdots, ih h]
    next hdots =>
      rw [if_neg hdots]
      split at h
      · cases h
      next hget =>
        rw [hget]
        exact ih h
      next bytes hget =>
        split at h
        · cases h
        · cases h
      next target hget =>
        split at h
        next hlast => cases hlast.2
        next =>
          cases h
          rw [hget]

theorem destinationWithin_here {hops : ℕ} (h : disk.walk true hops cur todo = .here p) :
    disk.destinationWithin hops cur todo = p := by
  induction hops generalizing cur todo with
  | zero => cases h
  | succ hops ih =>
    rw [walk] at h
    rw [destinationWithin]
    split at h
    next start rest hfollow => rw [destinationFrom_follow hfollow, ih h]
    next => exact destinationFrom_here h

theorem destinationFrom_prefix (hp : ∀ target, disk.get (cur ++ p) ≠ some (.link target)) (hsome : (disk.get (cur ++ p)).isSome)
    (hnames : ∀ name ∈ p, name ≠ "..") : disk.destinationFrom follow cur p = cur ++ p := by
  induction p generalizing cur with
  | nil => rw [List.append_nil, destinationFrom]
  | cons name p ih =>
    obtain ⟨hname, hnames⟩ := List.forall_mem_cons.mp hnames
    have hwhole : cur ++ name :: p = (cur ++ [name]) ++ p := List.append_cons cur name p
    rw [hwhole] at hp hsome ⊢
    rw [destinationFrom, if_neg hname, ← ih hp hsome hnames]
    by_cases hnil : p = []
    · subst hnil
      rw [List.append_nil] at hp hsome
      split
      next => rfl
      next target hlink => exact absurd hlink (hp target)
      next => exact append_nil _
    · rw [get_above hnil hsome]

theorem filter_plain (h : ∀ name ∈ p, Plain name) : (p.filter fun name ↦ name ≠ "" && name ≠ ".") = p := by
  rw [List.filter_eq_self]
  intro name hname
  obtain ⟨hempty, hdot, -⟩ := h name hname
  simp [hempty, hdot]

theorem destination_here (h : disk.resolve todo = .here p) (hplain : ∀ name ∈ todo, Plain name) :
    disk.destination todo = p := by
  rw [destination, filter_plain hplain]
  exact destinationWithin_here h

theorem destination_prefix (h : disk.resolve todo = .here p) (hstart : start <+: p) (hplain : ∀ name ∈ start, Plain name) :
    disk.destination start = start := by
  obtain ⟨node, hnode, hlink⟩ := resolve_here h
  obtain ⟨rest, rfl⟩ := hstart
  have hnames : ∀ name ∈ start, name ≠ ".." := fun name hname ↦ (hplain name hname).2.2
  have hthere : (disk.get start).isSome ∧ ∀ target, disk.get start ≠ some (.link target) := by
    by_cases hrest : rest = []
    · rw [hrest, List.append_nil] at hnode
      rw [hnode]
      exact ⟨rfl, fun target htarget ↦ hlink target (Option.some.inj htarget)⟩
    · rw [get_above hrest (by rw [hnode]; rfl)]
      exact ⟨rfl, nofun⟩
  rw [destination, filter_plain hplain]
  have hstays : disk.destinationFrom (disk.destinationWithin maxLinks) [] start = [] ++ start :=
    destinationFrom_prefix hthere.2 hthere.1 hnames
  exact hstays

end

end Noesar.Lib.Disk
