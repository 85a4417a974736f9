import Noesar.Lib.InsertionMap
import Noesar.Lib.PosixPath

namespace Noesar.Lib

open PosixPath

inductive Node
  | file (bytes : List UInt8)
  | directory
  | link (target : String)
  deriving DecidableEq

/-- A tree of files, directories and symbolic links, each at its physical path, the list
of the names below the root directory. The root itself has no entry. -/
structure Disk where
  nodes : InsertionMap (List String) Node
  tree : ∀ dir name node, nodes.get (dir ++ [name]) = some node → dir = [] ∨ nodes.get dir = some .directory

namespace Disk

def empty : Disk := ⟨.empty, fun _ _ _ h ↦ (by cases h)⟩

def get (disk : Disk) (p : List String) : Option Node := if p = [] then some .directory else disk.nodes.get p

theorem get_nil (disk : Disk) : disk.get [] = some .directory := rfl

theorem get_of_ne {disk : Disk} {p : List String} (h : p ≠ []) : disk.get p = disk.nodes.get p := if_neg h

theorem get_parent {disk : Disk} {dir : List String} {name : String} {node : Node}
    (h : disk.get (dir ++ [name]) = some node) : disk.get dir = some .directory := by
  rw [get_of_ne (by simp)] at h
  rcases disk.tree dir name node h with rfl | hdir
  · rfl
  · by_cases hnil : dir = []
    · rw [hnil, get_nil]
    · rw [get_of_ne hnil, hdir]

theorem get_above {disk : Disk} {p rest : List String} (hrest : rest ≠ [])
    (h : (disk.get (p ++ rest)).isSome) : disk.get p = some .directory := by
  induction rest using List.reverseRecOn with
  | nil => exact absurd rfl hrest
  | append_singleton rest name ih =>
    obtain ⟨node, hnode⟩ := Option.isSome_iff_exists.mp h
    rw [← List.append_assoc] at hnode
    have hparent := get_parent hnode
    by_cases hr : rest = []
    · rwa [hr, List.append_nil] at hparent
    · exact ih hr (by rw [hparent]; rfl)

/-- Something is put where there is a directory to hold it, and never in the place of a
directory unless it is one. -/
def put (disk : Disk) (p : List String) (node : Node) (hparent : disk.get p.dropLast = some .directory)
    (hleaf : node = .directory ∨ disk.get p ≠ some .directory) : Disk where
  nodes := disk.nodes.set p node
  tree := by
    intro dir name n hn
    rw [InsertionMap.get_set] at hn ⊢
    have hdir : dir = [] ∨ disk.nodes.get dir = some .directory := by
      split at hn
      next hp =>
        rw [hp, List.dropLast_concat] at hparent
        by_cases hnil : dir = []
        · exact .inl hnil
        · exact .inr (by rwa [get_of_ne hnil] at hparent)
      next => exact disk.tree dir name n hn
    by_cases hnil : dir = []
    · exact .inl hnil
    · refine .inr ?_
      have hget := hdir.resolve_left hnil
      split
      next hp =>
        subst hp
        rw [get_of_ne hnil] at hleaf
        rw [hleaf.resolve_right fun h ↦ h hget]
      next => exact hget

theorem get_put {disk : Disk} {p : List String} {node : Node} {hparent : disk.get p.dropLast = some .directory}
    {hleaf : node = .directory ∨ disk.get p ≠ some .directory} (hp : p ≠ []) (q : List String) :
    (disk.put p node hparent hleaf).get q = if p = q then some node else disk.get q := by
  unfold get
  by_cases hq : q = []
  · rw [if_pos hq, if_pos hq, if_neg fun h ↦ hp (h.trans hq)]
  · rw [if_neg hq, if_neg hq]
    exact InsertionMap.get_set _ _ _ _

def mkdir (disk : Disk) (p : List String) : Disk :=
  if h : disk.get p.dropLast = some .directory then disk.put p .directory h (.inl rfl) else disk

def write (disk : Disk) (p : List String) (bytes : List UInt8) : Disk :=
  if h : disk.get p.dropLast = some .directory ∧ disk.get p ≠ some .directory then
    disk.put p (.file bytes) h.1 (.inr h.2)
  else disk

def symlink (disk : Disk) (p : List String) (target : String) : Disk :=
  if h : disk.get p.dropLast = some .directory ∧ disk.get p = none then
    disk.put p (.link target) h.1 (.inr (by rw [h.2]; simp))
  else disk

def unlink (disk : Disk) (p : List String) : Disk :=
  if h : disk.get p = some .directory then disk
  else
    { nodes := disk.nodes.delete p
      tree := by
        intro dir name node hn
        rw [InsertionMap.get_delete] at hn ⊢
        split at hn
        · cases hn
        · rcases disk.tree dir name node hn with hdir | hdir
          · exact .inl hdir
          · by_cases hnil : dir = []
            · exact .inl hnil
            · refine .inr ?_
              rw [if_neg]
              · exact hdir
              · rintro rfl
                exact h (by rwa [get_of_ne hnil]) }

theorem get_mkdir {disk : Disk} {p : List String} (hp : p ≠ []) (h : disk.get p.dropLast = some .directory)
    (q : List String) : (disk.mkdir p).get q = if p = q then some .directory else disk.get q := by
  rw [mkdir, dif_pos h]
  exact get_put hp q

theorem get_write {disk : Disk} {p : List String} {bytes : List UInt8} (h : disk.get p.dropLast = some .directory)
    (hleaf : disk.get p ≠ some .directory) (q : List String) :
    (disk.write p bytes).get q = if p = q then some (.file bytes) else disk.get q := by
  rw [write, dif_pos ⟨h, hleaf⟩]
  refine get_put ?_ q
  rintro rfl
  exact hleaf rfl

theorem get_unlink {disk : Disk} {p : List String} (h : disk.get p ≠ some .directory) (q : List String) :
    (disk.unlink p).get q = if p = q then none else disk.get q := by
  have hp : p ≠ [] := by
    rintro rfl
    exact h rfl
  rw [unlink, dif_neg h]
  unfold get
  by_cases hq : q = []
  · rw [if_pos hq, if_pos hq, if_neg fun h ↦ hp (h.trans hq)]
  · rw [if_neg hq, if_neg hq]
    exact InsertionMap.get_delete _ _ _

/-- Where reading a path has come to: to something that is there, to a name that is not
there with names left to read, to an end it cannot go past, or to a link. -/
inductive Stride
  | here (p : List String)
  | missing (p rest : List String)
  | blocked
  | follow (start todo : List String)
  deriving DecidableEq

def parts (target : String) : List String := (segments target).filter fun seg ↦ seg ≠ "" && seg ≠ "."

/-- Reads the names of a path from a directory on, up to the first link that is followed. -/
def stride (disk : Disk) (followLast : Bool) : List String → List String → Stride
  | cur, [] => .here cur
  | cur, name :: rest =>
    if name = ".." then stride disk followLast cur.dropLast rest
    else match disk.get (cur ++ [name]) with
      | none => .missing (cur ++ [name]) rest
      | some .directory => stride disk followLast (cur ++ [name]) rest
      | some (.file _) => if rest = [] then .here (cur ++ [name]) else .blocked
      | some (.link target) =>
        if rest = [] ∧ followLast = false then .here (cur ++ [name])
        else .follow (if isAbsolute target then [] else cur) (parts target ++ rest)

example {disk : Disk} {cur rest : List String} {name : String} (hname : name ≠ "..")
    (h : disk.get (cur ++ [name]) = none) : disk.stride true cur (name :: rest) = .missing (cur ++ [name]) rest := by
  rw [stride, if_neg hname]
  split <;> simp_all

def walk (disk : Disk) (followLast : Bool) : ℕ → List String → List String → Stride
  | 0, _, _ => .blocked
  | hops + 1, cur, todo =>
    match stride disk followLast cur todo with
    | .follow start todo => walk disk followLast hops start todo
    | s => s

def maxLinks : ℕ := 40

def resolve (disk : Disk) (path : List String) : Stride := disk.walk true (maxLinks + 1) [] path

/-- `mkdir` of one directory whose parents are there, for `mkdir -p`. -/
def makeOne (disk : Disk) (up : List String) (name : String) : Option Disk :=
  match disk.resolve up with
  | .here dir =>
    if disk.get dir ≠ some .directory then none
    else match disk.get (dir ++ [name]) with
      | none => some (disk.mkdir (dir ++ [name]))
      | some _ => match disk.resolve (up ++ [name]) with
        | .here p => if disk.get p = some .directory then some disk else none
        | _ => none
  | _ => none

/-- `mkdir -p`, of a path given by its names from the last one up. -/
def makeAll (disk : Disk) : List String → Option Disk
  | [] => some disk
  | name :: up => (makeAll disk up).bind fun disk ↦ disk.makeOne up.reverse name

/-- The physical directory a path leads to, of which the last names may still have to be
made. The names are given from the last one up. -/
def directoryOf (disk : Disk) : List String → Option (List String)
  | [] => some []
  | name :: up => (directoryOf disk up).bind fun dir ↦
    match disk.get (dir ++ [name]) with
    | none => some (dir ++ [name])
    | some _ => match disk.resolve (up.reverse ++ [name]) with
      | .here p => if disk.get p = some .directory then some p else none
      | _ => none

section

variable {disk disk' : Disk} {followLast : Bool} {cur todo xs ys dir p rest start : List String}

theorem get_dropLast (h : disk.get cur = some .directory) : disk.get cur.dropLast = some .directory := by
  rcases List.eq_nil_or_concat cur with rfl | ⟨init, name, rfl⟩
  · rfl
  · rw [List.concat_eq_append] at h ⊢
    rw [List.dropLast_concat]
    exact get_parent h

section

variable (hcur : disk.get cur = some .directory)

include hcur

theorem stride_here (h : disk.stride followLast cur todo = .here p) : ∃ node, disk.get p = some node ∧ (followLast =
    true → ∀ target, node ≠ .link target) := by
  induction todo generalizing cur with
  | nil =>
    cases h
    exact ⟨_, hcur, by simp⟩
  | cons name rest ih =>
    rw [stride] at h
    split at h
    · exact ih (get_dropLast hcur) h
    · split at h
      · cases h
      next hdir => exact ih hdir h
      next bytes hfile =>
        split at h
        · cases h
          exact ⟨_, hfile, by simp⟩
        · cases h
      next target hlink =>
        split at h
        next hlast =>
          cases h
          exact ⟨_, hlink, fun hfollow ↦ by rw [hfollow] at hlast; cases hlast.2⟩
        · cases h

theorem stride_missing (h : disk.stride followLast cur todo = .missing p rest) : disk.get p = none ∧ disk.get p.dropLast
    = some .directory := by
  induction todo generalizing cur with
  | nil => cases h
  | cons name todo ih =>
    rw [stride] at h
    split at h
    · exact ih (get_dropLast hcur) h
    · split at h
      next hnone =>
        cases h
        exact ⟨hnone, by rw [List.dropLast_concat]; exact hcur⟩
      next hdir => exact ih hdir h
      · split at h
        · cases h
        · cases h
      · split at h
        · cases h
        · cases h

theorem stride_follow (h : disk.stride followLast cur todo = .follow start rest) : disk.get start = some .directory :=
    by
  induction todo generalizing cur with
  | nil => cases h
  | cons name todo ih =>
    rw [stride] at h
    split at h
    · exact ih (get_dropLast hcur) h
    · split at h
      · cases h
      next hdir => exact ih hdir h
      · split at h
        · cases h
        · cases h
      · split at h
        · cases h
        · cases h
          split
          · rfl
          · exact hcur

theorem walk_here {hops : ℕ} (h : disk.walk followLast hops cur todo = .here p) : ∃ node, disk.get p = some node ∧
    (followLast = true → ∀ target, node ≠ .link target) := by
  induction hops generalizing cur todo with
  | zero => cases h
  | succ hops ih =>
    rw [walk] at h
    split at h
    next start rest hfollow => exact ih (stride_follow hcur hfollow) h
    next => exact stride_here hcur h

theorem walk_missing {hops : ℕ} (h : disk.walk followLast hops cur todo = .missing p rest) : disk.get p = none ∧
    disk.get p.dropLast = some .directory := by
  induction hops generalizing cur todo with
  | zero => cases h
  | succ hops ih =>
    rw [walk] at h
    split at h
    next start rest hfollow => exact ih (stride_follow hcur hfollow) h
    next => exact stride_missing hcur h

end

theorem stride_append (hdir : disk.get dir = some .directory) (h : disk.stride true cur xs = .here dir) :
    disk.stride true cur (xs ++ ys) = disk.stride true dir ys := by
  induction xs generalizing cur with
  | nil =>
    cases h
    rfl
  | cons name xs ih =>
    rw [stride] at h
    rw [List.cons_append, stride]
    split at h
    next hdots => rw [if_pos hdots, ih h]
    next hdots =>
      rw [if_neg hdots]
      split at h
      · cases h
      next => exact ih h
      next bytes hget =>
        split at h
        · cases h
          rw [hget] at hdir
          cases hdir
        · cases h
      next target hget =>
        split at h
        next hlast => cases hlast.2
        · cases h

theorem stride_append_follow (h : disk.stride true cur xs = .follow start todo) :
    disk.stride true cur (xs ++ ys) = .follow start (todo ++ ys) := by
  induction xs generalizing cur with
  | nil => cases h
  | cons name xs ih =>
    rw [stride] at h
    rw [List.cons_append, stride]
    split at h
    next hdots => rw [if_pos hdots, ih h]
    next hdots =>
      rw [if_neg hdots]
      split at h
      · cases h
      next => exact ih h
      · split at h
        · cases h
        · cases h
      next target hget =>
        split at h
        next hlast => cases hlast.2
        next =>
          cases h
          simp

theorem walk_append {hops : ℕ} (hdir : disk.get dir = some .directory)
    (h : disk.walk true hops cur xs = .here dir) :
    ∃ left, disk.walk true hops cur (xs ++ ys) = disk.walk true (left + 1) dir ys := by
  induction hops generalizing cur xs with
  | zero => cases h
  | succ hops ih =>
    rw [walk] at h
    split at h
    next start todo hfollow =>
      obtain ⟨left, hleft⟩ := ih h
      exact ⟨left, by rw [walk, stride_append_follow hfollow]; exact hleft⟩
    next hstop =>
      refine ⟨hops, ?_⟩
      rw [walk, stride_append hdir h, walk]

end

def Extends (disk disk' : Disk) : Prop := ∀ q node, disk.get q = some node → disk'.get q = some node

section

variable {disk disk' : Disk} {cur todo path dir p rest start names : List String} {name : String}

theorem Extends.stride (h : disk.Extends disk') {followLast : Bool} {s : Stride}
    (hs : disk.stride followLast cur todo = s) (hfound : ∀ p rest, s ≠ .missing p rest) :
    disk'.stride followLast cur todo = s := by
  induction todo generalizing cur with
  | nil => exact hs
  | cons name todo ih =>
    rw [Disk.stride] at hs ⊢
    split at hs
    next hdots =>
      rw [if_pos hdots]
      exact ih hs
    next hdots =>
      rw [if_neg hdots]
      split at hs
      · exact absurd hs.symm (hfound _ _)
      next hget =>
        rw [h _ _ hget]
        exact ih hs
      next bytes hget =>
        rw [h _ _ hget]
        exact hs
      next target hget =>
        rw [h _ _ hget]
        exact hs

theorem Extends.walk (h : disk.Extends disk') {followLast : Bool} {hops : ℕ}
    (hs : disk.walk followLast hops cur todo = .here p) : disk'.walk followLast hops cur todo = .here p := by
  induction hops generalizing cur todo with
  | zero => cases hs
  | succ hops ih =>
    rw [Disk.walk] at hs ⊢
    split at hs
    next start rest hfollow =>
      rw [h.stride hfollow (by simp)]
      exact ih hs
    next => rw [h.stride hs (by simp)]

theorem resolve_here (h : disk.resolve path = .here p) :
    ∃ node, disk.get p = some node ∧ ∀ target, node ≠ .link target := by
  obtain ⟨node, hnode, hlink⟩ := walk_here disk.get_nil h
  exact ⟨node, hnode, hlink rfl⟩

theorem resolve_snoc (hdir : disk.get dir = some .directory) (h : disk.resolve path = .here dir)
    (hname : name ≠ "..") :
    (disk.get (dir ++ [name]) = none → disk.resolve (path ++ [name]) = .missing (dir ++ [name]) []) ∧
    (disk.get (dir ++ [name]) = some .directory → disk.resolve (path ++ [name]) = .here (dir ++ [name])) := by
  obtain ⟨left, hleft⟩ := @walk_append _ _ _ [name] _ _ hdir h
  rw [resolve, hleft, Disk.walk, Disk.stride, if_neg hname]
  constructor
  · intro hget
    rw [hget]
  · intro hget
    rw [hget]
    rfl

/-- What `mkdir -p` does: the path leads to a directory afterwards; nothing is made, or
that directory is new, and so is all that was made, which lies above it. -/
structure Makes (disk disk' : Disk) (path dir : List String) : Prop where
  leads : disk'.resolve path = .here dir
  directory : disk'.get dir = some .directory
  made : disk' = disk ∨ disk.get dir = none ∧ ∀ q, disk'.get q = disk.get q ∨
    disk.get q = none ∧ disk'.get q = some .directory ∧ q <+: dir

theorem get_below_none (h : disk.get dir = none) : disk.get (dir ++ [name]) = none := by
  cases hget : disk.get (dir ++ [name]) with
  | none => rfl
  | some =>
    rw [get_parent hget] at h
    cases h

theorem Makes.below_none (h : Makes disk disk' path dir) (hdir : disk.get dir = none) :
    disk'.get (dir ++ [name]) = none := by
  have hbelow : disk.get (dir ++ [name]) = none := get_below_none hdir
  rcases h.made with rfl | ⟨-, hmade⟩
  · exact hbelow
  · rcases hmade (dir ++ [name]) with hsame | ⟨-, -, hprefix⟩
    · rw [hsame, hbelow]
    · have hlen := hprefix.length_le
      simp only [List.length_append, List.length_singleton] at hlen
      omega

theorem Makes.refl (hleads : disk.resolve path = .here dir) (hdir : disk.get dir = some .directory) :
    Makes disk disk path dir := ⟨hleads, hdir, .inl rfl⟩

theorem Makes.mkdir (h : Makes disk disk' path dir) (hname : name ≠ "..") (hnone : disk.get (dir ++ [name]) = none)
    (hnone' : disk'.get (dir ++ [name]) = none) :
    Makes disk (disk'.mkdir (dir ++ [name])) (path ++ [name]) (dir ++ [name]) := by
  have hget := @get_mkdir disk' (dir ++ [name]) (by simp) (by rw [List.dropLast_concat]; exact h.directory)
  have hextends : disk'.Extends (disk'.mkdir (dir ++ [name])) := by
    intro q node hq
    rw [hget, if_neg]
    · exact hq
    · rintro rfl
      rw [hnone'] at hq
      cases hq
  have hthere : (disk'.mkdir (dir ++ [name])).get (dir ++ [name]) = some .directory := by
    rw [hget, if_pos rfl]
  refine ⟨?_, hthere, .inr ⟨hnone, fun q ↦ ?_⟩⟩
  · exact (resolve_snoc (hextends _ _ h.directory) (hextends.walk h.leads) hname).2 hthere
  · rw [hget]
    split
    next hq =>
      subst hq
      exact .inr ⟨hnone, rfl, List.prefix_rfl⟩
    next =>
      rcases h.made with rfl | ⟨-, hmade⟩
      · exact .inl rfl
      · rcases hmade q with hsame | ⟨hqnone, hqdir, hprefix⟩
        · exact .inl hsame
        · exact .inr ⟨hqnone, hqdir, hprefix.trans (List.prefix_append _ _)⟩

theorem makeOne_makes (hmakes : Makes disk disk' path dir) (hname : name ≠ "..") :
    match disk.get (dir ++ [name]) with
    | none => ∃ made, disk'.makeOne path name = some made ∧ Makes disk made (path ++ [name]) (dir ++ [name])
    | some _ => disk' = disk ∧ disk.makeOne path name =
        match disk.resolve (path ++ [name]) with
        | .here p => if disk.get p = some .directory then some disk else none
        | _ => none := by
  cases hget : disk.get (dir ++ [name]) with
  | none =>
    have hnone' : disk'.get (dir ++ [name]) = none := by
      rcases hmakes.made with rfl | ⟨hnew, -⟩
      · exact hget
      · exact hmakes.below_none hnew
    refine ⟨_, ?_, hmakes.mkdir hname hget hnone'⟩
    rw [makeOne, hmakes.leads]
    dsimp only
    rw [if_neg (not_not.mpr hmakes.directory), hnone']
  | some =>
    rcases hmakes.made with rfl | ⟨hnew, -⟩
    · refine ⟨rfl, ?_⟩
      rw [makeOne, hmakes.leads]
      dsimp only
      rw [if_neg (not_not.mpr hmakes.directory), hget]
    · rw [get_below_none hnew] at hget
      cases hget

theorem makeAll_makes (hnames : ∀ name ∈ names, name ≠ "..") :
    match disk.directoryOf names with
    | none => disk.makeAll names = none
    | some dir => ∃ disk', disk.makeAll names = some disk' ∧ Makes disk disk' names.reverse dir := by
  induction names with
  | nil => exact ⟨disk, rfl, .refl rfl rfl⟩
  | cons name up ih =>
    specialize ih fun n hn ↦ hnames n (List.mem_cons_of_mem name hn)
    rw [directoryOf, makeAll, List.reverse_cons]
    cases hup : disk.directoryOf up with
    | none =>
      rw [hup] at ih
      rw [ih]
      rfl
    | some dir =>
      rw [hup] at ih
      obtain ⟨disk₁, hmake, hmakes⟩ := ih
      have hone := makeOne_makes hmakes (hnames name (by simp))
      rw [hmake]
      simp only [Option.bind_some]
      cases hget : disk.get (dir ++ [name]) with
      | none =>
        rw [hget] at hone
        exact hone
      | some =>
        rw [hget] at hone
        obtain ⟨rfl, hone⟩ := hone
        dsimp only
        rw [hone]
        cases hresolve : disk₁.resolve (up.reverse ++ [name]) with
        | here p =>
          dsimp only
          by_cases hdir : disk₁.get p = some .directory
          · rw [if_pos hdir, if_pos hdir]
            exact ⟨disk₁, rfl, .refl hresolve hdir⟩
          · rw [if_neg hdir, if_neg hdir]
        | missing | blocked | follow => rfl

end

/-- `mkdir -p` of the directory of a path, then a write that follows links and creates
the file if there is none. -/
def writeFile (disk : Disk) (path : List String) (bytes : List UInt8) : Disk × Bool :=
  match disk.makeAll path.dropLast.reverse with
  | none => (disk, false)
  | some disk => match disk.resolve path with
    | .here p => if disk.get p = some .directory then (disk, false) else (disk.write p bytes, true)
    | .missing p [] => (disk.write p bytes, true)
    | _ => (disk, false)

def landing (disk : Disk) (path : List String) : Option (List String) :=
  (disk.directoryOf path.dropLast.reverse).bind fun dir ↦
    if disk.get dir = none then some (dir ++ path.getLast?.toList)
    else match disk.resolve path with
      | .here p => some p
      | .missing p [] => some p
      | _ => none

def present (disk : Disk) (path : List String) : Bool :=
  match disk.resolve path with
  | .here _ => true
  | _ => false

def readFile (disk : Disk) (path : List String) : Option (List UInt8) :=
  match disk.resolve path with
  | .here p => match disk.get p with
    | some (.file bytes) => some bytes
    | _ => none
  | _ => none

/-- The physical place of what a removal of the path removes: the links of its directories
are followed, not its own. -/
def removal (disk : Disk) (path : List String) : Option (List String) :=
  match disk.walk false (maxLinks + 1) [] path with
  | .here p => if disk.get p = some .directory then none else some p
  | _ => none

def removeFile (disk : Disk) (path : List String) : Disk × Bool :=
  match disk.removal path with
  | some p => (disk.unlink p, true)
  | none => (disk, false)

section

variable {disk : Disk} {path p real : List String} {bytes : List UInt8}

theorem writeFile_cases (hpath : ∀ name ∈ path, name ≠ "..") (bytes : List UInt8) :
    ((disk.writeFile path bytes).1 = disk ∧ ∀ p, disk.landing path = some p → disk.get p = some .directory) ∨
    (∃ p, disk.landing path = some p ∧ disk.get p ≠ some .directory ∧
      (∀ target, disk.get p ≠ some (.link target)) ∧
      ∀ q, (disk.writeFile path bytes).1.get q = if p = q then some (.file bytes) else disk.get q) ∨
    ∃ p, disk.landing path = some p ∧ disk.get p = none ∧
      (disk.writeFile path bytes).1.get p = some (.file bytes) ∧
      ∀ q, (disk.writeFile path bytes).1.get q = disk.get q ∨ disk.get q = none ∧ q <+: p := by
  have hnames : ∀ name ∈ path.dropLast.reverse, name ≠ ".." := fun name hname ↦
    hpath name (List.dropLast_subset path (List.mem_reverse.mp hname))
  have hmake := @makeAll_makes disk _ hnames
  unfold writeFile landing
  cases hdir : disk.directoryOf path.dropLast.reverse with
  | none =>
    rw [hdir] at hmake
    rw [hmake]
    exact .inl ⟨rfl, by simp⟩
  | some dir =>
    rw [hdir] at hmake
    obtain ⟨disk', hmake, hmakes⟩ := hmake
    rw [hmake]
    rw [List.reverse_reverse] at hmakes
    simp only [Option.bind_some]
    rcases hmakes.made with rfl | ⟨hnew, hmade⟩
    · rw [if_neg (by rw [hmakes.directory]; simp)]
      cases hresolve : disk'.resolve path with
      | here p =>
        obtain ⟨node, hnode, hlink⟩ := resolve_here hresolve
        dsimp only
        by_cases hdirectory : disk'.get p = some .directory
        · rw [if_pos hdirectory]
          exact .inl ⟨rfl, fun q hq ↦ by cases hq; exact hdirectory⟩
        · rw [if_neg hdirectory]
          refine .inr (.inl ⟨p, rfl, hdirectory, fun target ht ↦ ?_, get_write ?_ hdirectory⟩)
          · rw [hnode] at ht
            cases ht
            exact hlink target rfl
          · rcases List.eq_nil_or_concat p with rfl | ⟨init, name, rfl⟩
            · rfl
            · rw [List.concat_eq_append] at hnode ⊢
              rw [List.dropLast_concat]
              exact get_parent hnode
      | missing p rest =>
        obtain ⟨hnone, hparent⟩ := walk_missing disk'.get_nil hresolve
        cases rest with
        | cons => exact .inl ⟨rfl, by simp⟩
        | nil =>
          have hdirectory : disk'.get p ≠ some .directory := by
            rw [hnone]
            simp
          refine .inr (.inl ⟨p, rfl, hdirectory, fun target ht ↦ ?_, get_write hparent hdirectory⟩)
          rw [hnone] at ht
          cases ht
      | blocked | follow => exact .inl ⟨rfl, by simp⟩
    · -- the directory is new, so the file is new in it
      rw [if_pos hnew]
      rcases List.eq_nil_or_concat path with rfl | ⟨init, name, rfl⟩
      · have hleads := hmakes.leads
        cases hleads
        cases hnew
      · rw [List.concat_eq_append] at hmakes hpath ⊢
        rw [List.dropLast_concat] at hmakes
        have hbelow : disk'.get (dir ++ [name]) = none := hmakes.below_none hnew
        have hdirectory : disk'.get (dir ++ [name]) ≠ some .directory := by
          rw [hbelow]
          simp
        have hget : ∀ q, (disk'.write (dir ++ [name]) bytes).get q =
            if dir ++ [name] = q then some (.file bytes) else disk'.get q :=
          get_write (by rw [List.dropLast_concat]; exact hmakes.directory) hdirectory
        rw [(resolve_snoc hmakes.directory hmakes.leads (hpath name (by simp))).1 hbelow, List.getLast?_concat]
        refine .inr (.inr ⟨dir ++ [name], rfl, get_below_none hnew, ?_, fun q ↦ ?_⟩)
        · rw [hget, if_pos rfl]
        · rw [hget]
          split
          next hq =>
            subst hq
            exact .inr ⟨get_below_none hnew, List.prefix_rfl⟩
          next =>
            rcases hmade q with hsame | ⟨hnone, -, hprefix⟩
            · exact .inl hsame
            · exact .inr ⟨hnone, hprefix.trans (List.prefix_append _ _)⟩

theorem below_of_new {q : List String} (hreal : disk.get real = some .directory) (hp : real <+: p)
    (hq : q <+: p) (hnone : disk.get q = none) : real <+: q := by
  rcases List.prefix_or_prefix_of_prefix hp hq with h | h
  · exact h
  · obtain ⟨rest, rfl⟩ := h
    by_cases hrest : rest = []
    · simp [hrest]
    · have habove := get_above hrest (by rw [hreal]; rfl)
      rw [habove] at hnone
      cases hnone

theorem writeFile_inside_iff (hreal : disk.get real = some .directory) (hpath : ∀ name ∈ path, name ≠ "..") :
    (∀ q, ¬ real <+: q → (disk.writeFile path bytes).1.get q = disk.get q) ↔
      ∀ p, disk.landing path = some p →
        real <+: p ∨ disk.get p = some .directory ∨ disk.get p = some (.file bytes) := by
  rcases writeFile_cases hpath bytes with ⟨hsame, hland⟩ | ⟨p, hland, hdirectory, hlink, hget⟩ |
    ⟨p, hland, hnone, hfile, hget⟩
  · rw [hsame]
    exact ⟨fun _ p hp ↦ .inr (.inl (hland p hp)), fun _ _ _ ↦ rfl⟩
  · constructor
    · intro houtside q hq
      rw [hland] at hq
      cases hq
      by_cases hin : real <+: p
      · exact .inl hin
      · right; right
        have hp := houtside p hin
        rw [hget, if_pos rfl] at hp
        exact hp.symm
    · intro hinside q hq
      rw [hget]
      split
      next hpq =>
        subst hpq
        rcases hinside p hland with hin | hdir | hbytes
        · exact absurd hin hq
        · exact absurd hdir hdirectory
        · exact hbytes.symm
      next => rfl
  · constructor
    · intro houtside q hq
      rw [hland] at hq
      cases hq
      by_cases hin : real <+: p
      · exact .inl hin
      · have hp := houtside p hin
        rw [hfile, hnone] at hp
        cases hp
    · intro hinside q hq
      rcases hget q with hsame | ⟨hqnone, hprefix⟩
      · exact hsame
      · rcases hinside p hland with hin | hdir | hbytes
        · exact absurd (below_of_new hreal hin hprefix hqnone) hq
        · rw [hnone] at hdir
          cases hdir
        · rw [hnone] at hbytes
          cases hbytes

theorem writeFile_directory (hreal : disk.get real = some .directory) (hpath : ∀ name ∈ path, name ≠ "..") :
    (disk.writeFile path bytes).1.get real = some .directory := by
  rcases writeFile_cases hpath bytes with ⟨hsame, -⟩ | ⟨p, -, hdirectory, -, hget⟩ | ⟨p, -, -, -, hget⟩
  · rw [hsame, hreal]
  · rw [hget, if_neg]
    · exact hreal
    · rintro rfl
      exact hdirectory hreal
  · rcases hget real with hsame | ⟨hnone, -⟩
    · rw [hsame, hreal]
    · rw [hreal] at hnone
      cases hnone

theorem removal_some (h : disk.removal path = some p) :
    disk.get p ≠ some .directory ∧ ∃ node, disk.get p = some node := by
  unfold removal at h
  split at h
  next hwalk =>
    obtain ⟨node, hnode, -⟩ := walk_here disk.get_nil hwalk
    split at h
    · cases h
    next hdirectory =>
      cases h
      exact ⟨hdirectory, node, hnode⟩
  · cases h

theorem removeFile_directory (hreal : disk.get real = some .directory) :
    (disk.removeFile path).1.get real = some .directory := by
  unfold removeFile
  cases h : disk.removal path with
  | none => exact hreal
  | some =>
    have hdirectory := (removal_some h).1
    dsimp only
    rw [get_unlink hdirectory, if_neg]
    · exact hreal
    · rintro rfl
      exact hdirectory hreal

theorem removeFile_inside_iff :
    (∀ q, ¬ real <+: q → (disk.removeFile path).1.get q = disk.get q) ↔
      ∀ p, disk.removal path = some p → real <+: p := by
  unfold removeFile
  cases h : disk.removal path with
  | none => exact ⟨fun _ _ h ↦ (by cases h), fun _ _ _ ↦ rfl⟩
  | some p =>
    obtain ⟨hdirectory, node, hnode⟩ := removal_some h
    constructor
    · intro houtside q hq
      cases hq
      by_contra hout
      have hq := houtside p hout
      rw [get_unlink hdirectory, if_pos rfl, hnode] at hq
      cases hq
    · intro hinside q hq
      dsimp only
      rw [get_unlink hdirectory, if_neg]
      rintro rfl
      exact hq (hinside p rfl)

end

section

variable {disk disk' : Disk} {cur xs ys path p names : List String} {name : String} {bytes : List UInt8}

theorem stride_split (hcur : disk.get cur = some .directory) (hys : ys ≠ []) (xs : List String) :
    (∃ dir, disk.stride true cur xs = .here dir ∧ disk.get dir = some .directory) ∨
    (∃ start todo, disk.stride true cur xs = .follow start todo ∧ disk.get start = some .directory ∧
      disk.stride true cur (xs ++ ys) = .follow start (todo ++ ys)) ∨
    disk.stride true cur (xs ++ ys) = .blocked ∨
    ∃ p rest, disk.stride true cur (xs ++ ys) = .missing p rest ∧ rest ≠ [] := by
  induction xs generalizing cur with
  | nil => exact .inl ⟨cur, rfl, hcur⟩
  | cons name xs ih =>
    have hne : xs ++ ys ≠ [] := by simp [hys]
    rw [List.cons_append, stride, stride]
    by_cases hdots : name = ".."
    · rw [if_pos hdots, if_pos hdots]
      exact ih (get_dropLast hcur)
    · rw [if_neg hdots, if_neg hdots]
      cases hget : disk.get (cur ++ [name]) with
      | none => exact .inr (.inr (.inr ⟨_, _, rfl, hne⟩))
      | some node =>
        cases node with
        | directory => exact ih hget
        | file =>
          dsimp only
          rw [if_neg hne]
          exact .inr (.inr (.inl rfl))
        | link =>
          dsimp only
          have hshort : ¬ (xs = [] ∧ true = false) := by simp
          have hlong : ¬ (xs ++ ys = [] ∧ true = false) := by simp
          rw [if_neg hshort, if_neg hlong, ← List.append_assoc]
          refine .inr (.inl ⟨_, _, rfl, ?_, rfl⟩)
          split
          · rfl
          · exact hcur

theorem walk_directory {hops : ℕ} (hcur : disk.get cur = some .directory) (hys : ys ≠ [])
    (h : (∃ p, disk.walk true hops cur (xs ++ ys) = .here p) ∨ ∃ p, disk.walk true hops cur (xs ++ ys) = .missing p []) :
    ∃ dir, disk.walk true hops cur xs = .here dir ∧ disk.get dir = some .directory := by
  induction hops generalizing cur xs with
  | zero =>
    rcases h with ⟨p, hp⟩ | ⟨p, hp⟩
    · cases hp
    · cases hp
  | succ hops ih =>
    rcases stride_split hcur hys xs with ⟨dir, hdir, hget⟩ | ⟨start, todo, hfollow, hstart, happend⟩ | hblocked |
      ⟨p, rest, hmissing, hrest⟩
    · refine ⟨dir, ?_, hget⟩
      rw [walk, hdir]
    · rw [walk, happend] at h
      rw [walk, hfollow]
      exact ih hstart h
    · rw [walk, hblocked] at h
      rcases h with ⟨p, hp⟩ | ⟨p, hp⟩
      · cases hp
      · cases hp
    · rw [walk, hmissing] at h
      rcases h with ⟨q, hq⟩ | ⟨q, hq⟩
      · cases hq
      · cases hq
        exact absurd rfl hrest

theorem directoryOf_of_resolve (hnames : ∀ name ∈ names, name ≠ "..") {dir : List String}
    (h : disk.resolve names.reverse = .here dir) (hdir : disk.get dir = some .directory) :
    disk.directoryOf names = some dir := by
  induction names generalizing dir with
  | nil =>
    cases h
    rfl
  | cons name up ih =>
    rw [List.reverse_cons] at h
    obtain ⟨above, habove, hget⟩ := walk_directory disk.get_nil (List.cons_ne_nil name []) (.inl ⟨dir, h⟩)
    rw [directoryOf, ih (fun n hn ↦ hnames n (List.mem_cons_of_mem name hn)) habove hget, Option.bind_some]
    cases hnext : disk.get (above ++ [name]) with
    | none =>
      have hmissing := (resolve_snoc hget habove (hnames name (by simp))).1 hnext
      rw [h] at hmissing
      cases hmissing
    | some =>
      dsimp only
      rw [h]
      dsimp only
      rw [if_pos hdir]

theorem resolve_of_makeAll_none (hpath : ∀ name ∈ path, name ≠ "..")
    (h : disk.makeAll path.dropLast.reverse = none) :
    (∀ p, disk.resolve path ≠ .here p) ∧ ∀ p, disk.resolve path ≠ .missing p [] := by
  rcases List.eq_nil_or_concat path with rfl | ⟨init, name, rfl⟩
  · cases h
  · rw [List.concat_eq_append] at hpath h ⊢
    rw [List.dropLast_concat] at h
    have hnames : ∀ n ∈ init.reverse, n ≠ ".." := fun n hn ↦
      hpath n (List.mem_append_left [name] (List.mem_reverse.mp hn))
    have hnone : ∀ dir, disk.resolve init = .here dir → disk.get dir = some .directory → False := by
      intro dir hdir hget
      have hof : disk.directoryOf init.reverse = some dir :=
        directoryOf_of_resolve hnames (by rw [List.reverse_reverse]; exact hdir) hget
      have hmakes := @makeAll_makes disk init.reverse hnames
      rw [hof] at hmakes
      obtain ⟨disk', hmade, -⟩ := hmakes
      rw [h] at hmade
      cases hmade
    constructor
    · intro p hp
      obtain ⟨dir, hdir, hget⟩ := walk_directory disk.get_nil (List.cons_ne_nil name []) (.inl ⟨p, hp⟩)
      exact hnone dir hdir hget
    · intro p hp
      obtain ⟨dir, hdir, hget⟩ := walk_directory disk.get_nil (List.cons_ne_nil name []) (.inr ⟨p, hp⟩)
      exact hnone dir hdir hget

theorem writeFile_failed (hpath : ∀ name ∈ path, name ≠ "..") (h : (disk.writeFile path bytes).2 = false) :
    (disk.makeAll path.dropLast.reverse).getD disk = disk ∧ (disk.writeFile path bytes).1 = disk := by
  have hnames : ∀ name ∈ path.dropLast.reverse, name ≠ ".." := fun name hname ↦
    hpath name (List.dropLast_subset path (List.mem_reverse.mp hname))
  have hmakes := @makeAll_makes disk _ hnames
  unfold writeFile at h ⊢
  cases hof : disk.directoryOf path.dropLast.reverse with
  | none =>
    rw [hof] at hmakes
    rw [hmakes]
    exact ⟨rfl, rfl⟩
  | some dir =>
    rw [hof] at hmakes
    obtain ⟨disk', hmade, hmakes⟩ := hmakes
    rw [List.reverse_reverse] at hmakes
    rw [hmade] at h ⊢
    dsimp only at h ⊢
    have hsame : disk' = disk := by
      rcases hmakes.made with hsame | ⟨hnew, -⟩
      · exact hsame
      · -- a directory that was made holds nothing, so the write would have succeeded
        rcases List.eq_nil_or_concat path with rfl | ⟨init, name, rfl⟩
        · have hleads := hmakes.leads
          cases hleads
          cases hnew
        · rw [List.concat_eq_append] at hmakes hpath h
          rw [List.dropLast_concat] at hmakes
          have hbelow : disk'.get (dir ++ [name]) = none := hmakes.below_none hnew
          rw [(resolve_snoc hmakes.directory hmakes.leads (hpath name (by simp))).1 hbelow] at h
          cases h
    subst hsame
    refine ⟨rfl, ?_⟩
    cases hresolve : disk'.resolve path with
    | here p =>
      rw [hresolve] at h
      dsimp only at h ⊢
      by_cases hdirectory : disk'.get p = some .directory
      · rw [if_pos hdirectory]
      · rw [if_neg hdirectory] at h
        cases h
    | missing p rest =>
      rw [hresolve] at h
      cases rest with
      | nil => cases h
      | cons => rfl
    | blocked | follow => rfl

end

end Disk

end Noesar.Lib
