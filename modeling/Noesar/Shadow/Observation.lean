import Noesar.Lib.BytePath
import Noesar.Lib.Journal
import Noesar.Shadow.Executor

namespace Noesar.Shadow.WholeWorkspace

open Lib Lib.Framing Lib.Utf8 Lib.BytePath Lib.Journal Capability

/-- What stands at a path. A special entry is a socket, a pipe or a device; a directory is there
through what it holds. -/
inductive Leaf
  | file (content : Bytes)
  | link (target : Bytes)
  | special
  deriving DecidableEq

/-- A tree with the names a file system allows. Nothing lies below a file, and some of the files
and directories may refuse to be read. -/
structure FileTree where
  entries : InsertionMap (List Bytes) Leaf
  rooted : ∀ e ∈ entries.entries, e.1 ≠ []
  named : ∀ e ∈ entries.entries, ∀ name ∈ e.1, name ≠ [] ∧ slash ∉ name
  apart : ∀ e ∈ entries.entries, ∀ f ∈ entries.entries, e.1 <+: f.1 → e.1 = f.1
  denied : List Bytes → Bool

/-- A tree as `materialise` leaves it: it is written under paths that are texts. -/
structure ShadowTree extends FileTree where
  texts : ∀ e ∈ entries.entries, ∀ name ∈ e.1, IsText name

namespace FileTree

def shut (tree : FileTree) (path : List Bytes) : Bool := path.inits.dropLast.any tree.denied

def holds (tree : FileTree) (path : List Bytes) : Option Leaf :=
  (tree.entries.get path).filter (· ≠ .special)

end FileTree

variable (host : Host)

def digestOf (content : Bytes) : String := hex (host.sha256 content).toList

def digestOfLink (target : Bytes) : String :=
  hex (host.sha256 (utf8 ("symlink:" ++ String.ofList (decode target)))).toList

/-- What `materialise` notes of its copies: of the files first, then of the links. -/
def copied (relative : List Bytes → String) (tree : ShadowTree) : List (String × Option String) :=
  tree.entries.entries.filterMap (fun (path, leaf) ↦
    match leaf with
    | .file content => some (relative path, some (digestOf host content))
    | _ => none) ++
  tree.entries.entries.filterMap fun (path, leaf) ↦
    match leaf with
    | .link target => some (relative path, some (digestOfLink host target))
    | _ => none

/-- What the control plane's walk does with an entry. It opens files by the texts of their paths:
where a path is no text it opens another one, or none. -/
def visit (astray : List Bytes → Option (List (String × String))) (tree : FileTree) (path : List Bytes) :
    Leaf → Option (List (String × String))
  | .file content =>
    if ∃ name ∈ path, ¬IsText name then astray path
    else if tree.shut path then some []
    else if tree.denied path then none
    else some [(key path, digestOf host content)]
  | .link target =>
    if ∃ name ∈ path, ¬IsText name then astray path
    else if tree.shut path then some []
    else some [(key path, digestOfLink host target)]
  | .special => some []

def currentTree (astray : List Bytes → Option (List (String × String))) (tree : FileTree) :
    Option (InsertionMap String String) := do
  let found ← tree.entries.entries.mapM fun (path, leaf) ↦ visit host astray tree path leaf
  pure (overwrite .empty found.flatten)

def compared : Option String → Option String → Option Change
  | none, some _ => some .created
  | some _, none => some .deleted
  | some before, some after => if before ≠ after then some .modified else none
  | none, none => none

/-- What `observe` enters into its result, in this order. -/
def changes (baseline : InsertionMap String (Option String)) (now : InsertionMap String String) :
    List (String × Change) :=
  baseline.entries.filterMap (fun (relative, before) ↦
    (compared before (now.get relative)).map fun change ↦ (relative, change)) ++
  now.entries.filterMap fun (relative, _) ↦ if baseline.has relative then none else some (relative, .created)

/-- `changed[relative] = change`: on a plain object an assignment to `__proto__` sets no property. -/
def assign (changed : InsertionMap String Change) (entry : String × Change) : InsertionMap String Change :=
  if entry.1 = "__proto__" then changed else changed.set entry.1 entry.2

def observe (astray : List Bytes → Option (List (String × String))) (copies : ShadowTree) (later : FileTree)
    (tests : List TestOutcome) : Option Observation := do
  let now ← currentTree host astray later
  let changed := (changes (overwrite .empty (copied host key copies)) now).foldl assign .empty
  pure ⟨changed.entries, tests⟩

namespace Rust

def relative (path : List Bytes) : String := String.ofList (decode (spell path))

def visit (tree : FileTree) (path : List Bytes) : Leaf → Option (List (String × String))
  | .file content =>
    if tree.shut path then some []
    else if tree.denied path then none
    else some [(relative path, digestOf host content)]
  | .link target => if tree.shut path then some [] else some [(relative path, digestOfLink host target)]
  | .special => some []

def currentTree (tree : FileTree) : Option (InsertionMap String String) := do
  let found ← tree.entries.entries.mapM fun (path, leaf) ↦ visit host tree path leaf
  pure (overwrite .empty found.flatten)

def observe (copies : ShadowTree) (later : FileTree) (tests : List TestOutcome) : Option Observation := do
  let now ← currentTree host later
  let changed := overwrite .empty (changes (overwrite .empty (copied host relative copies)) now)
  pure ⟨changed.entries, tests⟩

end Rust

def Leaf.digested : Leaf → Bytes
  | .file content => content
  | .link target => utf8 ("symlink:" ++ String.ofList (decode target))
  | .special => []

def Leaf.isFile : Leaf → Bool
  | .file _ => true
  | _ => false

def Leaf.digest (leaf : Leaf) : String := hex (host.sha256 leaf.digested).toList

inductive Differs : Option Leaf → Option Leaf → Change → Prop
  | created (leaf : Leaf) : Differs none (some leaf) .created
  | deleted (leaf : Leaf) : Differs (some leaf) none .deleted
  | modified {before after : Leaf} (h : before ≠ after) : Differs (some before) (some after) .modified

/-- The observed changes are those of the paths, each under the text that spells it. -/
structure Exact (copies : ShadowTree) (later : FileTree) (changed : List (String × Change)) : Prop where
  complete : ∀ path change, Differs (copies.holds path) (later.holds path) change →
    ∃ relative, utf8 relative = spell path ∧ InsertionMap.lookup relative changed = some change
  sound : ∀ relative change, InsertionMap.lookup relative changed = some change →
    ∃ path, spell path = utf8 relative ∧ Differs (copies.holds path) (later.holds path) change

def TellsApart (copies : ShadowTree) (later : FileTree) : Prop :=
  ∀ path before after, copies.holds path = some before → later.holds path = some after →
    host.sha256 before.digested = host.sha256 after.digested → before.digested = after.digested

namespace FileTree

variable {tree : FileTree} {path : List Bytes} {leaf : Leaf}

def Legible (tree : FileTree) (path : List Bytes) (leaf : Leaf) : Prop :=
  tree.shut path = false ∧ ∀ content, leaf = .file content → tree.denied path = false

theorem holds_iff : tree.holds path = some leaf ↔ (path, leaf) ∈ tree.entries.entries ∧ leaf ≠ .special := by
  rw [holds, Option.filter_eq_some_iff, decide_eq_true_eq]
  constructor
  · rintro ⟨hget, hleaf⟩
    exact ⟨InsertionMap.mem_entries hget, hleaf⟩
  · rintro ⟨hmem, hleaf⟩
    exact ⟨InsertionMap.get_of_mem hmem, hleaf⟩

end FileTree

section Tables

variable {κ ν : Type} [DecidableEq κ] {ws : List (κ × ν)} {k : κ} {v : ν}

theorem get_overwrite_empty (h : ∀ w ∈ ws, ∀ w' ∈ ws, w.1 = w'.1 → w = w') :
    (overwrite .empty ws).get k = some v ↔ (k, v) ∈ ws := by
  have hcopies : Copies (fun k ↦ (ws.find? (·.1 = k)).map Prod.snd) ws := by
    intro w hw
    dsimp only
    cases hfind : ws.find? (·.1 = w.1) with
    | none => simpa using List.find?_eq_none.mp hfind w hw
    | some w' =>
      have hkey : w'.1 = w.1 := by simpa using List.find?_some hfind
      rw [h w' (List.mem_of_find?_eq_some hfind) w hw hkey]
      rfl
  rw [get_overwrite hcopies]
  constructor
  · intro hget
    split at hget
    next hk =>
      obtain ⟨w, hw, rfl⟩ := List.mem_map.mp hk
      cases (hcopies w hw).symm.trans hget
      exact hw
    next => cases hget
  · intro hmem
    rw [if_pos (List.mem_map_of_mem hmem)]
    exact hcopies _ hmem

variable {α β : Type} {f : α → Option β} {xs : List α}

theorem mapM_eq_some {g : α → β} {ys : List β} (hg : ∀ x ∈ xs, ∀ y, f x = some y → y = g x) (h : xs.mapM f = some ys) :
    ys = xs.map g ∧ ∀ x ∈ xs, f x = some (g x) := by
  induction xs generalizing ys with
  | nil =>
    cases h
    exact ⟨rfl, by simp⟩
  | cons x xs ih =>
    rw [List.mapM_cons] at h
    obtain ⟨y, hy, h⟩ := Option.bind_eq_some_iff.mp h
    obtain ⟨zs, hzs, h⟩ := Option.bind_eq_some_iff.mp h
    cases h
    obtain ⟨rfl, hrest⟩ := ih (fun x' hx' ↦ hg x' (List.mem_cons_of_mem x hx')) hzs
    have hx := hg x List.mem_cons_self y hy
    refine ⟨by rw [List.map_cons, hx], ?_⟩
    intro x' hx'
    rcases List.mem_cons.mp hx' with rfl | hx'
    · rw [hy, hx]
    · exact hrest x' hx'

theorem mapM_congr {g : α → Option β} (h : ∀ x ∈ xs, f x = g x) :
    xs.mapM f = xs.mapM g := by
  induction xs with
  | nil => rfl
  | cons x xs ih =>
    rw [List.mapM_cons, List.mapM_cons, h x List.mem_cons_self, ih fun x' hx' ↦ h x' (List.mem_cons_of_mem x hx')]

theorem mapM_of_forall {g : α → β} (h : ∀ x ∈ xs, f x = some (g x)) :
    xs.mapM f = some (xs.map g) := by
  induction xs with
  | nil => rfl
  | cons x xs ih =>
    rw [List.mapM_cons, h x List.mem_cons_self, ih fun x' hx' ↦ h x' (List.mem_cons_of_mem x hx')]
    rfl

end Tables

section Changes

variable {baseline : InsertionMap String (Option String)} {now : InsertionMap String String} {relative : String}
  {change : Change}

theorem mem_changes : (relative, change) ∈ changes baseline now ↔
    compared (baseline.get relative).join (now.get relative) = some change := by
  unfold changes
  rw [List.mem_append, List.mem_filterMap, List.mem_filterMap]
  constructor
  · rintro (⟨⟨r, before⟩, hmem, h⟩ | ⟨⟨r, after⟩, hmem, h⟩)
    · obtain ⟨c, hc, he⟩ := Option.map_eq_some_iff.mp h
      cases he
      rw [InsertionMap.get_of_mem hmem]
      exact hc
    · dsimp only at h
      split_ifs at h with hhas
      cases h
      rw [InsertionMap.get_of_mem hmem]
      cases hget : baseline.get relative with
      | none => rfl
      | some =>
        rw [InsertionMap.has, hget] at hhas
        exact absurd rfl hhas
  · intro h
    cases hget : baseline.get relative with
    | some before =>
      rw [hget] at h
      exact .inl ⟨(relative, before), InsertionMap.mem_entries hget, Option.map_eq_some_iff.mpr ⟨change, h, rfl⟩⟩
    | none =>
      rw [hget] at h
      cases hnow : now.get relative with
      | none =>
        rw [hnow] at h
        cases h
      | some after =>
        rw [hnow] at h
        cases h
        refine .inr ⟨(relative, after), InsertionMap.mem_entries hnow, ?_⟩
        dsimp only
        rw [if_neg]
        simp [InsertionMap.has, hget]

theorem changes_agree : ∀ w ∈ changes baseline now, ∀ w' ∈ changes baseline now, w.1 = w'.1 → w = w' := by
  rintro ⟨relative, change⟩ hw ⟨relative', change'⟩ hw' rfl
  cases (mem_changes.mp hw).symm.trans (mem_changes.mp hw')
  rfl

theorem get_overwrite_changes : (overwrite .empty (changes baseline now)).get relative =
    compared (baseline.get relative).join (now.get relative) := by
  apply Option.ext
  intro change
  rw [get_overwrite_empty changes_agree, mem_changes]

theorem foldl_assign (entries : List (String × Change)) :
    entries.foldl assign .empty = overwrite .empty (entries.filter (·.1 ≠ "__proto__")) := by
  rw [overwrite, List.foldl_filter]
  congr 1
  funext changed entry
  unfold assign
  by_cases h : entry.1 = "__proto__"
  · rw [if_pos h, if_neg (by simpa using h)]
  · rw [if_neg h, if_pos (by simpa using h)]

theorem get_assigned : ((changes baseline now).foldl assign .empty).get relative =
    if relative = "__proto__" then none else compared (baseline.get relative).join (now.get relative) := by
  rw [foldl_assign]
  have hagree : ∀ w ∈ (changes baseline now).filter (·.1 ≠ "__proto__"),
      ∀ w' ∈ (changes baseline now).filter (·.1 ≠ "__proto__"), w.1 = w'.1 → w = w' :=
    fun w hw w' hw' ↦ changes_agree w (List.mem_filter.mp hw).1 w' (List.mem_filter.mp hw').1
  apply Option.ext
  intro change
  rw [get_overwrite_empty hagree, List.mem_filter, mem_changes, decide_eq_true_eq]
  by_cases h : relative = "__proto__"
  · simp [h]
  · simp [h]

end Changes

section Walks

variable {host} {astray : List Bytes → Option (List (String × String))} {tree : FileTree} {copies : ShadowTree}
  {path : List Bytes} {leaf : Leaf} {now : InsertionMap String String}

def FileTree.Texts (tree : FileTree) : Prop := ∀ path leaf, tree.holds path = some leaf → ∀ name ∈ path, IsText name

def noted (host : Host) (tree : FileTree) (entry : List Bytes × Leaf) : Option (String × String) :=
  if entry.2 ≠ .special ∧ tree.shut entry.1 = false then some (key entry.1, entry.2.digest host) else none

theorem visit_eq (htext : leaf ≠ .special → ∀ name ∈ path, IsText name) : visit host astray tree path leaf =
    if tree.shut path = false ∧ tree.denied path = true ∧ leaf.isFile = true then none
    else some (noted host tree (path, leaf)).toList := by
  cases leaf with
  | special =>
    rw [if_neg fun h ↦ by cases h.2.2]
    rfl
  | file =>
    have hno : ¬∃ name ∈ path, ¬IsText name := by simpa using htext nofun
    rw [visit, if_neg hno]
    cases hshut : tree.shut path with
    | true => simp [noted, hshut]
    | false =>
      cases hdenied : tree.denied path with
      | true => simp [Leaf.isFile]
      | false =>
        simp only [noted, hshut]
        simp [Leaf.digest, Leaf.digested, digestOf]
  | link =>
    have hno : ¬∃ name ∈ path, ¬IsText name := by simpa using htext nofun
    rw [visit, if_neg hno]
    cases hshut : tree.shut path with
    | true => simp [noted, hshut]
    | false =>
      simp only [noted, hshut]
      simp [Leaf.digest, Leaf.digested, digestOfLink, Leaf.isFile]

theorem text_of_mem (h : tree.Texts) (hmem : (path, leaf) ∈ tree.entries.entries) (hleaf : leaf ≠ .special) :
    ∀ name ∈ path, IsText name :=
  h path leaf (FileTree.holds_iff.mpr ⟨hmem, hleaf⟩)

theorem path_of_key (h : tree.Texts) {path' : List Bytes} {leaf' : Leaf} (hp : tree.holds path = some leaf)
    (hq : tree.holds path' = some leaf') (hkey : key path = key path') : path = path' := by
  have hmem := (FileTree.holds_iff.mp hp).1
  have hmem' := (FileTree.holds_iff.mp hq).1
  exact key_inj (tree.rooted _ hmem) (tree.rooted _ hmem') (fun n hn ↦ (tree.named _ hmem n hn).2)
    (fun n hn ↦ (tree.named _ hmem' n hn).2) (h _ _ hp) (h _ _ hq) hkey

theorem mem_noted {entry : String × String} :
    entry ∈ (tree.entries.entries.map fun e ↦ (noted host tree e).toList).flatten ↔
      ∃ path leaf, tree.holds path = some leaf ∧ tree.shut path = false ∧ entry = (key path, leaf.digest host) := by
  rw [← List.flatMap_def, List.mem_flatMap]
  constructor
  · rintro ⟨⟨path, leaf⟩, hmem, hentry⟩
    rw [Option.mem_toList, noted] at hentry
    split_ifs at hentry with hseen
    exact ⟨path, leaf, FileTree.holds_iff.mpr ⟨hmem, hseen.1⟩, hseen.2, (Option.some.inj hentry).symm⟩
  · rintro ⟨path, leaf, hholds, hshut, rfl⟩
    obtain ⟨hmem, hleaf⟩ := FileTree.holds_iff.mp hholds
    refine ⟨(path, leaf), hmem, ?_⟩
    rw [Option.mem_toList, noted, if_pos ⟨hleaf, hshut⟩]

theorem currentTree_some (htexts : tree.Texts) (h : currentTree host astray tree = some now) :
    (∀ path content, tree.holds path = some (.file content) → tree.shut path = false → tree.denied path = false) ∧
      ∀ relative digest, now.get relative = some digest ↔ ∃ path leaf, tree.holds path = some leaf ∧
        tree.shut path = false ∧ (relative, digest) = (key path, leaf.digest host) := by
  obtain ⟨found, hfound, hnow⟩ := Option.bind_eq_some_iff.mp h
  obtain ⟨rfl, hopen⟩ := mapM_eq_some (g := fun e ↦ (noted host tree e).toList) (by
    rintro ⟨path, leaf⟩ hmem found hvisit
    dsimp only at hvisit
    rw [visit_eq (text_of_mem htexts hmem)] at hvisit
    split_ifs at hvisit
    exact (Option.some.inj hvisit).symm) hfound
  refine ⟨?_, ?_⟩
  · intro path content hholds hshut
    obtain ⟨hmem, hleaf⟩ := FileTree.holds_iff.mp hholds
    have hvisit := hopen _ hmem
    dsimp only at hvisit
    rw [visit_eq (text_of_mem htexts hmem)] at hvisit
    split_ifs at hvisit with hno
    rw [Bool.eq_false_iff]
    exact fun hdenied ↦ hno ⟨hshut, hdenied, rfl⟩
  · intro relative digest
    cases hnow
    rw [get_overwrite_empty, mem_noted]
    intro w hw w' hw' hkey
    obtain ⟨path, leaf, hholds, -, rfl⟩ := mem_noted.mp hw
    obtain ⟨path', leaf', hholds', -, rfl⟩ := mem_noted.mp hw'
    cases path_of_key htexts hholds hholds' hkey
    cases hholds.symm.trans hholds'
    rfl

theorem currentTree_of_legible (htexts : tree.Texts)
    (h : ∀ path content, tree.holds path = some (.file content) → tree.denied path = false) :
    ∃ now, currentTree host astray tree = some now := by
  refine ⟨_, Option.bind_eq_some_iff.mpr
    ⟨_, mapM_of_forall (g := fun e ↦ (noted host tree e).toList) fun ⟨path, leaf⟩ hmem ↦ ?_, rfl⟩⟩
  dsimp only
  rw [visit_eq (text_of_mem htexts hmem), if_neg]
  intro hrefused
  cases leaf with
  | file content =>
    have hread := h path content (FileTree.holds_iff.mpr ⟨hmem, nofun⟩)
    exact Bool.eq_false_iff.mp hread hrefused.2.1
  | link | special => cases hrefused.2.2

theorem copies_texts (copies : ShadowTree) : copies.Texts :=
  fun _ _ hholds ↦ copies.texts _ (FileTree.holds_iff.mp hholds).1

theorem mem_copied {entry : String × Option String} : entry ∈ copied host key copies ↔
    ∃ path leaf, copies.holds path = some leaf ∧ entry = (key path, some (leaf.digest host)) := by
  unfold copied
  rw [List.mem_append, List.mem_filterMap, List.mem_filterMap]
  constructor
  · rintro (⟨⟨path, leaf⟩, hmem, hentry⟩ | ⟨⟨path, leaf⟩, hmem, hentry⟩)
    · cases leaf with
      | file content => exact ⟨path, .file content, FileTree.holds_iff.mpr ⟨hmem, nofun⟩, (Option.some.inj hentry).symm⟩
      | link | special => cases hentry
    · cases leaf with
      | file => cases hentry
      | link target => exact ⟨path, .link target, FileTree.holds_iff.mpr ⟨hmem, nofun⟩, (Option.some.inj hentry).symm⟩
      | special => cases hentry
  · rintro ⟨path, leaf, hholds, rfl⟩
    obtain ⟨hmem, hleaf⟩ := FileTree.holds_iff.mp hholds
    cases leaf with
    | file => exact .inl ⟨_, hmem, rfl⟩
    | link => exact .inr ⟨_, hmem, rfl⟩
    | special => exact absurd rfl hleaf

theorem get_baseline {relative : String} {digest : Option String} :
    (overwrite .empty (copied host key copies)).get relative = some digest ↔
      ∃ path leaf, copies.holds path = some leaf ∧ (relative, digest) = (key path, some (leaf.digest host)) := by
  rw [get_overwrite_empty, mem_copied]
  intro w hw w' hw' hkey
  obtain ⟨path, leaf, hholds, rfl⟩ := mem_copied.mp hw
  obtain ⟨path', leaf', hholds', rfl⟩ := mem_copied.mp hw'
  cases path_of_key (copies_texts copies) hholds hholds' hkey
  cases hholds.symm.trans hholds'
  rfl

namespace Rust

theorem relative_eq_key (h : ∀ name ∈ path, IsText name) : relative path = key path := by
  rw [relative, ← utf8_key h, key, utf8_ofList, decode_encode]

theorem visit_eq_js (htext : leaf ≠ .special → ∀ name ∈ path, IsText name) :
    visit host tree path leaf = WholeWorkspace.visit host astray tree path leaf := by
  cases leaf with
  | special => rfl
  | file | link =>
    have hno : ¬∃ name ∈ path, ¬IsText name := by simpa using htext nofun
    rw [visit, WholeWorkspace.visit, if_neg hno, relative_eq_key (htext nofun)]

theorem currentTree_eq_js (htexts : tree.Texts) :
    currentTree host tree = WholeWorkspace.currentTree host astray tree := by
  have h : tree.entries.entries.mapM (fun (path, leaf) ↦ visit host tree path leaf) =
      tree.entries.entries.mapM fun (path, leaf) ↦ WholeWorkspace.visit host astray tree path leaf :=
    mapM_congr fun ⟨path, leaf⟩ hmem ↦ visit_eq_js (text_of_mem htexts hmem)
  rw [currentTree, WholeWorkspace.currentTree, h]

theorem copied_eq_js : copied host relative copies = copied host key copies := by
  unfold copied
  congr 1
  all_goals
    apply List.filterMap_congr
    rintro ⟨path, leaf⟩ hmem
    dsimp only
    rw [relative_eq_key (copies.texts _ hmem)]

end Rust

end Walks

section Exactness

variable {host} {astray : List Bytes → Option (List (String × String))} {tree : FileTree} {copies : ShadowTree}
  {later : FileTree} {path : List Bytes} {leaf : Leaf} {now : InsertionMap String String}

theorem FileTree.holds_named (h : tree.holds path = some leaf) : path ≠ [] ∧ ∀ name ∈ path, slash ∉ name := by
  have hmem := (FileTree.holds_iff.mp h).1
  exact ⟨tree.rooted _ hmem, fun name hname ↦ (tree.named _ hmem name hname).2⟩

variable {before after : Option Leaf} {change : Change}

theorem Differs.somewhere (h : Differs before after change) :
    (∃ leaf, before = some leaf) ∨ ∃ leaf, after = some leaf := by
  cases h with
  | created leaf => exact .inr ⟨leaf, rfl⟩
  | deleted leaf => exact .inl ⟨leaf, rfl⟩
  | modified => exact .inl ⟨_, rfl⟩

theorem differs_of_ne (h : before ≠ after) : ∃ change, Differs before after change := by
  cases before with
  | none =>
    cases after with
    | none => exact absurd rfl h
    | some after => exact ⟨_, .created after⟩
  | some before =>
    cases after with
    | none => exact ⟨_, .deleted before⟩
    | some => exact ⟨_, .modified fun he ↦ h (congrArg some he)⟩

theorem compared_iff (h : ∀ x y, before = some x → after = some y → x.digest host = y.digest host → x = y) :
    compared (before.map (Leaf.digest host)) (after.map (Leaf.digest host)) = some change ↔
      Differs before after change := by
  constructor
  · intro hcompared
    cases before with
    | none =>
      cases after with
      | none => cases hcompared
      | some after =>
        cases hcompared
        exact .created after
    | some before =>
      cases after with
      | none =>
        cases hcompared
        exact .deleted before
      | some =>
        simp only [Option.map_some, compared] at hcompared
        split_ifs at hcompared with hne
        cases hcompared
        exact .modified fun he ↦ hne (congrArg (Leaf.digest host) he)
  · intro hdiffers
    cases hdiffers with
    | created | deleted => rfl
    | modified hne =>
      simp only [Option.map_some, compared]
      rw [if_pos fun he ↦ hne (h _ _ rfl rfl he)]

theorem baseline_at (hp : path ≠ []) (hnames : ∀ name ∈ path, slash ∉ name) (htext : ∀ name ∈ path, IsText name) :
    ((overwrite .empty (copied host key copies)).get (key path)).join = (copies.holds path).map (Leaf.digest host) := by
  cases hholds : copies.holds path with
  | some leaf =>
    rw [get_baseline.mpr ⟨path, leaf, hholds, rfl⟩]
    rfl
  | none =>
    cases hget : (overwrite .empty (copied host key copies)).get (key path) with
    | none => rfl
    | some =>
      obtain ⟨path', leaf, hholds', hentry⟩ := get_baseline.mp hget
      obtain ⟨hp', hnames'⟩ := FileTree.holds_named hholds'
      cases key_inj hp hp' hnames hnames' htext (copies_texts copies _ _ hholds') (Prod.mk.inj hentry).1
      cases hholds.symm.trans hholds'

theorem now_at (htexts : later.Texts) (hwalk : currentTree host astray later = some now) (hp : path ≠ [])
    (hnames : ∀ name ∈ path, slash ∉ name) (htext : ∀ name ∈ path, IsText name) :
    now.get (key path) = if later.shut path then none else (later.holds path).map (Leaf.digest host) := by
  have hnow := (currentTree_some htexts hwalk).2
  apply Option.ext
  intro digest
  rw [hnow]
  constructor
  · rintro ⟨path', leaf, hholds, hshut, hentry⟩
    obtain ⟨hp', hnames'⟩ := FileTree.holds_named hholds
    obtain ⟨hkey, rfl⟩ := Prod.mk.inj hentry
    cases key_inj hp hp' hnames hnames' htext (htexts _ _ hholds) hkey
    rw [hshut, hholds]
    rfl
  · intro hget
    split_ifs at hget with hshut
    obtain ⟨leaf, hholds, rfl⟩ := Option.map_eq_some_iff.mp hget
    exact ⟨path, leaf, hholds, by simpa using hshut, rfl⟩

theorem key_utf8 (s : String) : key [utf8 s] = s := by
  have h : utf8 s = encode s.toList := by rw [← utf8_ofList, String.ofList_toList]
  rw [key, List.map_singleton, PosixPath.joinChars, h, decode_encode, String.ofList_toList]

theorem differs_named (h : Differs (copies.holds path) (later.holds path) change) :
    path ≠ [] ∧ ∀ name ∈ path, slash ∉ name := by
  rcases h.somewhere with ⟨leaf, hholds⟩ | ⟨leaf, hholds⟩
  · exact FileTree.holds_named hholds
  · exact FileTree.holds_named hholds

theorem differs_text (htexts : later.Texts) (h : Differs (copies.holds path) (later.holds path) change) :
    ∀ name ∈ path, IsText name := by
  rcases h.somewhere with ⟨leaf, hholds⟩ | ⟨leaf, hholds⟩
  · exact copies_texts copies path leaf hholds
  · exact htexts path leaf hholds

def verdict (host : Host) (copies : ShadowTree) (now : InsertionMap String String) (relative : String) : Option Change :=
  compared ((overwrite .empty (copied host key copies)).get relative).join (now.get relative)

theorem observed_by_verdict (htexts : later.Texts) (hwalk : currentTree host astray later = some now)
    (tests : List TestOutcome) : ∃ js rust, observe host astray copies later tests = some js ∧
      Rust.observe host copies later tests = some rust ∧
      (∀ relative, InsertionMap.lookup relative js.changed =
        if relative = "__proto__" then none else verdict host copies now relative) ∧
      ∀ relative, InsertionMap.lookup relative rust.changed = verdict host copies now relative := by
  let noted := changes (overwrite .empty (copied host key copies)) now
  refine ⟨⟨(noted.foldl assign .empty).entries, tests⟩, ⟨(overwrite .empty noted).entries, tests⟩, ?_, ?_,
    fun relative ↦ get_assigned, fun relative ↦ get_overwrite_changes⟩
  · rw [observe, hwalk]
    rfl
  · rw [Rust.observe, @Rust.currentTree_eq_js host astray later htexts, hwalk, Rust.copied_eq_js]
    rfl

theorem observe_forgets {tests : List TestOutcome} {observation : Observation}
    (h : observe host astray copies later tests = some observation) :
    InsertionMap.lookup "__proto__" observation.changed = none := by
  obtain ⟨now, -, h⟩ := Option.bind_eq_some_iff.mp h
  cases h
  exact get_assigned.trans (if_pos rfl)

theorem verdict_at (htexts : later.Texts) (hwalk : currentTree host astray later = some now) (hp : path ≠ [])
    (hnames : ∀ name ∈ path, slash ∉ name) (htext : ∀ name ∈ path, IsText name) :
    verdict host copies now (key path) = compared ((copies.holds path).map (Leaf.digest host))
      (if later.shut path then none else (later.holds path).map (Leaf.digest host)) := by
  rw [verdict, now_at htexts hwalk hp hnames htext, baseline_at hp hnames htext]

theorem verdict_key (htexts : later.Texts) (hwalk : currentTree host astray later = some now) {relative : String}
    (h : verdict host copies now relative = some change) :
    ∃ path, relative = key path ∧ path ≠ [] ∧ (∀ name ∈ path, slash ∉ name) ∧ ∀ name ∈ path, IsText name := by
  cases hbefore : (overwrite .empty (copied host key copies)).get relative with
  | some =>
    obtain ⟨path, leaf, hholds, hentry⟩ := get_baseline.mp hbefore
    obtain ⟨hp, hnames⟩ := FileTree.holds_named hholds
    exact ⟨path, (Prod.mk.inj hentry).1, hp, hnames, copies_texts copies _ _ hholds⟩
  | none =>
    cases hafter : now.get relative with
    | none =>
      rw [verdict, hbefore, hafter] at h
      cases h
    | some digest =>
      obtain ⟨path, leaf, hholds, -, hentry⟩ := ((currentTree_some htexts hwalk).2 relative digest).mp hafter
      obtain ⟨hp, hnames⟩ := FileTree.holds_named hholds
      exact ⟨path, (Prod.mk.inj hentry).1, hp, hnames, htexts _ _ hholds⟩

theorem Exact.texts {changed : List (String × Change)} (h : Exact copies later changed) : later.Texts := by
  intro path leaf hholds
  cases hbefore : copies.holds path with
  | some before => exact copies_texts copies path before hbefore
  | none =>
    have hcreated : Differs (copies.holds path) (later.holds path) .created := by
      rw [hbefore, hholds]
      exact .created leaf
    obtain ⟨relative, hrelative, -⟩ := h.complete path .created hcreated
    obtain ⟨hp, hnames⟩ := FileTree.holds_named hholds
    exact (text_of_spell hp hnames hrelative).1

section Forward

variable {changed : List (String × Change)} (hexact : Exact copies later changed)
  (hwalk : currentTree host astray later = some now)
  (hverdict : ∀ relative, InsertionMap.lookup relative changed = verdict host copies now relative)

include hexact hverdict

theorem Exact.verdict_of_differs {change : Change} (h : Differs (copies.holds path) (later.holds path) change) :
    verdict host copies now (key path) = some change := by
  obtain ⟨relative, hrelative, hfound⟩ := hexact.complete path change h
  obtain ⟨hp, hnames⟩ := differs_named h
  obtain ⟨-, rfl⟩ := text_of_spell hp hnames hrelative
  rw [← hverdict]
  exact hfound

theorem Exact.differs_of_verdict {change : Change} (hp : path ≠ []) (hnames : ∀ name ∈ path, slash ∉ name)
    (htext : ∀ name ∈ path, IsText name) (h : verdict host copies now (key path) = some change) :
    Differs (copies.holds path) (later.holds path) change := by
  obtain ⟨path', hspell, hdiffers⟩ := hexact.sound (key path) change ((hverdict (key path)).trans h)
  obtain ⟨hp', hnames'⟩ := differs_named hdiffers
  cases spell_inj hp' hp hnames' hnames (hspell.trans (utf8_key htext))
  exact hdiffers

include hwalk

theorem Exact.shut {leaf : Leaf} (hholds : later.holds path = some leaf) : later.shut path = false := by
  obtain ⟨hp, hnames⟩ := FileTree.holds_named hholds
  have htext := hexact.texts path leaf hholds
  have hat := @verdict_at host astray copies later path now hexact.texts hwalk hp hnames htext
  rw [Bool.eq_false_iff]
  intro hshut
  rw [if_pos hshut] at hat
  cases hbefore : copies.holds path with
  | none =>
    have hcreated : Differs (copies.holds path) (later.holds path) .created := by
      rw [hbefore, hholds]
      exact .created leaf
    have hfound := hexact.verdict_of_differs hverdict hcreated
    rw [hat, hbefore] at hfound
    cases hfound
  | some =>
    have hdeleted : verdict host copies now (key path) = some .deleted := by
      rw [hat, hbefore]
      rfl
    have hdiffers := hexact.differs_of_verdict hverdict hp hnames htext hdeleted
    rw [hbefore, hholds] at hdiffers
    cases hdiffers

theorem Exact.digested {before after : Leaf} (hbefore : copies.holds path = some before)
    (hafter : later.holds path = some after) (hdigested : before.digested = after.digested) : before = after := by
  by_contra hne
  obtain ⟨hp, hnames⟩ := FileTree.holds_named hafter
  have htext := hexact.texts path after hafter
  have hmodified : Differs (copies.holds path) (later.holds path) .modified := by
    rw [hbefore, hafter]
    exact .modified hne
  have hfound := hexact.verdict_of_differs hverdict hmodified
  have hdigest : before.digest host = after.digest host := by rw [Leaf.digest, hdigested, Leaf.digest]
  rw [verdict_at hexact.texts hwalk hp hnames htext, hexact.shut hwalk hverdict hafter, hbefore, hafter,
    Option.map_some, Option.map_some, hdigest] at hfound
  simp [compared] at hfound

end Forward

theorem verdict_iff (hwalk : currentTree host astray later = some now)
    (hlegible : ∀ path leaf, later.holds path = some leaf → (∀ name ∈ path, IsText name) ∧ later.Legible path leaf)
    (hdigests : ∀ x y, copies.holds path = some x → later.holds path = some y → x.digest host = y.digest host → x = y)
    (hp : path ≠ []) (hnames : ∀ name ∈ path, slash ∉ name) (htext : ∀ name ∈ path, IsText name) :
    verdict host copies now (key path) = some change ↔ Differs (copies.holds path) (later.holds path) change := by
  have hafter : (if later.shut path then none else (later.holds path).map (Leaf.digest host)) =
      (later.holds path).map (Leaf.digest host) := by
    cases hholds : later.holds path with
    | none => exact ite_self _
    | some leaf =>
      rw [(hlegible path leaf hholds).2.1]
      rfl
  rw [verdict_at (fun path leaf hholds ↦ (hlegible path leaf hholds).1) hwalk hp hnames htext, hafter]
  exact compared_iff hdigests

/-- The observation is the exact difference, on both sides, just when all paths of the later tree
are texts and can be read, the entry `__proto__` of the root is as it was, and nothing was replaced
by what is digested by the same bytes. -/
theorem observed_exactly_iff (host : Host) (astray : List Bytes → Option (List (String × String)))
    (copies : ShadowTree) (later : FileTree) (tests : List TestOutcome) (hsha : TellsApart host copies later) :
    (∃ js rust, observe host astray copies later tests = some js ∧ Rust.observe host copies later tests = some rust ∧
      Exact copies later js.changed ∧
      ∀ relative, InsertionMap.lookup relative js.changed = InsertionMap.lookup relative rust.changed) ↔
    (∀ path leaf, later.holds path = some leaf → (∀ name ∈ path, IsText name) ∧ later.Legible path leaf) ∧
    copies.holds [utf8 "__proto__"] = later.holds [utf8 "__proto__"] ∧
    ∀ path before after, copies.holds path = some before → later.holds path = some after →
      before.digested = after.digested → before = after := by
  constructor
  · rintro ⟨js, rust, hjs, hrust, hexact, hsame⟩
    have htexts := hexact.texts
    obtain ⟨now, hwalk, -⟩ := Option.bind_eq_some_iff.mp hjs
    obtain ⟨js', rust', hjs', hrust', hlookup, hlookup'⟩ :=
      @observed_by_verdict host astray copies later now htexts hwalk tests
    cases hjs.symm.trans hjs'
    cases hrust.symm.trans hrust'
    have hverdict : ∀ relative, InsertionMap.lookup relative js.changed = verdict host copies now relative :=
      fun relative ↦ (hsame relative).trans (hlookup' relative)
    refine ⟨?_, ?_, fun path before after ↦ hexact.digested hwalk hverdict⟩
    · intro path leaf hholds
      have hshut := hexact.shut hwalk hverdict hholds
      refine ⟨htexts path leaf hholds, hshut, ?_⟩
      rintro content rfl
      exact (currentTree_some htexts hwalk).1 path content hholds hshut
    · by_contra hne
      obtain ⟨change, hdiffers⟩ := differs_of_ne hne
      have hfound := hexact.verdict_of_differs hverdict hdiffers
      rw [key_utf8, ← hverdict, hlookup, if_pos rfl] at hfound
      cases hfound
  · rintro ⟨hlegible, hproto, hdigested⟩
    have htexts : later.Texts := fun path leaf hholds ↦ (hlegible path leaf hholds).1
    obtain ⟨now, hwalk⟩ := @currentTree_of_legible host astray later htexts
      fun path content hholds ↦ (hlegible path _ hholds).2.2 content rfl
    obtain ⟨js, rust, hjs, hrust, hlookup, hlookup'⟩ := @observed_by_verdict host astray copies later now htexts hwalk tests
    have hdigests : ∀ path x y, copies.holds path = some x → later.holds path = some y →
        x.digest host = y.digest host → x = y := by
      intro path x y hx hy hdigest
      exact hdigested path x y hx hy (hsha path x y hx hy (Vector.toList_inj.mp (hex_injective hdigest)))
    have hforgotten : verdict host copies now "__proto__" = none := by
      have hname : ∀ name ∈ [utf8 "__proto__"], slash ∉ name ∧ IsText name := by decide
      rw [Option.eq_none_iff_forall_ne_some]
      intro change hfound
      rw [← key_utf8 "__proto__", verdict_iff hwalk hlegible (hdigests _) (by simp) (fun n hn ↦ (hname n hn).1)
        (fun n hn ↦ (hname n hn).2), hproto] at hfound
      cases hafter : later.holds [utf8 "__proto__"] with
      | none =>
        rw [hafter] at hfound
        cases hfound
      | some =>
        rw [hafter] at hfound
        cases hfound with
        | modified hne => exact hne rfl
    have hverdict : ∀ relative, InsertionMap.lookup relative js.changed = verdict host copies now relative := by
      intro relative
      rw [hlookup]
      split_ifs with hrelative
      · rw [hrelative, hforgotten]
      · rfl
    refine ⟨js, rust, hjs, hrust, ⟨?_, ?_⟩, fun relative ↦ (hverdict relative).trans (hlookup' relative).symm⟩
    · intro path change hdiffers
      obtain ⟨hp, hnames⟩ := differs_named hdiffers
      have htext := differs_text htexts hdiffers
      refine ⟨key path, utf8_key htext, ?_⟩
      rw [hverdict]
      exact (verdict_iff hwalk hlegible (hdigests path) hp hnames htext).mpr hdiffers
    · intro relative change hfound
      rw [hverdict] at hfound
      obtain ⟨path, rfl, hp, hnames, htext⟩ := verdict_key htexts hwalk hfound
      exact ⟨path, (utf8_key htext).symm, (verdict_iff hwalk hlegible (hdigests path) hp hnames htext).mp hfound⟩

def flat (files : InsertionMap String Bytes) (h : ∀ e ∈ files.entries, e.1 ≠ "" ∧ slash ∉ utf8 e.1) : ShadowTree where
  entries := ⟨files.entries.map fun e ↦ ([utf8 e.1], .file e.2), by
    rw [List.map_map]
    have hmap : files.entries.map (Prod.fst ∘ fun e ↦ ([utf8 e.1], Leaf.file e.2)) =
        (files.entries.map Prod.fst).map fun name ↦ [utf8 name] := by
      rw [List.map_map]
      rfl
    rw [hmap]
    exact files.nodup.map fun a b he ↦ utf8_injective (List.singleton_inj.mp he)⟩
  rooted := by
    intro e he
    obtain ⟨f, -, rfl⟩ := List.mem_map.mp he
    exact List.cons_ne_nil _ _
  named := by
    intro e he name hname
    obtain ⟨f, hf, rfl⟩ := List.mem_map.mp he
    cases List.mem_singleton.mp hname
    exact ⟨fun hempty ↦ (h f hf).1 (utf8_injective hempty), (h f hf).2⟩
  apart := by
    intro e he f hf hprefix
    obtain ⟨e', -, rfl⟩ := List.mem_map.mp he
    obtain ⟨f', -, rfl⟩ := List.mem_map.mp hf
    exact hprefix.eq_of_length rfl
  denied _ := false
  texts := by
    intro e he name hname
    obtain ⟨f, -, rfl⟩ := List.mem_map.mp he
    cases List.mem_singleton.mp hname
    have hutf8 : utf8 f.1 = encode f.1.toList := by rw [← utf8_ofList, String.ofList_toList]
    rw [hutf8]
    exact isText_encode _

theorem flat_holds {files : InsertionMap String Bytes} {h : ∀ e ∈ files.entries, e.1 ≠ "" ∧ slash ∉ utf8 e.1}
    {path : List Bytes} {leaf : Leaf} : (flat files h).holds path = some leaf ↔
      ∃ name content, (name, content) ∈ files.entries ∧ path = [utf8 name] ∧ leaf = .file content := by
  rw [FileTree.holds_iff]
  constructor
  · rintro ⟨hmem, -⟩
    obtain ⟨⟨name, content⟩, hfile, he⟩ := List.mem_map.mp hmem
    obtain ⟨rfl, rfl⟩ := Prod.mk.inj he
    exact ⟨name, content, hfile, rfl, rfl⟩
  · rintro ⟨name, content, hfile, rfl, rfl⟩
    exact ⟨List.mem_map.mpr ⟨(name, content), hfile, rfl⟩, nofun⟩

def oneFile : ShadowTree := flat ⟨[("notes", [1])], by simp⟩ (by decide)

theorem oneFile_holds : oneFile.holds [utf8 "__proto__"] = none := by
  rw [Option.eq_none_iff_forall_ne_some]
  intro leaf hholds
  obtain ⟨name, content, hfile, hpath, -⟩ := flat_holds.mp hholds
  cases List.mem_singleton.mp hfile
  have hname := utf8_injective (List.singleton_inj.mp hpath)
  simp at hname

def withFile (name : String) (hnew : name ≠ "notes") (h : name ≠ "" ∧ slash ∉ utf8 name) : ShadowTree :=
  flat ⟨[("notes", [1]), (name, [2])], by simpa using Ne.symm hnew⟩ (by
    intro e he
    rcases List.mem_cons.mp he with rfl | he
    · decide
    · cases List.mem_singleton.mp he
      exact h)

theorem observed_exactly_iff_added : ∃ js rust,
    observe Host.sample (fun _ ↦ none) oneFile (withFile "todo" (by decide) (by decide)).toFileTree [] = some js ∧
      Rust.observe Host.sample oneFile (withFile "todo" (by decide) (by decide)).toFileTree [] = some rust ∧
      Exact oneFile (withFile "todo" (by decide) (by decide)).toFileTree js.changed ∧
      ∀ relative, InsertionMap.lookup relative js.changed = InsertionMap.lookup relative rust.changed := by
  have hcontent : ∀ path before after, oneFile.holds path = some before →
      (withFile "todo" (by decide) (by decide)).holds path = some after → before = after := by
    intro path before after hbefore hafter
    obtain ⟨name, content, hfile, rfl, rfl⟩ := flat_holds.mp hbefore
    obtain ⟨name', content', hfile', hpath, rfl⟩ := flat_holds.mp hafter
    cases List.mem_singleton.mp hfile
    have hname := utf8_injective (List.singleton_inj.mp hpath)
    rcases List.mem_cons.mp hfile' with he | he
    · cases he
      rfl
    · cases List.mem_singleton.mp he
      simp at hname
  refine (observed_exactly_iff Host.sample (fun _ ↦ none) oneFile _ [] ?_).mpr ⟨?_, ?_, ?_⟩
  · intro path before after hbefore hafter _
    rw [hcontent path before after hbefore hafter]
  · intro path leaf hholds
    refine ⟨copies_texts _ path leaf hholds, ?_, fun _ _ ↦ rfl⟩
    exact List.any_eq_false.mpr fun _ _ ↦ Bool.false_ne_true
  · have hafter : (withFile "todo" (by decide) (by decide)).holds [utf8 "__proto__"] = none := by
      rw [Option.eq_none_iff_forall_ne_some]
      intro leaf hholds
      obtain ⟨name, content, hfile, hpath, -⟩ := flat_holds.mp hholds
      cases utf8_injective (List.singleton_inj.mp hpath)
      simp at hfile
    exact oneFile_holds.trans hafter.symm
  · intro path before after hbefore hafter _
    exact hcontent path before after hbefore hafter

/-- A new file of the name `__proto__` is not reported. -/
theorem created_file_unreported : ¬∃ js rust,
    observe Host.sample (fun _ ↦ none) oneFile (withFile "__proto__" (by decide) (by decide)).toFileTree [] = some js ∧
      Rust.observe Host.sample oneFile (withFile "__proto__" (by decide) (by decide)).toFileTree [] = some rust ∧
      Exact oneFile (withFile "__proto__" (by decide) (by decide)).toFileTree js.changed ∧
      ∀ relative, InsertionMap.lookup relative js.changed = InsertionMap.lookup relative rust.changed := by
  rintro ⟨js, rust, hjs, -, hexact, -⟩
  have hafter : (withFile "__proto__" (by decide) (by decide)).holds [utf8 "__proto__"] = some (.file [2]) :=
    flat_holds.mpr ⟨"__proto__", [2], by simp, rfl, rfl⟩
  obtain ⟨relative, hrelative, hfound⟩ := hexact.complete [utf8 "__proto__"] .created (by
    rw [oneFile_holds, hafter]
    exact .created _)
  cases utf8_injective hrelative
  rw [observe_forgets hjs] at hfound
  cases hfound

end Exactness

end Noesar.Shadow.WholeWorkspace
