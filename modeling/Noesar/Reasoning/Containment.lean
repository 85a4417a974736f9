import Noesar.Reasoning.Plans

namespace Noesar.Reasoning

open Lib Lib.PosixPath

abbrev Directory := {names : List String // ∀ name ∈ names, Plain name}

/-- `resolve(base, path)` -/
def resolveFrom (base : List String) (path : String) : List String :=
  if isAbsolute path then normalizeSegments false (segments path) else resolve base path

def Within (cwd : Directory) (workspaceRoot path : String) : Prop :=
  resolveFrom cwd.1 workspaceRoot <+: resolveFrom (resolveFrom cwd.1 workspaceRoot) path

/-- What is claimed of one list of paths, and of both programs. -/
structure SoundRadius (cwd : Directory) (workspaceRoot : String) (files : List String) (destructive : Bool) : Prop where
  within : (blastRadius (L := Empty) workspaceRoot files destructive).reachesOutsideWorkspace = false →
    ∀ path ∈ files, Within cwd workspaceRoot path
  agree : Rust.blastRadius workspaceRoot files destructive = blastRadius workspaceRoot files destructive

def Flagged (workspaceRoot path : String) : Prop :=
  ['.', '.'] <:+: path.toList ∨
    (path.toList.head? = some '/' ∨ [':', '\\'] <:+: path.toList) ∧ ¬workspaceRoot.toList <+: path.toList

def AtComponent (cwd : Directory) (workspaceRoot path : String) : Prop :=
  if workspaceRoot = "" then cwd.1 <+: resolveFrom [] path
  else
    let rest := path.toList.drop workspaceRoot.toList.length
    rest = [] ∨ rest.head? = some '/' ∨ workspaceRoot.toList.getLast? = some '/' ∨ ['/', '.'] <:+ workspaceRoot.toList

theorem insideWorkspace_false_iff {workspaceRoot path : String} :
    insideWorkspace workspaceRoot path = false ↔ Flagged workspaceRoot path := by
  unfold insideWorkspace Flagged
  split_ifs with hclimbs habsolute
  · simp [hclimbs]
  · simp [hclimbs, habsolute]
  · simp [hclimbs, habsolute]

theorem reaches_false_iff {workspaceRoot : String} {files : List String} {destructive : Bool} :
    (blastRadius (L := Empty) workspaceRoot files destructive).reachesOutsideWorkspace = false ↔
      ∀ path ∈ files, ¬Flagged workspaceRoot path := by
  simp [blastRadius, ← insideWorkspace_false_iff]

section Segments

theorem splitChars_within (sep : Char → Bool) (cs : List Char) :
    (∀ w ∈ splitChars sep cs, w <:+: cs) ∧ ∀ w ∈ (splitChars sep cs).head?, w <+: cs := by
  induction cs with
  | nil => simp [splitChars]
  | cons c cs ih =>
    unfold splitChars
    split_ifs
    · refine ⟨?_, by simp⟩
      intro w hw
      rcases List.mem_cons.mp hw with rfl | hw
      · exact List.nil_infix
      · exact (ih.1 w hw).trans (List.suffix_cons c cs).isInfix
    · cases hsplit : splitChars sep cs with
      | nil =>
        refine ⟨?_, ?_⟩
        · intro w hw
          cases List.mem_singleton.mp hw
          exact (List.prefix_append [c] cs).isInfix
        · intro w hw
          cases hw
          exact List.prefix_append [c] cs
      | cons v =>
        rw [hsplit] at ih
        have hhead : c :: v <+: c :: cs := List.cons_prefix_cons.mpr ⟨rfl, ih.2 v rfl⟩
        refine ⟨?_, ?_⟩
        · intro w hw
          rcases List.mem_cons.mp hw with rfl | hw
          · exact hhead.isInfix
          · exact (ih.1 w (List.mem_cons_of_mem _ hw)).trans (List.suffix_cons c cs).isInfix
        · intro w hw
          cases hw
          exact hhead

theorem dots_not_mem_segments {path : String} (h : ¬['.', '.'] <:+: path.toList) : ".." ∉ segments path := by
  intro hmem
  obtain ⟨w, hw, hspell⟩ := List.mem_map.mp hmem
  have hdots : w = ['.', '.'] := by rw [← String.toList_ofList (l := w), hspell]; rfl
  exact h (hdots ▸ (splitChars_within _ _).1 w hw)

def named (seg : String) : Bool := seg ≠ "" ∧ seg ≠ "."

theorem normalizeSegments_eq {above : Bool} {segs : List String} (h : ".." ∉ segs) :
    normalizeSegments above segs = segs.filter named := by
  have hgeneral (stack : List String) : segs.foldl (push above) stack = (segs.filter named).reverse ++ stack := by
    induction segs generalizing stack with
    | nil => rfl
    | cons seg segs ih =>
      obtain ⟨hseg, hrest⟩ := not_or.mp (List.mem_cons.not.mp h)
      rw [List.foldl_cons, ih hrest]
      by_cases hnamed : named seg = true
      · have hplain : Plain seg := by
          have hboth : seg ≠ "" ∧ seg ≠ "." := by simpa [named] using hnamed
          exact ⟨hboth.1, hboth.2, Ne.symm hseg⟩
        rw [List.filter_cons_of_pos hnamed, push_plain hplain, List.reverse_cons, List.append_assoc]
        rfl
      · have hnothing : seg = "" ∨ seg = "." := by
          by_contra hboth
          exact hnamed (by simpa [named, not_or] using hboth)
        have hpush : push above stack seg = stack := if_pos hnothing
        rw [List.filter_cons_of_neg hnamed, hpush]
  rw [normalizeSegments, hgeneral, List.append_nil, List.reverse_reverse]

theorem splitChars_last (cs : List Char) : ∃ before last names, cs = before ++ last ∧ '/' ∉ last ∧
    (before = [] ∧ names = [] ∨ before.getLast? = some '/' ∧ names ≠ []) ∧
    ∀ ds first more, splitChars (· = '/') ds = first :: more →
      splitChars (· = '/') (cs ++ ds) = names ++ (last ++ first) :: more := by
  induction cs with
  | nil => exact ⟨[], [], [], rfl, List.not_mem_nil, .inl ⟨rfl, rfl⟩, fun ds first more h ↦ h⟩
  | cons c cs ih =>
    obtain ⟨before, last, names, rfl, hlast, hcases, hsplit⟩ := ih
    by_cases hc : c = '/'
    · subst hc
      refine ⟨'/' :: before, last, [] :: names, rfl, hlast, .inr ⟨?_, by simp⟩, ?_⟩
      · rcases hcases with ⟨rfl, -⟩ | ⟨hends, -⟩
        · rfl
        · rw [List.getLast?_cons, hends]
          rfl
      · intro ds first more h
        rw [List.cons_append, splitChars, if_pos (by decide), hsplit ds first more h]
        rfl
    · rcases hcases with ⟨rfl, rfl⟩ | ⟨hends, hnames⟩
      · refine ⟨[], c :: last, [], rfl, ?_, .inl ⟨rfl, rfl⟩, ?_⟩
        · simpa [Ne.symm hc] using hlast
        · intro ds first more h
          rw [List.cons_append, splitChars, if_neg (by simpa using hc), hsplit ds first more h]
          rfl
      · obtain ⟨name, names, rfl⟩ := List.exists_cons_of_ne_nil hnames
        refine ⟨c :: before, last, (c :: name) :: names, rfl, hlast, .inr ⟨?_, by simp⟩, ?_⟩
        · rw [List.getLast?_cons, hends]
          rfl
        · intro ds first more h
          rw [List.cons_append, splitChars, if_neg (by simpa using hc), hsplit ds first more h]
          rfl

end Segments

variable {cwd : Directory} {workspaceRoot path : String}

theorem resolve_plain {base : List String} (hbase : ∀ name ∈ base, Plain name) (h : ¬['.', '.'] <:+: path.toList) :
    resolve base path = base ++ (segments path).filter named := by
  have hdots := dots_not_mem_segments h
  have hbase' : ".." ∉ base := fun hmem ↦ (hbase _ hmem).2.2 rfl
  have hkept : base.filter named = base := by
    rw [List.filter_eq_self]
    intro name hname
    simpa [named] using ⟨(hbase name hname).1, (hbase name hname).2.1⟩
  rw [resolve, normalizeSegments_eq (by simp [hdots, hbase']), List.filter_append, hkept]

theorem within_relative (hroot : ∀ name ∈ resolveFrom cwd.1 workspaceRoot, Plain name)
    (hdots : ¬['.', '.'] <:+: path.toList) (hrelative : isAbsolute path = false) : Within cwd workspaceRoot path := by
  unfold Within
  rw [show resolveFrom (resolveFrom cwd.1 workspaceRoot) path = resolve (resolveFrom cwd.1 workspaceRoot) path by
    simp [resolveFrom, hrelative], resolve_plain hroot hdots]
  exact List.prefix_append _ _

theorem plain_resolveFrom : ∀ name ∈ resolveFrom cwd.1 workspaceRoot, Plain name := by
  unfold resolveFrom
  split_ifs
  · exact plain_normalizeSegments
  · exact plain_normalizeSegments

theorem resolveFrom_absolute {base : List String} (habsolute : isAbsolute path = true) (hdots : ¬['.', '.'] <:+: path.toList) :
    resolveFrom base path = (segments path).filter named := by
  rw [resolveFrom, if_pos habsolute, normalizeSegments_eq (dots_not_mem_segments hdots)]

theorem named_ofList {cs : List Char} : named (String.ofList cs) = true ↔ cs ≠ [] ∧ cs ≠ ['.'] := by
  have hempty : String.ofList cs = "" ↔ cs = [] :=
    ⟨fun h ↦ by simpa using congrArg String.toList h, fun h ↦ by rw [h]⟩
  have hdot : String.ofList cs = "." ↔ cs = ['.'] :=
    ⟨fun h ↦ by simpa using congrArg String.toList h, fun h ↦ by rw [h]⟩
  simp [named, hempty, hdot]

theorem filter_named_prefix_iff {names more : List (List Char)} {last first : List Char} :
    ((names ++ [last]).map String.ofList).filter named <+: ((names ++ (last ++ first) :: more).map String.ofList).filter named ↔
      first = [] ∨ last = [] ∨ last = ['.'] := by
  rw [List.map_append, List.map_append, List.filter_append, List.filter_append, List.prefix_append_right_inj, List.map_cons,
    List.map_cons, List.map_nil]
  by_cases hlast : last = [] ∨ last = ['.']
  · have hnone : named (String.ofList last) = false := by
      by_contra hnamed
      obtain ⟨hempty, hdot⟩ := named_ofList.mp (by simpa using hnamed)
      exact hlast.elim hempty hdot
    rw [List.filter_cons_of_neg (by simp [hnone])]
    exact iff_of_true List.nil_prefix (.inr hlast)
  · obtain ⟨hempty, hdot⟩ := not_or.mp hlast
    have hnamed : named (String.ofList last) = true := named_ofList.mpr ⟨hempty, hdot⟩
    have hlonger : named (String.ofList (last ++ first)) = true := by
      refine named_ofList.mpr ⟨fun h ↦ hempty (List.append_eq_nil_iff.mp h).1, ?_⟩
      intro h
      rcases List.append_eq_singleton_iff.mp h with ⟨h, -⟩ | ⟨h, -⟩
      · exact hempty h
      · exact hdot h
    rw [List.filter_cons_of_pos hnamed, List.filter_cons_of_pos hlonger, List.filter_nil, List.cons_prefix_cons]
    constructor
    · rintro ⟨hsame, -⟩
      have hchars := congrArg String.toList hsame
      rw [String.toList_ofList, String.toList_ofList] at hchars
      exact .inl (List.self_eq_append_right.mp hchars)
    · rintro (rfl | hnone)
      · exact ⟨by rw [List.append_nil], List.nil_prefix⟩
      · exact absurd hnone hlast

theorem atComponent_iff {before last rest : List Char} (hlast : '/' ∉ last)
    (hbefore : before = [] ∨ before.getLast? = some '/') (habsolute : (before ++ last).head? = some '/') :
    (rest = [] ∨ rest.head? = some '/' ∨ (before ++ last).getLast? = some '/' ∨ ['/', '.'] <:+ before ++ last) ↔
      (∃ first more, splitChars (· = '/') rest = first :: more ∧ first = []) ∨ last = [] ∨ last = ['.'] := by
  have hends : before.getLast? = some '/' := by
    rcases hbefore with rfl | hends
    · cases last with
      | nil => cases habsolute
      | cons =>
        cases habsolute
        exact absurd List.mem_cons_self hlast
    · exact hends
  have hrest : (rest = [] ∨ rest.head? = some '/') ↔ ∃ first more, splitChars (· = '/') rest = first :: more ∧ first = [] := by
    cases rest with
    | nil => simp [splitChars]
    | cons c rest =>
      by_cases hc : c = '/'
      · simp [splitChars, hc]
      · rw [splitChars, if_neg (by simpa using hc)]
        cases splitChars (· = '/') rest with
        | nil => simp [hc]
        | cons => simp [hc]
  have hempty : (before ++ last).getLast? = some '/' ↔ last = [] := by
    constructor
    · intro h
      by_contra hne
      rw [List.getLast?_append_of_ne_nil _ hne] at h
      exact hlast (List.mem_of_getLast? h)
    · rintro rfl
      rwa [List.append_nil]
  have hdot : ['/', '.'] <:+ before ++ last ↔ last = ['.'] := by
    obtain ⟨front, rfl⟩ := List.getLast?_eq_some_iff.mp hends
    constructor
    · rintro ⟨front', hsame⟩
      rcases List.eq_nil_or_concat last with rfl | ⟨init, c, rfl⟩
      · have hlast' := congrArg List.getLast? hsame
        simp at hlast'
      · have hsplit : (front' ++ ['/']) ++ ['.'] = ((front ++ ['/']) ++ init) ++ [c] := by simpa using hsame
        obtain ⟨hinit, hc⟩ := List.append_inj' hsplit rfl
        rcases List.eq_nil_or_concat init with rfl | ⟨init, d, rfl⟩
        · exact hc.symm
        · have hsplit' : front' ++ ['/'] = ((front ++ ['/']) ++ init) ++ [d] := by simpa using hinit
          obtain ⟨-, hd⟩ := List.append_inj' hsplit' rfl
          cases hd
          exact absurd (by simp) hlast
    · rintro rfl
      exact ⟨front, by simp⟩
  rw [← or_assoc, hrest, hempty, hdot]

theorem within_absolute_iff (habsolute : isAbsolute path = true) (hdots : ¬['.', '.'] <:+: path.toList)
    (hbegins : workspaceRoot.toList <+: path.toList) : Within cwd workspaceRoot path ↔ AtComponent cwd workspaceRoot path := by
  have hpath (base : List String) := @resolveFrom_absolute path base habsolute hdots
  by_cases hempty : workspaceRoot = ""
  · subst hempty
    have hroot : resolveFrom cwd.1 "" = cwd.1 := by
      have hnothing : resolve cwd.1 "" = cwd.1 ++ (segments "").filter named := resolve_plain cwd.2 (by decide)
      have hnone : (segments "").filter named = [] := by decide
      rw [hnone, List.append_nil] at hnothing
      exact hnothing
    rw [Within, AtComponent, if_pos rfl, hroot, hpath, hpath]
  obtain ⟨rest, hrest⟩ := hbegins
  obtain ⟨before, last, names, hroot, hlast, hbefore, hsplit⟩ := splitChars_last workspaceRoot.toList
  have hrootAbsolute : workspaceRoot.toList.head? = some '/' := by
    have hhead : path.toList.head? = some '/' := by simpa [isAbsolute] using habsolute
    cases hchars : workspaceRoot.toList with
    | nil => exact absurd (String.toList_inj.mp (hchars.trans rfl)) hempty
    | cons =>
      rw [← hrest, hchars] at hhead
      exact hhead
  have hrootDots : ¬['.', '.'] <:+: workspaceRoot.toList := by
    intro h
    exact hdots (h.trans (hrest ▸ (List.prefix_append _ _).isInfix))
  have hnames : splitChars (· = '/') workspaceRoot.toList = names ++ [last] := by
    have hnil := hsplit [] [] [] rfl
    rwa [List.append_nil, List.append_nil] at hnil
  obtain ⟨first, more, hfirst⟩ : ∃ first more, splitChars (· = '/') rest = first :: more := by
    cases hsplit' : splitChars (· = '/') rest with
    | nil =>
      cases rest with
      | nil => cases hsplit'
      | cons =>
        rw [splitChars] at hsplit'
        split_ifs at hsplit'
        split at hsplit' <;> cases hsplit'
    | cons first more => exact ⟨first, more, rfl⟩
  have hwithin : Within cwd workspaceRoot path ↔ first = [] ∨ last = [] ∨ last = ['.'] := by
    rw [Within, hpath, @resolveFrom_absolute workspaceRoot cwd.1 (by simp [isAbsolute, hrootAbsolute]) hrootDots, segments,
      segments, splitOn, splitOn, ← hrest, hsplit rest first more hfirst, hnames]
    exact filter_named_prefix_iff
  have hdrop : path.toList.drop workspaceRoot.toList.length = rest := by
    rw [← hrest, List.drop_left]
  rw [hwithin, AtComponent, if_neg hempty, hdrop]
  rw [hroot] at hrootAbsolute ⊢
  have hiff := @atComponent_iff before last rest hlast (hbefore.imp And.left And.left) hrootAbsolute
  rw [hiff]
  simp [hfirst]

/-- A blast radius is sound just when some path is flagged, or behind the root every absolute path has come to
the end of a component. -/
theorem blast_radius_sound_iff (cwd : Directory) (workspaceRoot : String) (files : List String) (destructive : Bool) :
    SoundRadius cwd workspaceRoot files destructive ↔ (∃ path ∈ files, Flagged workspaceRoot path) ∨
      ∀ path ∈ files, path.toList.head? = some '/' → AtComponent cwd workspaceRoot path := by
  by_cases hflagged : ∃ path ∈ files, Flagged workspaceRoot path
  · refine iff_of_true ⟨?_, rfl⟩ (.inl hflagged)
    intro hreaches
    obtain ⟨path, hpath, hflag⟩ := hflagged
    exact absurd hflag (reaches_false_iff.mp hreaches path hpath)
  · have hclean : ∀ path ∈ files, ¬Flagged workspaceRoot path := fun path hpath hflag ↦ hflagged ⟨path, hpath, hflag⟩
    have hwithin : ∀ path ∈ files, path.toList.head? = some '/' →
        (Within cwd workspaceRoot path ↔ AtComponent cwd workspaceRoot path) := by
      intro path hpath habsolute
      obtain ⟨hdots, hbegins⟩ := not_or.mp (hclean path hpath)
      apply within_absolute_iff (by simp [isAbsolute, habsolute]) hdots
      by_contra hnot
      exact hbegins ⟨.inl habsolute, hnot⟩
    rw [or_iff_right hflagged]
    constructor
    · intro h path hpath habsolute
      exact (hwithin path hpath habsolute).mp (h.within (reaches_false_iff.mpr hclean) path hpath)
    · intro h
      refine ⟨fun _ path hpath ↦ ?_, rfl⟩
      by_cases habsolute : path.toList.head? = some '/'
      · exact (hwithin path hpath habsolute).mpr (h path hpath habsolute)
      · exact within_relative plain_resolveFrom (not_or.mp (hclean path hpath)).1 (by simpa [isAbsolute] using habsolute)

/-- A sibling of the workspace whose name begins with its name. -/
theorem sibling_contained : ¬∀ (cwd : Directory) workspaceRoot files destructive,
    SoundRadius cwd workspaceRoot files destructive := by
  intro h
  have hwithin := (h ⟨[], by simp⟩ "/workspace" ["/workspace-old/x"] false).within (by decide) "/workspace-old/x" (by simp)
  revert hwithin
  unfold Within
  decide

end Noesar.Reasoning
