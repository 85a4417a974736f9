import Noesar.Audit.Ledger
import Noesar.Capability.Isolation
import Noesar.Lib.Causes

namespace Noesar.Audit

open Lib Lib.Framing Lib.Json Lib.Utf16 Lib.Causes
open InsertionMap (lookup lookup_of_mem lookup_put lookup_map)

variable {ν : Type}

/-- What the platform's JSON does with numbers: each is written as a numeral, and that is read as a number which is
written alike. -/
structure Host.Rereads (host : Host ν) : Prop where
  numeral : ∀ n, Numeric (host.write n)
  reread : ∀ n, ∃ m, host.read (host.write n) = some m ∧ host.write m = host.write n

section Members

variable {members target source : Members ν} {key : Units} {g : ν → ν}

theorem place_le (us : Units) : place us ≤ [2 ^ 32] := by
  have hle : (arrayIndex us).getD (2 ^ 32) ≤ 2 ^ 32 := by
    cases h : arrayIndex us with
    | none => exact le_rfl
    | some =>
      unfold arrayIndex at h
      split at h
      · have hlt := (Option.filter_eq_some_iff.mp h).2
        rw [decide_eq_true_iff] at hlt
        rw [Option.getD_some]
        omega
      · cases h
  rw [place]
  rcases hle.lt_or_eq with hlt | heq
  · exact le_of_lt ((List.lex_singleton_iff _ _).mpr hlt)
  · rw [heq]

theorem name_injective : Function.Injective name := by
  intro s t h
  exact String.toList_inj.mp (encode_injective h)

theorem lookup_perm {others : Members ν} (hn : (members.map Prod.fst).Nodup) (h : others.Perm members) :
    lookup key others = lookup key members := by
  have hn' : (others.map Prod.fst).Nodup := (h.map Prod.fst).nodup_iff.mpr hn
  cases hl : lookup key members with
  | none =>
    rw [lookup_eq_none] at hl ⊢
    intro hmem
    exact hl ((h.map Prod.fst).mem_iff.mp hmem)
  | some => exact lookup_of_mem hn' (h.mem_iff.mpr (mem_of_lookup hl))

def joined (target source : Members ν) : Members ν := source.foldl (fun members m ↦ InsertionMap.put m.1 m.2 members) target

theorem joined_nodup (h : (target.map Prod.fst).Nodup) : ((joined target source).map Prod.fst).Nodup := by
  induction source generalizing target with
  | nil => exact h
  | cons m source ih =>
    apply ih
    rw [InsertionMap.put_keys]
    split
    · exact h
    next hfresh =>
      rw [List.nodup_append]
      refine ⟨h, List.nodup_singleton _, ?_⟩
      rintro k hk j hj rfl
      exact hfresh (List.mem_singleton.mp hj ▸ hk)

theorem mem_joined {m : Units × Value ν} (h : m ∈ joined target source) : m ∈ target ∨ m ∈ source := by
  induction source generalizing target with
  | nil => exact .inl h
  | cons n source ih =>
    rcases ih h with h | h
    · rcases InsertionMap.mem_put h with h | h
      · exact .inl h
      · exact .inr (List.mem_cons.mpr (.inl h))
    · exact .inr (List.mem_cons_of_mem _ h)

theorem lookup_joined (h : key ∉ source.map Prod.fst) : lookup key (joined target source) = lookup key target := by
  induction source generalizing target with
  | nil => rfl
  | cons m source ih =>
    rw [List.map_cons, List.mem_cons, not_or] at h
    change lookup key (joined (InsertionMap.put m.1 m.2 target) source) = _
    rw [ih h.2, lookup_put, if_neg (Ne.symm h.1)]

theorem lookup_assign (hn : (target.map Prod.fst).Nodup) (h : key ∉ source.map Prod.fst) :
    lookup key (assign target source) = lookup key target := by
  change lookup key (sortKeys place (joined target source)) = _
  rw [lookup_perm (joined_nodup hn) (sortKeys_perm _), lookup_joined h]

theorem Plain.norm (h : Plain members) : Json.norm place id (.object members) = .object members := by
  have hvalues : (members.map fun m ↦ (m.1, Json.norm place id m.2)) = members := by
    refine (List.map_congr_left fun m hm ↦ ?_).trans (List.map_id members)
    exact congrArg (Prod.mk m.1) (h.values m hm)
  rw [norm_object, hvalues, sortKeys, h.placed.insertionSort_eq]

theorem Plain.nodup (h : Plain members) : (members.map Prod.fst).Nodup := ((distinct_object _).mp h.distinct).1

theorem plain_assign (ht : (target.map Prod.fst).Nodup) (hvalues : ∀ m ∈ target, m.2.Distinct ∧ Json.norm place id m.2 = m.2)
    (hs : Plain source) : Plain (assign target source) := by
  have hmem : ∀ m ∈ assign target source, m.2.Distinct ∧ Json.norm place id m.2 = m.2 := by
    intro m hm
    rcases mem_joined ((sortKeys_perm _).mem_iff.mp hm) with hm | hm
    · exact hvalues m hm
    · exact ⟨((distinct_object _).mp hs.distinct).2 m hm, hs.values m hm⟩
  refine ⟨?_, sortKeys_sorted _, fun m hm ↦ (hmem m hm).2⟩
  rw [distinct_object]
  refine ⟨?_, fun m hm ↦ (hmem m hm).1⟩
  rw [assign, ((sortKeys_perm _).map Prod.fst).nodup_iff]
  exact joined_nodup ht

theorem assign_singleton {v : Value ν} (h : Plain members) (hfresh : key ∉ members.map Prod.fst)
    (hkey : place key = [2 ^ 32]) : assign members [(key, v)] = members ++ [(key, v)] := by
  have hput : InsertionMap.put key v members = members ++ [(key, v)] := by
    clear h
    induction members with
    | nil => rfl
    | cons m members ih =>
      obtain ⟨j, w⟩ := m
      rw [List.map_cons, List.mem_cons, not_or] at hfresh
      rw [InsertionMap.put, if_neg (Ne.symm hfresh.1), ih hfresh.2, List.cons_append]
  have hsorted : (members ++ [(key, v)]).Pairwise fun a b ↦ place a.1 ≤ place b.1 := by
    rw [List.pairwise_append]
    refine ⟨h.placed, List.pairwise_singleton _ _, ?_⟩
    intro m _ n hn
    rw [List.mem_singleton.mp hn]
    change place m.1 ≤ place key
    rw [hkey]
    exact place_le m.1
  rw [assign, List.foldl_cons, List.foldl_nil, hput, sortKeys, hsorted.insertionSort_eq]

theorem plain_snoc {text : Units} (h : Plain members) (hfresh : key ∉ members.map Prod.fst)
    (hkey : place key = [2 ^ 32]) : Plain (members ++ [(key, .string text)]) := by
  rw [← assign_singleton h hfresh hkey]
  refine plain_assign h.nodup (fun m hm ↦ ⟨((distinct_object _).mp h.distinct).2 m hm, h.values m hm⟩) ⟨?_, ?_, ?_⟩
  · rw [distinct_object]
    refine ⟨List.nodup_singleton _, ?_⟩
    intro m hm
    rw [List.mem_singleton.mp hm]
    trivial
  · exact List.pairwise_singleton _ _
  · intro m hm
    rw [List.mem_singleton.mp hm]
    rfl

theorem without_snoc {v : Value ν} (hfresh : key ∉ members.map Prod.fst) :
    without key (members ++ [(key, v)]) = members := by
  rw [without, List.filter_append, List.filter_eq_self.mpr]
  · simp
  · intro m hm
    rw [decide_eq_true_iff]
    rintro rfl
    exact hfresh (List.mem_map_of_mem hm)

theorem lookup_snoc {v : Value ν} (hfresh : key ∉ members.map Prod.fst) :
    lookup key (members ++ [(key, v)]) = some v := by
  induction members with
  | nil => simp [lookup]
  | cons m members ih =>
    obtain ⟨j, w⟩ := m
    rw [List.map_cons, List.mem_cons, not_or] at hfresh
    rw [List.cons_append, lookup, if_neg (Ne.symm hfresh.1)]
    exact ih hfresh.2

end Members

section Texts

variable {host : Host ν} {members : Members ν} {g : ν → ν}

def ReadsAs (host : Host ν) (g : ν → ν) : Prop := ∀ n, host.read (host.write n) = some (g n) ∧ host.write (g n) = host.write n

theorem understands (hnumeral : ∀ n, Numeric (host.write n)) (hg : ReadsAs host g) :
    Understands host.writer host.reader id g fun _ ↦ True where
  string _ := rfl
  number n _ := (hg n).1
  numeral n _ := hnumeral n

def reread (g : ν → ν) (members : Members ν) : Members ν := members.map fun m ↦ (m.1, m.2.map id g)

theorem stringify_reread (hg : ReadsAs host g) (members : Members ν) :
    host.stringify (.object (reread g members)) = host.stringify (.object members) := by
  have hmap : Json.object (reread g members) = (Json.object members).map id g := by
    rw [map_object]
    rfl
  rw [Host.stringify, Host.stringify, hmap]
  exact print_map (fun _ ↦ rfl) (fun n ↦ (hg n).2) _

theorem digest_reread (hg : ReadsAs host g) (members : Members ν) : host.digest (reread g members) = host.digest members := by
  rw [Host.digest, stringify_reread hg, Host.digest]

theorem map_eq_norm {v : Value ν} (h : Json.norm place id v = v) : v.map id g = Json.norm place g v := by
  rw [norm_eq_map, h]

theorem parse_stringify (hnumeral : ∀ n, Numeric (host.write n)) (hg : ReadsAs host g) (h : Plain members) :
    host.parse (host.stringify (.object members)) = some (.object (reread g members)) := by
  have hmap : Json.object (reread g members) = (Json.object members).map id g := by
    rw [map_object]
    rfl
  have hdistinct : ((Json.object members).map id g).Distinct := by
    rw [map_eq_norm h.norm]
    exact norm_distinct h.distinct
  have hparse := parse_print (understands hnumeral hg) (.object members) hdistinct (eachNumber_of_forall (fun _ ↦ trivial) _)
    nofun
  rw [Host.parse, Host.stringify, hparse, Option.map_some, hmap, map_eq_norm h.norm, norm_norm]
  rfl

theorem stringify_plain_line (hnumeral : ∀ n, Numeric (host.write n)) :
    ∀ c ∈ host.stringify (.object members), c ≠ '\n' := by
  rintro c hc rfl
  exact absurd (printable_print (eachNumber_of_forall hnumeral _) hc) (by decide)

theorem stringify_ne_nil : host.stringify (.object members) ≠ [] := by
  rw [Host.stringify, print_object]
  exact List.cons_ne_nil _ _

def lines (file : Bytes) : List (List Char) := ((Utf8.decode file).splitOnP (· == '\n')).filter fun cs ↦ cs ≠ []

theorem readAll_eq (file : Option Bytes) : host.readAll file = (lines (file.getD [])).mapM host.parse := by
  cases file with
  | none => rfl
  | some => rfl

theorem lines_cons {cs : List Char} (hne : cs ≠ []) (hline : ∀ c ∈ cs, c ≠ '\n') (rest : Bytes) :
    lines (Utf8.encode (cs ++ ['\n']) ++ rest) = cs :: lines rest := by
  have hone : cs.splitOnP (· == '\n') = [cs] := by
    apply List.splitOnP_eq_singleton
    intro c hc
    rw [beq_eq_false_iff_ne]
    exact hline c hc
  have hsplit : (cs ++ '\n' :: Utf8.decode rest).splitOnP (· == '\n') =
      cs.splitOnP (· == '\n') ++ (Utf8.decode rest).splitOnP (· == '\n') := List.splitOnP_append_cons _ _ rfl
  rw [lines, Utf8.decode_encode_append, List.append_assoc, List.singleton_append, hsplit, hone, List.singleton_append,
    List.filter_cons, if_pos (by simpa using hne)]
  rfl

def line (host : Host ν) (members : Members ν) : Bytes := Utf8.encode (host.stringify (.object members) ++ ['\n'])

theorem readAll_lines (hnumeral : ∀ n, Numeric (host.write n)) (hg : ReadsAs host g) {records : List (Members ν)}
    (h : ∀ r ∈ records, Plain r) {file : Option Bytes} (hfile : file.getD [] = records.flatMap (line host)) :
    host.readAll file = some (records.map fun r ↦ .object (reread g r)) := by
  rw [readAll_eq, hfile]
  clear hfile
  induction records with
  | nil => rfl
  | cons r records ih =>
    rw [List.flatMap_cons, line, lines_cons stringify_ne_nil (stringify_plain_line hnumeral), List.mapM_cons,
      parse_stringify hnumeral hg (h r List.mem_cons_self), ih fun r hr ↦ h r (List.mem_cons_of_mem _ hr)]
    rfl

end Texts

section Chain

variable {host : Host ν} {g : ν → ν} {members : Members ν} {ledger : AuditLedger ν}

theorem place_name {key : String} (h : key = "hash" ∨ key = "previousHash") : place (name key) = [2 ^ 32] := by
  rcases h with rfl | rfl
  · decide
  · decide

/-- A record as the ledger writes it: its hash is its last member, and is taken over the others, among them the hash it
follows. -/
structure Seals (host : Host ν) (previous hash : Units) (record : Members ν) : Prop where
  record : ∃ unsigned, record = unsigned ++ [(name "hash", .string hash)] ∧ Plain unsigned ∧
    name "hash" ∉ unsigned.map Prod.fst ∧ lookup (name "previousHash") unsigned = some (.string previous) ∧
    hash = host.digest unsigned

variable {previous first last : Units}

theorem Seals.plain {hash : Units} {record : Members ν} (h : Seals host previous hash record) : Plain record := by
  obtain ⟨unsigned, rfl, hplain, hfresh, -, -⟩ := h.record
  exact plain_snoc hplain hfresh (place_name (.inl rfl))

theorem reread_snoc (members : Members ν) (key text : Units) :
    reread g (members ++ [(key, .string text)]) = reread g members ++ [(key, .string text)] := by
  rw [reread, List.map_append]
  rfl

theorem reread_fresh {key : Units} (h : key ∉ members.map Prod.fst) : key ∉ (reread g members).map Prod.fst := by
  rw [reread, List.map_map]
  exact h

theorem Seals.verifyFrom (hg : ReadsAs host g) {hash : Units} {record : Members ν}
    (h : Seals host previous hash record) (records : List (Value ν)) :
    host.verifyFrom previous (.object (reread g record) :: records) = host.verifyFrom hash records := by
  obtain ⟨unsigned, rfl, hplain, hfresh, hprevious, rfl⟩ := h.record
  have hwithout : without (name "hash") (reread g (unsigned ++ [(name "hash", .string (host.digest unsigned))])) =
      reread g unsigned := by
    rw [reread_snoc, without_snoc (reread_fresh hfresh)]
  have hheld : Host.holds (name "previousHash") previous (reread g unsigned) = true := by
    rw [Host.holds, reread, lookup_map, hprevious]
    exact decide_eq_true rfl
  have hhash : Host.holds (name "hash") (host.digest unsigned)
      (reread g (unsigned ++ [(name "hash", .string (host.digest unsigned))])) = true := by
    rw [Host.holds, reread_snoc, lookup_snoc (reread_fresh hfresh)]
    exact decide_eq_true rfl
  rw [Host.verifyFrom]
  simp only [hwithout, digest_reread hg, hheld, hhash]
  rfl

/-- Records each of which follows the one before it, from one hash to another. -/
inductive Chain (host : Host ν) (first : Units) : List (Members ν) → Units → Prop
  | nil : Chain host first [] first
  | snoc {records : List (Members ν)} {last hash : Units} {record : Members ν} (chain : Chain host first records last)
      (seals : Seals host last hash record) : Chain host first (records ++ [record]) hash

theorem Chain.plain {records : List (Members ν)} (h : Chain host first records last) :
    ∀ r ∈ records, Plain r := by
  induction h with
  | nil => exact nofun
  | snoc chain seals ih =>
    intro r hr
    rcases List.mem_append.mp hr with hr | hr
    · exact ih r hr
    · rw [List.mem_singleton.mp hr]
      exact seals.plain

theorem Chain.verifyFrom (hg : ReadsAs host g) {records : List (Members ν)} (h : Chain host first records last)
    (rest : List (Value ν)) :
    host.verifyFrom first ((records.map fun r ↦ .object (reread g r)) ++ rest) = host.verifyFrom last rest := by
  induction h generalizing rest with
  | nil => rfl
  | snoc chain seals ih =>
    rw [List.map_append, List.append_assoc, ih, List.map_singleton, List.singleton_append, seals.verifyFrom hg]

theorem Chain.lastHash {records : List (Members ν)} (h : Chain host first records last) (hfirst : first = genesis) :
    Audit.lastHash (records.map fun r ↦ .object (reread g r)) = .string last := by
  cases h with
  | nil =>
    rw [hfirst]
    rfl
  | snoc chain seals =>
    obtain ⟨unsigned, rfl, -, hfresh, -, rfl⟩ := seals.record
    rw [List.map_append, List.map_singleton, Audit.lastHash, List.getLast?_concat, reread_snoc]
    dsimp only
    rw [lookup_snoc (reread_fresh hfresh)]

/-- The file is the lines of a chain of records, and the ledger goes on from its last hash. -/
def Intact (host : Host ν) (ledger : AuditLedger ν) : Prop :=
  ∃ records last, ledger.file.getD [] = records.flatMap (line host) ∧ Chain host genesis records last ∧
    ledger.lastHash = .string last

theorem Intact.readAll (hnumeral : ∀ n, Numeric (host.write n)) (hg : ReadsAs host g) (h : Intact host ledger) :
    ∃ records, host.readAll ledger.file = some records ∧ host.verifyFrom genesis records = some true ∧
      Audit.lastHash records = ledger.lastHash := by
  obtain ⟨records, last, hfile, hchain, hlast⟩ := h
  refine ⟨_, readAll_lines hnumeral hg hchain.plain hfile, ?_, ?_⟩
  · have hverify := hchain.verifyFrom hg []
    rw [List.append_nil] at hverify
    exact hverify
  · rw [hlast]
    exact hchain.lastHash rfl

theorem plain_unsigned {event : Members ν} (id timestamp : Units) (hlast : ledger.lastHash = .string previous)
    (hevent : JsonEvent event) : Plain (Host.unsigned ledger id timestamp event) ∧
      name "hash" ∉ (Host.unsigned ledger id timestamp event).map Prod.fst ∧
      lookup (name "previousHash") (Host.unsigned ledger id timestamp event) = some (.string previous) := by
  have hnames : [name "id", name "timestamp", name "previousHash"].Nodup := by decide
  refine ⟨?_, ?_, ?_⟩
  · refine plain_assign hnames ?_ hevent.plain
    intro m hm
    rw [hlast] at hm
    simp only [List.mem_cons, List.not_mem_nil, or_false] at hm
    rcases hm with rfl | rfl | rfl
    · exact ⟨trivial, rfl⟩
    · exact ⟨trivial, rfl⟩
    · exact ⟨trivial, rfl⟩
  · intro hmem
    obtain ⟨m, hm, hkey⟩ := List.mem_map.mp hmem
    rcases mem_joined ((sortKeys_perm _).mem_iff.mp hm) with hm | hm
    · have hnot : name "hash" ∉ [name "id", name "timestamp", name "previousHash"] := by decide
      exact hnot (hkey ▸ List.mem_map_of_mem (f := Prod.fst) hm)
    · exact hevent.hash (hkey ▸ List.mem_map_of_mem hm)
  · rw [Host.unsigned, lookup_assign (by exact hnames) hevent.previousHash, hlast]
    have h₁ : name "id" ≠ name "previousHash" := by decide
    have h₂ : name "timestamp" ≠ name "previousHash" := by decide
    rw [lookup, if_neg h₁, lookup, if_neg h₂, lookup, if_pos rfl]

theorem Intact.append (h : Intact host ledger) {id timestamp : Units} {event : Members ν} (hevent : JsonEvent event) :
    Intact host (host.append ledger id timestamp event) := by
  obtain ⟨records, last, hfile, hchain, hlast⟩ := h
  obtain ⟨hplain, hfresh, hprevious⟩ := plain_unsigned id timestamp hlast hevent
  have hseals : Seals host last (host.digest (Host.unsigned ledger id timestamp event))
      (Host.unsigned ledger id timestamp event ++
        [(name "hash", .string (host.digest (Host.unsigned ledger id timestamp event)))]) :=
    ⟨_, rfl, hplain, hfresh, hprevious, rfl⟩
  refine ⟨_, _, ?_, .snoc hchain hseals, rfl⟩
  rw [Host.append, List.flatMap_append, ← hfile, assign_singleton hplain hfresh (place_name (.inl rfl))]
  rw [List.flatMap_singleton]
  rfl

theorem Intact.perform (hnumeral : ∀ n, Numeric (host.write n)) (hg : ReadsAs host g) (h : Intact host ledger)
    {c : Command ν} (hc : c.JsonEvent) : ∃ ledger', host.perform ledger c = some ledger' ∧ Intact host ledger' := by
  cases c with
  | append => exact ⟨_, rfl, h.append hc⟩
  | restart =>
    obtain ⟨records, hread, -, hlast⟩ := h.readAll hnumeral hg
    refine ⟨ledger, ?_, h⟩
    change host.construct ledger.file = some ledger
    rw [Host.construct, hread, Option.map_some, hlast]

theorem Intact.run (hnumeral : ∀ n, Numeric (host.write n)) (hg : ReadsAs host g) (h : Intact host ledger)
    {commands : List (Command ν)} (hcommands : ∀ c ∈ commands, c.JsonEvent) :
    ∃ ledger', commands.foldlM host.perform ledger = some ledger' ∧ Intact host ledger' := by
  induction commands generalizing ledger with
  | nil => exact ⟨ledger, rfl, h⟩
  | cons c commands ih =>
    obtain ⟨ledger', hledger', hintact⟩ := h.perform hnumeral hg (hcommands c List.mem_cons_self)
    rw [List.foldlM_cons, hledger']
    exact ih hintact fun c hc ↦ hcommands c (List.mem_cons_of_mem _ hc)

end Chain

section Agreement

variable {host : Host ν} {g : ν → ν} {members others : Members ν} {v e f : Value ν} {records : List (Value ν)}

def textUnder (key : Units) : Value ν → Units
  | .object members =>
    match lookup key members with
    | some (.string s) => s
    | _ => []
  | _ => []

def hashed (host : Host ν) : Value ν → Bytes
  | .object members => Utf8.encode (host.stringify (.object (without (name "hash") members)))
  | _ => []

def Passed (host : Host ν) (v : Value ν) : Prop :=
  ∃ members, v = .object members ∧
    lookup (name "previousHash") (without (name "hash") members) = some (.string (textUnder (name "previousHash") v)) ∧
    lookup (name "hash") members = some (.string (host.digest (without (name "hash") members))) ∧
    textUnder (name "hash") v = host.digest (without (name "hash") members)

theorem holds_iff {key text : Units} : Host.holds key text members = true ↔ lookup key members = some (.string text) := by
  unfold Host.holds
  split
  next s hs =>
    rw [hs, decide_eq_true_iff, Option.some.injEq, Json.string.injEq]
  next hnot =>
    constructor
    · intro h
      cases h
    · intro h
      exact absurd h (hnot text)

theorem lookup_without {key : Units} (h : key ≠ name "hash") : lookup key (without (name "hash") members) = lookup key members := by
  rw [without, lookup_filter (fun k ↦ decide (k ≠ name "hash")), if_pos (decide_eq_true h)]

theorem passed_of_verifyFrom {previous : Units} (h : host.verifyFrom previous (v :: records) = some true) :
    Passed host v ∧ textUnder (name "previousHash") v = previous ∧
      host.verifyFrom (textUnder (name "hash") v) records = some true := by
  cases v with
  | object members =>
    rw [Host.verifyFrom] at h
    split at h
    · cases h
    next hprevious =>
      split at h
      · cases h
      next hhash =>
        rw [Bool.not_eq_true', Bool.not_eq_false, holds_iff] at hprevious hhash
        have hne : name "previousHash" ≠ name "hash" := by decide
        have htext : textUnder (name "previousHash") (.object members) = previous := by
          rw [textUnder, ← lookup_without hne, hprevious]
        have hdigest : textUnder (name "hash") (.object members) = host.digest (without (name "hash") members) := by
          rw [textUnder, hhash]
        refine ⟨⟨members, rfl, ?_, hhash, hdigest⟩, htext, ?_⟩
        · rw [htext, hprevious]
        · rw [hdigest]
          exact h
  | null | bool | number | string | array => cases h

theorem lastDigest_cons {ε δ : Type} (digest : ε → δ) (genesis : δ) (x : ε) (xs : List ε) :
    lastDigest digest genesis (x :: xs) = lastDigest digest (digest x) xs := by
  rw [lastDigest, lastDigest, List.getLast?_cons]
  cases xs.getLast? with
  | none => rfl
  | some => rfl

theorem built_of_verifyFrom {previous : Units} (h : host.verifyFrom previous records = some true) :
    Built (fun earlier e ↦ textUnder (name "previousHash") e = lastDigest (textUnder (name "hash")) previous earlier ∧
      Passed host e) records := by
  induction records generalizing previous with
  | nil => exact built_nil
  | cons v records ih =>
    obtain ⟨hpassed, hprevious, hrest⟩ := passed_of_verifyFrom h
    rw [built_cons]
    refine ⟨⟨hprevious, hpassed⟩, ?_⟩
    intro earlier e later hsplit
    obtain ⟨hfollows, he⟩ := ih hrest earlier e later hsplit
    refine ⟨?_, he⟩
    rw [lastDigest_cons]
    exact hfollows

theorem lastHash_of_passed (h : ∀ e ∈ records, Passed host e) :
    Audit.lastHash records = .string (lastDigest (textUnder (name "hash")) genesis records) := by
  rw [Audit.lastHash, lastDigest]
  cases hlast : records.getLast? with
  | none => rfl
  | some v =>
    obtain ⟨members, rfl, -, hhash, htext⟩ := h v (List.mem_of_getLast? hlast)
    dsimp only
    rw [hhash, Option.map_some, Option.getD_some, htext]

theorem digest_ne_genesis : host.digest members ≠ genesis := by
  intro h
  have hlength := congrArg String.length (name_injective h)
  rw [hex_length, Vector.length_toList] at hlength
  exact absurd hlength (by decide)

theorem plain_of_parse {cs : List Char} (h : host.parse cs = some (.object members)) : Plain members := by
  obtain ⟨u, hu, hnorm⟩ := Option.map_eq_some_iff.mp h
  have hdistinct : (Json.norm place id u).Distinct := norm_distinct (parse_distinct hu)
  rw [hnorm] at hdistinct
  cases u with
  | object =>
    rw [norm_object, object.injEq] at hnorm
    refine ⟨hdistinct, ?_, ?_⟩
    · rw [← hnorm]
      exact sortKeys_sorted _
    · intro m hm
      rw [← hnorm] at hm
      obtain ⟨m', -, rfl⟩ := List.mem_map.mp ((sortKeys_perm _).mem_iff.mp hm)
      exact norm_norm id m'.2
  | array =>
    rw [norm_array] at hnorm
    cases hnorm
  | null | bool | number | string => cases hnorm

theorem Plain.without (h : Plain members) (key : Units) : Plain (Audit.without key members) := by
  have hsub : (Audit.without key members).Sublist members := List.filter_sublist
  refine ⟨?_, h.placed.sublist hsub, fun m hm ↦ h.values m (hsub.subset hm)⟩
  have hdistinct := (distinct_object _).mp h.distinct
  rw [distinct_object]
  exact ⟨hdistinct.1.sublist (hsub.map _), fun m hm ↦ hdistinct.2 m (hsub.subset hm)⟩

theorem decode_encode (cs : List Char) : Utf8.decode (Utf8.encode cs) = cs := by
  have h := Utf8.decode_encode_append cs []
  rw [List.append_nil] at h
  rw [h]
  exact List.append_nil cs

theorem reread_of_stringify (hnumeral : ∀ n, Numeric (host.write n)) (hg : ReadsAs host g) (h : Plain members)
    (h' : Plain others) (htext : host.stringify (.object members) = host.stringify (.object others)) :
    reread g members = reread g others := by
  have hparse := parse_stringify hnumeral hg h
  rw [htext, parse_stringify hnumeral hg h'] at hparse
  exact (object.inj (Option.some.inj hparse)).symm

/-- Two records are the same JSON text but for where their hash stands, and the same text where it stands last. -/
structure SameRecord (host : Host ν) (members others : Members ν) : Prop where
  unsigned : host.stringify (.object (without (name "hash") members)) =
    host.stringify (.object (without (name "hash") others))
  hash : ∃ hash, lookup (name "hash") members = some (.string hash) ∧ lookup (name "hash") others = some (.string hash)
  whole : ∀ before before' hash hash', members = before ++ [(name "hash", hash)] →
    others = before' ++ [(name "hash", hash')] → host.stringify (.object members) = host.stringify (.object others)

theorem without_last {before : Members ν} {hash : Value ν} (h : Plain (before ++ [(name "hash", hash)])) :
    without (name "hash") (before ++ [(name "hash", hash)]) = before ∧
      lookup (name "hash") (before ++ [(name "hash", hash)]) = some hash := by
  have hnodup := h.nodup
  rw [List.map_append, List.nodup_append] at hnodup
  have hfresh : name "hash" ∉ before.map Prod.fst := fun hmem ↦ hnodup.2.2 _ hmem _ (List.mem_singleton.mpr rfl) rfl
  exact ⟨without_snoc hfresh, lookup_snoc hfresh⟩

theorem sameRecord (hnumeral : ∀ n, Numeric (host.write n)) (hg : ReadsAs host g) (h : Plain members) (h' : Plain others)
    (htext : host.stringify (.object (without (name "hash") members)) =
      host.stringify (.object (without (name "hash") others)))
    {hash : Units} (hhash : lookup (name "hash") members = some (.string hash))
    (hhash' : lookup (name "hash") others = some (.string hash)) : SameRecord host members others := by
  refine ⟨htext, ⟨hash, hhash, hhash'⟩, ?_⟩
  rintro before before' first second rfl rfl
  obtain ⟨hbefore, hfirst⟩ := without_last h
  obtain ⟨hbefore', hsecond⟩ := without_last h'
  rw [hhash, Option.some.injEq] at hfirst
  rw [hhash', Option.some.injEq] at hsecond
  have hsame := reread_of_stringify hnumeral hg (h.without _) (h'.without _) htext
  rw [hbefore, hbefore'] at hsame
  rw [← hfirst, ← hsecond, ← stringify_reread hg, reread_snoc, hsame, ← reread_snoc, stringify_reread hg]

def KeepsApart (host : Host ν) (rs ss : List (Value ν)) : Prop :=
  ∀ e ∈ rs, ∀ f ∈ ss, host.sha256 (hashed host e) = host.sha256 (hashed host f) → hashed host e = hashed host f

def SameRecords (host : Host ν) (e f : Value ν) : Prop :=
  ∃ members others, e = .object members ∧ f = .object others ∧ SameRecord host members others

theorem mapM_mem {α β : Type} {F : α → Option β} {xs : List α} {ys : List β} (h : xs.mapM F = some ys) {y : β}
    (hy : y ∈ ys) : ∃ x, F x = some y := by
  induction xs generalizing ys with
  | nil =>
    cases h
    cases hy
  | cons x xs ih =>
    rw [List.mapM_cons] at h
    obtain ⟨z, hz, h⟩ := Option.bind_eq_some_iff.mp h
    obtain ⟨zs, hzs, h⟩ := Option.bind_eq_some_iff.mp h
    cases h
    rcases List.mem_cons.mp hy with rfl | hy
    · exact ⟨x, hz⟩
    · exact ih hzs hy

theorem plain_of_readAll {file : Option Bytes} (h : host.readAll file = some records) (hv : .object members ∈ records) :
    Plain members := by
  rw [readAll_eq] at h
  obtain ⟨cs, hcs⟩ := mapM_mem h hv
  exact plain_of_parse hcs

theorem same_of_hash (hnumeral : ∀ n, Numeric (host.write n)) (hg : ReadsAs host g) (he : Passed host e) (hf : Passed host f)
    (hplain : ∀ members, e = .object members → Plain members) (hplain' : ∀ members, f = .object members → Plain members)
    (happart : host.sha256 (hashed host e) = host.sha256 (hashed host f) → hashed host e = hashed host f)
    (hhash : textUnder (name "hash") e = textUnder (name "hash") f) :
    textUnder (name "previousHash") e = textUnder (name "previousHash") f ∧ SameRecords host e f := by
  obtain ⟨members, rfl, hprevious, hlookup, htext⟩ := he
  obtain ⟨others, rfl, hprevious', hlookup', htext'⟩ := hf
  have hp := hplain members rfl
  have hp' := hplain' others rfl
  rw [htext, htext'] at hhash
  have hsha := Vector.toList_inj.mp (hex_injective (name_injective hhash))
  have hencode : Utf8.encode (host.stringify (.object (without (name "hash") members))) =
      Utf8.encode (host.stringify (.object (without (name "hash") others))) := happart hsha
  have hstringify := congrArg Utf8.decode hencode
  rw [decode_encode, decode_encode] at hstringify
  have hsame := reread_of_stringify hnumeral hg (hp.without _) (hp'.without _) hstringify
  constructor
  · have hmap := congrArg (lookup (name "previousHash")) hsame
    rw [reread, reread, lookup_map, lookup_map, hprevious, hprevious'] at hmap
    exact Json.string.inj (Option.some.inj hmap)
  · refine ⟨members, others, rfl, rfl, sameRecord hnumeral hg hp hp' hstringify hlookup ?_⟩
    rw [hlookup', hhash]

theorem records_agree (hnumeral : ∀ n, Numeric (host.write n)) (hg : ReadsAs host g) {rs ss : List (Value ν)}
    (hr : host.verifyFrom genesis rs = some true) (hs : host.verifyFrom genesis ss = some true)
    (hplain : ∀ members, .object members ∈ rs → Plain members) (hplain' : ∀ members, .object members ∈ ss → Plain members)
    (happart : KeepsApart host rs ss) (hlast : lastHash rs = lastHash ss) : List.Forall₂ (SameRecords host) rs ss := by
  have hbuilt := built_of_verifyFrom hr
  have hbuilt' := built_of_verifyFrom hs
  have hpassed : ∀ e ∈ rs, Passed host e := by
    intro e he
    obtain ⟨earlier, later, hsplit⟩ := List.append_of_mem he
    exact (hbuilt earlier e later hsplit).2
  have hpassed' : ∀ f ∈ ss, Passed host f := by
    intro f hf
    obtain ⟨earlier, later, hsplit⟩ := List.append_of_mem hf
    exact (hbuilt' earlier f later hsplit).2
  rw [lastHash_of_passed hpassed, lastHash_of_passed hpassed', Json.string.injEq] at hlast
  have hagree := @chains_agree (Value ν) Units (textUnder (name "hash")) (textUnder (name "previousHash")) genesis
    (SameRecords host) rs ss
  apply hagree
  · exact fun earlier e later hsplit ↦ (hbuilt earlier e later hsplit).1
  · exact fun earlier f later hsplit ↦ (hbuilt' earlier f later hsplit).1
  · intro e he f hf hhash
    refine same_of_hash hnumeral hg (hpassed e he) (hpassed' f hf) ?_ ?_ (happart e he f hf) hhash
    · rintro members rfl
      exact hplain members he
    · rintro members rfl
      exact hplain' members hf
  · intro e he
    obtain ⟨members, rfl, -, -, htext⟩ := hpassed e he
    rw [htext]
    exact digest_ne_genesis
  · intro f hf
    obtain ⟨members, rfl, -, -, htext⟩ := hpassed' f hf
    rw [htext]
    exact digest_ne_genesis
  · exact hlast

end Agreement

section Sample

def wordless : Host Empty := ⟨Capability.Host.checksum, nofun, fun _ ↦ none⟩

theorem wordless_rereads : wordless.Rereads := ⟨nofun, nofun⟩

def entry (id : String) (previous : Units) : Members Empty :=
  [(name "id", .string (name id)), (name "timestamp", .string (name "now")), (name "previousHash", .string previous)]

def hashMember (members : Members Empty) : Units × Value Empty := (name "hash", .string (wordless.digest members))

def firstEntry : Members Empty := entry "1" genesis

def secondEntry : Members Empty := entry "2" (wordless.digest firstEntry)

def twoRecords (record : Members Empty) : List (Members Empty) := [record, secondEntry ++ [hashMember secondEntry]]

def written (record : Members Empty) : Option Bytes := some ((twoRecords record).flatMap (line wordless))

def atEnd : Members Empty := firstEntry ++ [hashMember firstEntry]

def atStart : Members Empty := hashMember firstEntry :: firstEntry

theorem plain_texts {members : Members Empty} (hn : (members.map Prod.fst).Nodup)
    (hp : members.Pairwise fun a b ↦ place a.1 ≤ place b.1) (hs : ∀ m ∈ members, ∃ s, m.2 = .string s) : Plain members := by
  refine ⟨?_, hp, ?_⟩
  · rw [distinct_object]
    refine ⟨hn, fun m hm ↦ ?_⟩
    obtain ⟨s, hs⟩ := hs m hm
    rw [hs]
    trivial
  · intro m hm
    obtain ⟨s, hs⟩ := hs m hm
    rw [hs]
    rfl

theorem texts_entry {id : String} {previous : Units} {m : Units × Value Empty} (h : m ∈ entry id previous) :
    ∃ s, m.2 = .string s := by
  simp only [entry, List.mem_cons, List.not_mem_nil, or_false] at h
  rcases h with rfl | rfl | rfl
  · exact ⟨_, rfl⟩
  · exact ⟨_, rfl⟩
  · exact ⟨_, rfl⟩

theorem texts_sealed {id : String} {previous : Units} {members : Members Empty} {m : Units × Value Empty}
    (h : m ∈ entry id previous ++ [hashMember members]) : ∃ s, m.2 = .string s := by
  rcases List.mem_append.mp h with h | h
  · exact texts_entry h
  · rw [List.mem_singleton.mp h]
    exact ⟨_, rfl⟩

theorem plain_twoRecords {record : Members Empty} (h : record = atEnd ∨ record = atStart) :
    ∀ r ∈ twoRecords record, Plain r := by
  intro r hr
  simp only [twoRecords, List.mem_cons, List.not_mem_nil, or_false] at hr
  rcases hr with rfl | rfl
  · rcases h with rfl | rfl
    · exact plain_texts (by decide) (by decide) fun m hm ↦ texts_sealed hm
    · refine plain_texts (by decide) (by decide) fun m hm ↦ ?_
      rcases List.mem_cons.mp hm with rfl | hm
      · exact ⟨_, rfl⟩
      · exact texts_entry hm
  · exact plain_texts (by decide) (by decide) fun m hm ↦ texts_sealed hm

theorem readAll_written {record : Members Empty} (h : record = atEnd ∨ record = atStart) :
    wordless.readAll (written record) = some ((twoRecords record).map Json.object) := by
  have hread := @readAll_lines Empty wordless id nofun nofun _ (plain_twoRecords h) (written record) rfl
  rw [hread]
  congr 1
  apply List.map_congr_left
  intro r _
  congr 1
  refine (List.map_congr_left fun m _ ↦ ?_).trans (List.map_id r)
  rw [Json.map_id]
  rfl

theorem verify_written : wordless.verify (written atEnd) = some true ∧ wordless.verify (written atStart) = some true := by
  decide +kernel

end Sample

end Noesar.Audit
