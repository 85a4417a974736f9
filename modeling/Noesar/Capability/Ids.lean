import Mathlib
import Noesar.Capability.Session
import Noesar.Capability.Rust

namespace Noesar.Capability

open Lib Lib.Framing

variable {host : Host}

namespace Session

variable {D : Dialect host}

def Numbered : List (D.Held × ℕ) → Prop
  | [] => True
  | (token, counter) :: rest =>
    counter = D.advance^[rest.length + 1] 0 ∧ token.planDigest.length = 64 ∧
      token.id = D.tokenId token.planDigest token.stepId counter ∧ Numbered rest

variable {l : List (D.Held × ℕ)}

theorem Numbered.counter (h : Numbered l) {m : D.Held × ℕ} (hm : m ∈ l) :
    ∃ j, 0 < j ∧ j ≤ l.length ∧ m.2 = D.advance^[j] 0 := by
  induction l with
  | nil => simp at hm
  | cons n rest ih =>
    obtain ⟨token, counter⟩ := n
    rcases List.mem_cons.mp hm with rfl | hm
    · exact ⟨rest.length + 1, by simp, by simp, h.1⟩
    · obtain ⟨j, hpos, hle, hj⟩ := ih h.2.2.2 hm
      exact ⟨j, hpos, by simp only [List.length_cons]; omega, hj⟩

theorem Numbered.token (h : Numbered l) {m : D.Held × ℕ} (hm : m ∈ l) :
    m.1.planDigest.length = 64 ∧ m.1.id = D.tokenId m.1.planDigest m.1.stepId m.2 := by
  induction l with
  | nil => simp at hm
  | cons n rest ih =>
    obtain ⟨token, counter⟩ := n
    rcases List.mem_cons.mp hm with rfl | hm
    · exact ⟨h.2.1, h.2.2.1⟩
    · exact ih h.2.2.2 hm

theorem numbered_after {s₀ : Session D} (h₀ : s₀.Fresh) (cs : List (Command D)) :
    Numbered (issues (Run.after step s₀ cs).history) ∧
      (Run.after step s₀ cs).minter.counter =
        D.advance^[(issues (Run.after step s₀ cs).history).length] 0 := by
  refine Run.invariant (I := fun s : Session D ↦ Numbered (issues s.history) ∧
    s.minter.counter = D.advance^[(issues s.history).length] 0) ?_ ?_ cs
  · rintro s c ⟨hn, hc⟩
    rcases s.issues_step c with ⟨authorized, request, nowUnix, limits, -, -, hi, hcount⟩ | ⟨hi, hcount⟩
    · have hnext : D.advance s.minter.counter = D.advance^[(issues s.history).length + 1] 0 := by
        rw [hc, Function.iterate_succ_apply']
      rw [hi, hcount]
      exact ⟨⟨hnext, authorized.digest_length, rfl, hn⟩, hnext⟩
    · rw [hi, hcount]
      exact ⟨hn, hc⟩
  · rw [h₀.history, h₀.counter]
    exact ⟨trivial, rfl⟩

def HashKeepsApart (l : List (D.Held × ℕ)) : Prop :=
  ∀ m ∈ l, ∀ n ∈ l, idHash host (D.idBytes m.1.planDigest m.1.stepId m.2) =
    idHash host (D.idBytes n.1.planDigest n.1.stepId n.2) →
      D.idBytes m.1.planDigest m.1.stepId m.2 = D.idBytes n.1.planDigest n.1.stepId n.2

def NeverOverwrites (s₀ : Session D) (cs : List (Command D)) : Prop :=
  Run.Along step (fun s c ↦ ∀ authorized request nowUnix token minter',
    c = .mint authorized request nowUnix → s.minter.mint authorized request nowUnix = .ok (token, minter') →
      s.minter.issued.get token.id = none) s₀ cs

theorem neverOverwrites_of_nodup {s : Session D} {cs : List (Command D)} (hreg : s.Registered)
    (h : ((issues (Run.after step s cs).history).map fun m ↦ m.1.id).Nodup) : NeverOverwrites s cs := by
  induction cs generalizing s with
  | nil => trivial
  | cons c cs ih =>
    refine ⟨?_, ih (hreg.step c) h⟩
    rintro authorized request nowUnix token minter' rfl hmint
    cases hget : s.minter.issued.get token.id with
    | none => rfl
    | some =>
      obtain ⟨newer, request', old, counter, older, hhist, hid, -⟩ := hreg _ _ hget
      have hold : (old, counter) ∈ issues s.history := by
        rw [mem_issues]; exact ⟨request', by rw [hhist]; simp⟩
      have hnew : issues (s.step (.mint authorized request nowUnix)).history =
          (token, minter'.counter) :: issues s.history := by
        simp [step, hmint, issues]
      have hnodup := h.sublist ((issues_suffix (s.step (.mint authorized request nowUnix)) cs).sublist.map _)
      rw [hnew, List.map_cons, List.nodup_cons] at hnodup
      exact absurd (List.mem_map.mpr ⟨_, hold, hid⟩) hnodup.1

theorem ids_nodup_iff (hn : Numbered l) (hhash : HashKeepsApart l) :
    (l.map fun m ↦ m.1.id).Nodup ↔ l.Pairwise fun later earlier ↦
      D.idBytes later.1.planDigest later.1.stepId later.2 ≠
        D.idBytes earlier.1.planDigest earlier.1.stepId earlier.2 := by
  rw [List.Nodup, List.pairwise_map]
  have hiff : ∀ m ∈ l, ∀ n ∈ l, m.1.id ≠ n.1.id ↔
      D.idBytes m.1.planDigest m.1.stepId m.2 ≠ D.idBytes n.1.planDigest n.1.stepId n.2 := by
    intro m hm n hn'
    rw [(hn.token hm).2, (hn.token hn').2]
    exact not_congr ⟨hhash m hm n hn', fun h ↦ by rw [Dialect.tokenId, Dialect.tokenId, h]⟩
  exact List.Pairwise.iff_of_mem fun {m n} hm hn' ↦ hiff m hm n hn'

end Session

section

variable {b c : ℕ} {s t : String}

theorem repr_length_mono (h : b ≤ c) : (toString b).length ≤ (toString c).length := by
  have hpos : 0 < (Nat.repr c).length := Nat.length_repr_pos
  have hc : c < 10 ^ (Nat.repr c).length := (Nat.length_repr_le_iff hpos).mp le_rfl
  exact (Nat.length_repr_le_iff hpos).mpr (lt_of_le_of_lt h hc)

theorem append_toString_eq_iff (h : b ≤ c) :
    s ++ toString b = t ++ toString c ↔ ∃ u, s = t ++ u ∧ toString c = u ++ toString b := by
  constructor
  · intro he
    have hl : s.toList ++ (toString b).toList = t.toList ++ (toString c).toList := by
      simpa using congrArg String.toList he
    rcases List.append_eq_append_iff.mp hl with ⟨u, ht, hb⟩ | ⟨u, hs, hc⟩
    · have hlen := repr_length_mono h
      have hu : u = [] := by
        have := congrArg List.length hb
        simp only [List.length_append, String.length_toList] at this
        exact List.length_eq_zero_iff.mp (by omega)
      subst hu
      refine ⟨"", ?_, ?_⟩
      · exact String.toList_inj.mp (by simpa using ht.symm)
      · exact String.toList_inj.mp (by simpa using hb.symm)
    · refine ⟨String.ofList u, ?_, ?_⟩
      · exact String.toList_inj.mp (by simpa using hs)
      · exact String.toList_inj.mp (by simpa using hc)
  · rintro ⟨u, rfl, hc⟩
    rw [hc, String.append_assoc]

/-- Under one plan, the id of the later mint is made from the bytes of the earlier
one: its counter begins with what the earlier step id has in excess. -/
def Js.Confusable (later earlier : (Js.dialect host).Held × ℕ) : Prop :=
  later.1.planDigest = earlier.1.planDigest ∧
    ∃ u, earlier.1.stepId = later.1.stepId ++ u ∧ toString later.2 = u ++ toString earlier.2

theorem Js.idBytes_eq_iff {d e : String} (hd : d.length = 64) (he : e.length = 64) :
    (Js.dialect host).idBytes d s b = (Js.dialect host).idBytes e t c ↔
      d = e ∧ s ++ toString b = t ++ toString c := by
  simp only [Dialect.idBytes, Js.dialect, ← utf8_append, utf8_injective.eq_iff]
  constructor
  · intro h
    have hl : d.toList ++ (s ++ toString b).toList = e.toList ++ (t ++ toString c).toList := by
      simpa using congrArg String.toList h
    have hlen : d.toList.length = e.toList.length := by
      rw [String.length_toList, String.length_toList, hd, he]
    obtain ⟨hde, hrest⟩ := List.append_inj hl hlen
    exact ⟨String.toList_inj.mp hde, String.toList_inj.mp hrest⟩
  · rintro ⟨rfl, h⟩
    rw [String.append_assoc, h, String.append_assoc]

theorem Rust.idBytes_inj {d e : String} (hb : b < 2 ^ 64) (hc : c < 2 ^ 64)
    (h : (Rust.dialect host).idBytes d s b = (Rust.dialect host).idBytes e t c) : b = c := by
  change utf8 d ++ utf8 s ++ le64 b = utf8 e ++ utf8 t ++ le64 c at h
  have hlen : (le64 b).length = (le64 c).length := by rw [le64_length, le64_length]
  exact le64_inj hb hc (List.append_inj' h hlen).2

theorem Js.advance_iterate (k : ℕ) : (Js.dialect host).advance^[k] 0 = min k (2 ^ 53) := by
  induction k with
  | zero => rfl
  | succ k ih =>
    rw [Function.iterate_succ_apply', ih]
    simp only [Js.dialect]
    split <;> omega

theorem Rust.advance_iterate (k : ℕ) : (Rust.dialect host).advance^[k] 0 = k % 2 ^ 64 := by
  induction k with
  | zero => rfl
  | succ k ih =>
    rw [Function.iterate_succ_apply', ih]
    simp only [Rust.dialect]
    omega

end

def Session.Ordered (D : Dialect host) (n : ℕ) (later earlier : D.Held × ℕ) : Prop :=
  ∃ i j, 0 < j ∧ j < i ∧ i ≤ n ∧ later.2 = D.advance^[i] 0 ∧ earlier.2 = D.advance^[j] 0

theorem Session.Numbered.ordered {D : Dialect host} {l : List (D.Held × ℕ)} (hn : Session.Numbered l) :
    l.Pairwise (Session.Ordered D l.length) := by
  induction l with
  | nil => exact .nil
  | cons m rest ih =>
    obtain ⟨token, counter⟩ := m
    refine .cons ?_ ?_
    · intro earlier hmem
      obtain ⟨j, hpos, hle, hj⟩ := hn.2.2.2.counter hmem
      exact ⟨rest.length + 1, j, hpos, by omega, by simp, hn.1, hj⟩
    · refine (ih hn.2.2.2).imp ?_
      rintro later earlier ⟨i, j, hpos, hlt, hle, hi, hj⟩
      exact ⟨i, j, hpos, hlt, by simp only [List.length_cons]; omega, hi, hj⟩

theorem Js.idBytes_ne_iff {n : ℕ} {later earlier : (Js.dialect host).Held × ℕ}
    (ho : Session.Ordered (Js.dialect host) n later earlier) (hl : later.1.planDigest.length = 64)
    (he : earlier.1.planDigest.length = 64) :
    (Js.dialect host).idBytes later.1.planDigest later.1.stepId later.2 ≠
      (Js.dialect host).idBytes earlier.1.planDigest earlier.1.stepId earlier.2 ↔
    ¬ Js.Confusable later earlier := by
  have hle : earlier.2 ≤ later.2 := by
    obtain ⟨i, j, -, hlt, -, hi, hj⟩ := ho
    rw [hi, hj, Js.advance_iterate, Js.advance_iterate]
    omega
  refine not_congr ?_
  rw [Js.idBytes_eq_iff hl he, Js.Confusable, ← append_toString_eq_iff hle]
  exact and_congr_right fun _ ↦ eq_comm

theorem Js.ids_nodup_iff {l : List ((Js.dialect host).Held × ℕ)} (hn : Session.Numbered l)
    (hhash : Session.HashKeepsApart l) :
    (l.map fun m ↦ m.1.id).Nodup ↔ l.Pairwise fun later earlier ↦ ¬ Js.Confusable later earlier := by
  rw [Session.ids_nodup_iff hn hhash]
  constructor
  · intro h
    exact (h.and hn.ordered).imp_of_mem fun hl he h ↦
      (Js.idBytes_ne_iff h.2 (hn.token hl).1 (hn.token he).1).mp h.1
  · intro h
    exact (h.and hn.ordered).imp_of_mem fun hl he h ↦
      (Js.idBytes_ne_iff h.2 (hn.token hl).1 (hn.token he).1).mpr h.1

theorem Rust.idBytes_ne {n : ℕ} (hfew : n < 2 ^ 64) {later earlier : (Rust.dialect host).Held × ℕ}
    (ho : Session.Ordered (Rust.dialect host) n later earlier) :
    (Rust.dialect host).idBytes later.1.planDigest later.1.stepId later.2 ≠
      (Rust.dialect host).idBytes earlier.1.planDigest earlier.1.stepId earlier.2 := by
  obtain ⟨i, j, -, hlt, hle, hi, hj⟩ := ho
  intro he
  rw [hi, hj, Rust.advance_iterate, Rust.advance_iterate] at he
  have hij := Rust.idBytes_inj (Nat.mod_lt _ (by norm_num)) (Nat.mod_lt _ (by norm_num)) he
  rw [Nat.mod_eq_of_lt (by omega), Nat.mod_eq_of_lt (by omega)] at hij
  omega

theorem Rust.ids_nodup {l : List ((Rust.dialect host).Held × ℕ)} (hn : Session.Numbered l)
    (hhash : Session.HashKeepsApart l) (hfew : l.length < 2 ^ 64) : (l.map fun m ↦ m.1.id).Nodup := by
  rw [Session.ids_nodup_iff hn hhash]
  exact hn.ordered.imp fun ho ↦ Rust.idBytes_ne hfew ho

section Sample

def samplePlan (L : Type) : Plan L :=
  ⟨"safe", [], ["s", "s1"].map fun id ↦
    ⟨id, "edit", ["src/a.rs", "write"], [], [], ⟨false, false, none⟩⟩⟩

def Js.sampleApproved : AuthorizedPlan Host.sample Number RawLimits :=
  ⟨samplePlan _, ⟨"owner", .ofRat 0, .ofRat 900⟩, _, rfl⟩

def Js.sampleSession : Session (Js.dialect Host.sample) :=
  ⟨⟨List.replicate 32 7, .empty, 0, none, by simp⟩, []⟩

theorem Js.sampleSession_fresh : Js.sampleSession.Fresh := ⟨rfl, rfl, rfl⟩

def Js.sampleRequest (stepId : String) (paths operations : List String) (uses : Number) :
    (Js.dialect Host.sample).Asked :=
  ⟨stepId, paths, operations, uses, Number.ofRat 600, none⟩

def Js.sampleMint (stepId : String) : Command (Js.dialect Host.sample) :=
  .mint Js.sampleApproved (Js.sampleRequest stepId ["src/a.rs"] ["READ"] (.ofRat 1)) (Number.ofRat 1)

def Js.sampleToken (request : (Js.dialect Host.sample).Asked) : (Js.dialect Host.sample).Held :=
  Js.sampleSession.minter.tokenFor Js.sampleApproved request none

def Rust.sampleSession : Session (Rust.dialect Host.sample) :=
  ⟨⟨List.replicate 32 7, .empty, 0, none, by simp⟩, []⟩

theorem Rust.sampleSession_fresh : Rust.sampleSession.Fresh := ⟨rfl, rfl, rfl⟩

def Rust.sampleApproved : AuthorizedPlan Host.sample Int64 Empty :=
  ⟨samplePlan _, ⟨"owner", 0, 900⟩, _, rfl⟩

def Rust.sampleRequest (stepId : String) : (Rust.dialect Host.sample).Asked :=
  ⟨stepId, ["src/a.rs"], [Rust.Operation.read], (1 : UInt32), (600 : Int64), none⟩

def Rust.sampleMint (stepId : String) : Command (Rust.dialect Host.sample) :=
  .mint Rust.sampleApproved (Rust.sampleRequest stepId) (1 : Int64)

end Sample

end Noesar.Capability
