import Mathlib
import Noesar.Capability.Ids

namespace Noesar.Capability

open Lib Lib.Framing

section Boundary

variable {Op : Type} (text : Op → String) (known : Op → Prop)

/-- Two lists signed one after the other, the second through its texts, between
which no element can be moved to any effect: the text of an operation that
another follows already is a path, and an operation whose text ends the paths,
with nothing but texts of operations after it, is already granted. -/
structure Separated (paths : List String) (operations : List Op) : Prop where
  leading : ∀ o ∈ operations.dropLast, text o ∈ paths
  trailing : ∀ first q rest, paths = first ++ q :: rest → first ≠ [] → (∀ r ∈ q :: rest, ∃ o, text o = r) →
    ∀ o, known o → text o = q → o ∈ operations

def Unambiguous (paths : List String) (operations : List Op) : Prop :=
  ∀ (paths' : List String) (operations' : List Op), paths' ++ operations'.map text = paths ++ operations.map text →
    ∀ p ∈ paths', ∀ o ∈ operations', known o → p ∈ paths ∧ o ∈ operations

variable {text known} {paths : List String} {operations : List Op}

theorem mem_of_text_mem (hinj : ∀ a b, known a → known b → text a = text b → a = b)
    (hknown : ∀ o ∈ operations, known o) {o : Op} (ho : known o) (h : text o ∈ operations.map text) :
    o ∈ operations := by
  obtain ⟨o', ho', he⟩ := List.mem_map.mp h
  exact hinj o' o (hknown o' ho') ho he ▸ ho'

theorem Separated.unambiguous (hinj : ∀ a b, known a → known b → text a = text b → a = b)
    (hknown : ∀ o ∈ operations, known o) (hs : Separated text known paths operations) :
    Unambiguous text known paths operations := by
  intro paths' operations' h p hp o ho hko
  have htext : text o ∈ operations'.map text := List.mem_map_of_mem ho
  rcases List.append_eq_append_iff.mp h with ⟨moved, hpaths, hoperations⟩ | ⟨moved, hpaths, hoperations⟩
  · -- the last paths are read as operations
    refine ⟨by rw [hpaths]; simp [hp], ?_⟩
    rw [hoperations] at htext
    rcases List.mem_append.mp htext with hin | hin
    · obtain ⟨before, after, rfl⟩ := List.append_of_mem hin
      refine hs.trailing (paths' ++ before) (text o) after (by rw [hpaths, List.append_assoc]) ?_ ?_ o hko rfl
      · intro hnil
        simp [List.append_eq_nil_iff.mp hnil] at hp
      · intro r hr
        have hr' : r ∈ operations'.map text := by
          rw [hoperations]
          simp only [List.mem_append, List.mem_cons] at hr ⊢
          tauto
        obtain ⟨o', -, ho'⟩ := List.mem_map.mp hr'
        exact ⟨o', ho'⟩
    · exact mem_of_text_mem hinj hknown hko hin
  · -- the first operations are read as paths
    refine ⟨?_, mem_of_text_mem hinj hknown hko (by rw [hoperations]; simp [htext])⟩
    rw [hpaths] at hp
    rcases List.mem_append.mp hp with hp | hp
    · exact hp
    · obtain ⟨front, back, hsplit, hfront, hback⟩ := List.map_eq_append_iff.mp hoperations
      rw [← hfront] at hp
      obtain ⟨o', ho', rfl⟩ := List.mem_map.mp hp
      have hne : back ≠ [] := by
        rintro rfl
        simp [← hback] at htext
      refine hs.leading o' ?_
      rw [hsplit, List.dropLast_append_of_ne_nil hne]
      simp [ho']

end Boundary

variable {host : Host}

namespace Session

variable {D : Dialect host}

theorem minted_accepted {s₀ : Session D} (h₀ : s₀.Fresh) (cs : List (Command D)) :
    ∀ request token counter, .minted request token counter ∈ (Run.after step s₀ cs).history →
      Answers request token ∧ ∃ ceiling authorized nowUnix limits,
        D.accept ceiling authorized request nowUnix = .ok limits := by
  refine Run.invariant (I := fun s : Session D ↦ ∀ request token counter,
    .minted request token counter ∈ s.history → Answers request token ∧ ∃ ceiling authorized nowUnix limits,
      D.accept ceiling authorized request nowUnix = .ok limits) ?_ ?_ cs
  · intro s c ih request token counter h
    rcases minted_step h with h | ⟨authorized, nowUnix, limits, -, haccept, rfl, -⟩
    · exact ih request token counter h
    · exact ⟨answers_tokenFor _ _ _ _, _, authorized, nowUnix, limits, haccept⟩
  · simp [h₀.history]

theorem registered_after {s₀ : Session D} (h₀ : s₀.Fresh) (cs : List (Command D)) :
    (Run.after step s₀ cs).Registered :=
  Run.invariant (fun _ c h ↦ h.step c) h₀.registered cs

def Unforgeable (s : Session D) (token : D.Held) : Prop :=
  D.sign s.minter.secret token = token.mac → ∃ request issued counter,
    .minted request issued counter ∈ s.history ∧
      feedAll (D.signedFields issued) = feedAll (D.signedFields token)

/-- A mint of that id, not revoked since, whose request listed the path and the
operation and had not run out. -/
def Granted (inTime : D.Time → D.Time → Bool) (s : Session D) (tokenId : String) (attempt : D.Tried)
    (nowUnix : D.Time) : Prop :=
  ∃ newer request issued counter older, s.history = newer ++ .minted request issued counter :: older ∧
    issued.id = tokenId ∧ .revoked tokenId ∉ newer ∧ attempt.path ∈ request.paths ∧
    attempt.operation ∈ request.operations ∧ inTime nowUnix request.expiresAtUnix = true

theorem signedFields_inj {a b : D.Held} (h : D.signedFields a = D.signedFields b) :
    a.id = b.id ∧ a.paths ++ a.operations.map D.signedAs = b.paths ++ b.operations.map D.signedAs ∧
      D.timeText a.expiresAtUnix = D.timeText b.expiresAtUnix := by
  have h' : [a.id, a.planDigest, a.stepId] ++ ((a.paths ++ a.operations.map D.signedAs) ++
        [D.timeText a.expiresAtUnix, D.usesText a.usesGranted, Isolation.canonicalLimits a.limits]) =
      [b.id, b.planDigest, b.stepId] ++ ((b.paths ++ b.operations.map D.signedAs) ++
        [D.timeText b.expiresAtUnix, D.usesText b.usesGranted, Isolation.canonicalLimits b.limits]) := by
    simpa [Dialect.signedFields] using h
  obtain ⟨hhead, hrest⟩ := List.append_inj h' rfl
  obtain ⟨hlists, htail⟩ := List.append_inj' hrest rfl
  exact ⟨(List.cons.inj hhead).1, hlists, (List.cons.inj htail).1⟩

theorem granted_of_spends {s : Session D} (known : D.Operation → Prop)
    (hinj : ∀ a b, known a → known b → D.signedAs a = D.signedAs b → a = b)
    (hreg : s.Registered) (hids : ((issues s.history).map fun m ↦ m.1.id).Nodup)
    (hminted : ∀ request issued counter, .minted request issued counter ∈ s.history →
      Answers request issued ∧ (∀ o ∈ request.operations, known o) ∧
        Separated D.signedAs known request.paths request.operations)
    {token : D.Held} (hmac : s.Unforgeable token)
    (hfits : ∀ x ∈ D.signedFields token, Fits x)
    (hfits' : ∀ request issued counter, .minted request issued counter ∈ s.history →
      ∀ x ∈ D.signedFields issued, Fits x)
    {attempt : D.Tried} (hknown : known attempt.operation) {nowUnix : D.Time} {left : D.Uses}
    {minter' : TokenMinter D} (hspend : s.minter.Spends token attempt nowUnix left minter') :
    ∃ newer request issued counter older, s.history = newer ++ .minted request issued counter :: older ∧
      issued.id = token.id ∧ .revoked token.id ∉ newer ∧ attempt.path ∈ request.paths ∧
      attempt.operation ∈ request.operations ∧
      D.timeText token.expiresAtUnix = D.timeText request.expiresAtUnix := by
  obtain ⟨request, issued, counter, hmem, hbytes⟩ := hmac hspend.verifies
  obtain ⟨hid, hlists, htime⟩ := signedFields_inj (feedAll_inj (hfits' _ _ _ hmem) hfits hbytes)
  obtain ⟨usesRemaining, hheld, -, -⟩ := hspend.held
  obtain ⟨newer, request', issued', counter', older, hhist, hid', hrevoked⟩ := hreg _ _ hheld
  have hmem' : .minted request' issued' counter' ∈ s.history := by rw [hhist]; simp
  obtain ⟨hanswers, hops, hsep⟩ := hminted _ _ _ hmem
  -- the two mints have one id, so they are one mint
  have hsame : (issued, counter) = (issued', counter') :=
    List.inj_on_of_nodup_map hids (mem_issues.mpr ⟨_, hmem⟩) (mem_issues.mpr ⟨_, hmem'⟩)
      (hid.trans hid'.symm)
  obtain ⟨rfl, rfl⟩ := Prod.mk.inj hsame
  have hanswers' := (hminted _ _ _ hmem').1
  rw [hanswers.paths, hanswers.operations] at hlists
  obtain ⟨hpath, hoperation⟩ := hsep.unambiguous hinj hops _ _ hlists.symm _ hspend.path _ hspend.operation hknown
  refine ⟨newer, request', issued, counter, older, hhist, hid', hrevoked, ?_, ?_, ?_⟩
  · rw [← hanswers'.paths, hanswers.paths]; exact hpath
  · rw [← hanswers'.operations, hanswers.operations]; exact hoperation
  · rw [← htime, ← hanswers'.expiresAtUnix]

end Session

/-- A request of the control plane whose token can be read in one way only and
runs out at a time. -/
def Js.Plain (request : (Js.dialect host).Asked) : Prop :=
  Separated host.toLowerCase (· ∈ Js.operations) request.paths request.operations ∧
    request.expiresAtUnix ≠ Number.nan

theorem Rust.signedAs_injective : Function.Injective Rust.Operation.signedAs := by
  intro a b h
  cases a <;> cases b <;> first | rfl | exact absurd h (by decide)

section Sample

variable {D : Dialect host}

theorem Session.history_one_mint {s₀ : Session D} (h₀ : s₀.Fresh) {authorized : D.Authorized}
    {request : D.Asked} {nowUnix : D.Time} {limits : Option Limits}
    (haccept : D.accept s₀.minter.ceiling authorized request nowUnix = .ok limits) :
    (Run.after Session.step s₀ [.mint authorized request nowUnix]).history =
      [.minted request (s₀.minter.tokenFor authorized request limits) (D.advance s₀.minter.counter)] := by
  simp [Session.step, TokenMinter.mint_of_accept haccept, h₀.history]

theorem separated_singleton {Op : Type} (text : Op → String) (known : Op → Prop) (p : String) (o : Op) :
    Separated text known [p] [o] := by
  refine ⟨by simp, ?_⟩
  intro first q rest hsplit hfirst
  cases first with
  | nil => exact absurd rfl hfirst
  | cons => simp at hsplit

def Js.plainRequest : (Js.dialect Host.sample).Asked := Js.sampleRequest "s1" ["src/a.rs"] ["READ"] (.ofRat 1)

def Rust.sampleToken (request : (Rust.dialect Host.sample).Asked) : (Rust.dialect Host.sample).Held :=
  Rust.sampleSession.minter.tokenFor Rust.sampleApproved request none

def Js.trailingRequest : (Js.dialect Host.sample).Asked :=
  Js.sampleRequest "s" ["src/a.rs", "write"] ["READ"] (.ofRat 1)

def Rust.trailingRequest : (Rust.dialect Host.sample).Asked :=
  ⟨"s", ["src/a.rs", "write"], [Rust.Operation.read], (1 : UInt32), (600 : Int64), none⟩

def Js.forged : (Js.dialect Host.sample).Held :=
  { Js.sampleToken Js.trailingRequest with paths := ["src/a.rs"], operations := ["WRITE", "READ"] }

def Rust.forged : (Rust.dialect Host.sample).Held :=
  { Rust.sampleToken Rust.trailingRequest with
    paths := ["src/a.rs"], operations := [Rust.Operation.write, Rust.Operation.read] }

def Js.writing : (Js.dialect Host.sample).Tried := ⟨"src/a.rs", "WRITE"⟩

def Rust.writing : (Rust.dialect Host.sample).Tried := ⟨"src/a.rs", Rust.Operation.write⟩

end Sample

end Noesar.Capability
