import Noesar.Capability.Minter
import Noesar.Lib.Run

namespace Noesar.Capability

open Lib Lib.Framing

variable {host : Host}

inductive Event (D : Dialect host)
  | minted (request : D.Asked) (token : D.Held) (counter : ℕ)
  | spent (token : D.Held) (attempt : D.Tried) (nowUnix : D.Time)
  | revoked (tokenId : String)

inductive Command (D : Dialect host)
  | mint (authorized : D.Authorized) (request : D.Asked) (nowUnix : D.Time)
  | spend (token : D.Held) (attempt : D.Tried) (nowUnix : D.Time)
  | revoke (tokenId : String)

/-- A minter with what has happened to it, newest first. A refused call leaves
no event. -/
structure Session (D : Dialect host) where
  minter : TokenMinter D
  history : List (Event D)

namespace Session

variable {D : Dialect host}

def step (s : Session D) : Command D → Session D
  | .mint authorized request nowUnix =>
    match s.minter.mint authorized request nowUnix with
    | .ok (token, minter) => ⟨minter, .minted request token minter.counter :: s.history⟩
    | .error _ => s
  | .spend token attempt nowUnix =>
    match s.minter.spend token attempt nowUnix with
    | .ok (_, minter) => ⟨minter, .spent token attempt nowUnix :: s.history⟩
    | .error _ => s
  | .revoke tokenId =>
    match s.minter.revoke tokenId with
    | (true, minter) => ⟨minter, .revoked tokenId :: s.history⟩
    | (false, minter) => ⟨minter, s.history⟩

/-- The engine as it starts: nothing issued and nothing counted. -/
structure Fresh (s : Session D) : Prop where
  issued : s.minter.issued = InsertionMap.empty
  counter : s.minter.counter = 0
  history : s.history = []

def isRefused (s : Session D) : Command D → Bool
  | .mint authorized request nowUnix => !(s.minter.mint authorized request nowUnix).isOk
  | .spend token attempt nowUnix => !(s.minter.spend token attempt nowUnix).isOk
  | .revoke _ => false

theorem step_cases (s : Session D) (c : Command D) :
    (∃ authorized request nowUnix limits, c = .mint authorized request nowUnix ∧
      D.accept s.minter.ceiling authorized request nowUnix = .ok limits ∧
      s.step c = ⟨{ s.minter with
          counter := D.advance s.minter.counter
          issued := s.minter.issued.set (s.minter.tokenFor authorized request limits).id request.uses },
        .minted request (s.minter.tokenFor authorized request limits) (D.advance s.minter.counter) ::
          s.history⟩) ∨
    (∃ token attempt nowUnix left minter', c = .spend token attempt nowUnix ∧
      s.minter.Spends token attempt nowUnix left minter' ∧
      s.step c = ⟨minter', .spent token attempt nowUnix :: s.history⟩) ∨
    (∃ tokenId, c = .revoke tokenId ∧
      s.step c = ⟨{ s.minter with issued := s.minter.issued.delete tokenId },
        if s.minter.issued.has tokenId then .revoked tokenId :: s.history else s.history⟩) ∨
    (s.isRefused c = true ∧ s.step c = s) := by
  cases c with
  | mint authorized request nowUnix =>
    cases h : s.minter.mint authorized request nowUnix with
    | error => exact .inr (.inr (.inr ⟨by simp [isRefused, h, Except.isOk, Except.toBool], by simp [step, h]⟩))
    | ok r =>
      obtain ⟨token, minter⟩ := r
      obtain ⟨limits, haccept, htoken, hminter⟩ := TokenMinter.mint_ok h
      refine .inl ⟨authorized, request, nowUnix, limits, rfl, haccept, ?_⟩
      rw [step, h, ← htoken]
      simp [hminter]
  | spend token attempt nowUnix =>
    cases h : s.minter.spend token attempt nowUnix with
    | error => exact .inr (.inr (.inr ⟨by simp [isRefused, h, Except.isOk, Except.toBool], by simp [step, h]⟩))
    | ok r =>
      obtain ⟨left, minter⟩ := r
      refine .inr (.inl ⟨token, attempt, nowUnix, left, minter, rfl, TokenMinter.spend_ok_iff.mp h, ?_⟩)
      rw [step, h]
  | revoke tokenId =>
    refine .inr (.inr (.inl ⟨tokenId, rfl, ?_⟩))
    cases h : s.minter.issued.has tokenId <;> simp [step, TokenMinter.revoke, h]

def Live (history : List (Event D)) (tokenId : String) : Prop :=
  ∃ newer request token counter older, history = newer ++ .minted request token counter :: older ∧
    token.id = tokenId ∧ .revoked tokenId ∉ newer

theorem Live.cons {history : List (Event D)} {tokenId : String} {e : Event D}
    (he : e ≠ .revoked tokenId) (h : Live history tokenId) : Live (e :: history) tokenId := by
  obtain ⟨newer, request, token, counter, older, rfl, hid, hnot⟩ := h
  refine ⟨e :: newer, request, token, counter, older, rfl, hid, ?_⟩
  intro hmem
  rcases List.mem_cons.mp hmem with h | h
  · exact he h.symm
  · exact hnot h

def Registered (s : Session D) : Prop :=
  ∀ tokenId uses, s.minter.issued.get tokenId = some uses → Live s.history tokenId

theorem Fresh.registered {s : Session D} (h : s.Fresh) : s.Registered := by
  intro tokenId uses hget
  simp [h.issued] at hget

theorem Registered.step {s : Session D} (hs : s.Registered) (c : Command D) :
    (s.step c).Registered := by
  rcases s.step_cases c with ⟨authorized, request, nowUnix, limits, -, -, he⟩ |
    ⟨token, attempt, nowUnix, left, minter', -, hspend, he⟩ | ⟨revoked, -, he⟩ | ⟨-, he⟩
  · rw [he]
    intro tokenId uses hget
    by_cases hid : (s.minter.tokenFor authorized request limits).id = tokenId
    · exact ⟨[], request, _, _, s.history, rfl, hid, by simp⟩
    · simp only [InsertionMap.get_set_ne _ _ (Ne.symm hid)] at hget
      exact (hs tokenId uses hget).cons (by simp)
  · rw [he, hspend.after]
    intro tokenId uses hget
    refine Live.cons (by simp) ?_
    obtain ⟨usesRemaining, hheld, -, -⟩ := hspend.held
    by_cases hid : tokenId = token.id
    · exact hs tokenId usesRemaining (hid ▸ hheld)
    · exact hs tokenId uses (by simpa only [InsertionMap.get_set_ne _ _ hid] using hget)
  · rw [he]
    intro tokenId uses hget
    by_cases hid : tokenId = revoked
    · simp [hid] at hget
    · have hlive := hs tokenId uses (by simpa only [InsertionMap.get_delete_ne _ hid] using hget)
      dsimp only
      split
      · exact hlive.cons (by simpa using Ne.symm hid)
      · exact hlive
  · rw [he]
    exact hs

/-- The tokens of the history are the ones the requests were answered with. -/
structure Answers (request : D.Asked) (token : D.Held) : Prop where
  stepId : token.stepId = request.stepId
  paths : token.paths = request.paths
  operations : token.operations = request.operations
  expiresAtUnix : token.expiresAtUnix = request.expiresAtUnix
  usesGranted : token.usesGranted = request.uses

theorem answers_tokenFor (minter : TokenMinter D) (authorized : D.Authorized) (request : D.Asked)
    (limits : Option Limits) : Answers request (minter.tokenFor authorized request limits) :=
  ⟨rfl, rfl, rfl, rfl, rfl⟩

theorem minted_step {s : Session D} {c : Command D} {request : D.Asked} {token : D.Held} {counter : ℕ}
    (h : .minted request token counter ∈ (s.step c).history) :
    .minted request token counter ∈ s.history ∨
      ∃ authorized nowUnix limits, c = .mint authorized request nowUnix ∧
        D.accept s.minter.ceiling authorized request nowUnix = .ok limits ∧
        token = s.minter.tokenFor authorized request limits ∧ counter = D.advance s.minter.counter := by
  rcases s.step_cases c with ⟨authorized, request', nowUnix, limits, hc, haccept, he⟩ |
    ⟨_, _, _, _, _, -, -, he⟩ | ⟨revoked, -, he⟩ | ⟨-, he⟩
  · rw [he] at h
    rcases List.mem_cons.mp h with h | h
    · obtain ⟨rfl, rfl, rfl⟩ : request = request' ∧ token = _ ∧ counter = _ := by simpa using h
      exact .inr ⟨authorized, nowUnix, limits, hc, haccept, rfl, rfl⟩
    · exact .inl h
  · rw [he] at h
    exact .inl (by simpa using h)
  · rw [he] at h
    dsimp only at h
    split at h
    · exact .inl (by simpa using h)
    · exact .inl h
  · exact .inl (he ▸ h)

def issues (history : List (Event D)) : List (D.Held × ℕ) :=
  history.filterMap fun
    | .minted _ token counter => some (token, counter)
    | _ => none

theorem mem_issues {history : List (Event D)} {token : D.Held} {counter : ℕ} :
    (token, counter) ∈ issues history ↔ ∃ request, .minted request token counter ∈ history := by
  simp only [issues, List.mem_filterMap]
  constructor
  · rintro ⟨e, he, h⟩
    cases e with
    | minted request t c =>
      obtain ⟨rfl, rfl⟩ : t = token ∧ c = counter := by simpa using h
      exact ⟨request, he⟩
    | spent => simp at h
    | revoked => simp at h
  · rintro ⟨request, he⟩
    exact ⟨_, he, rfl⟩

theorem issues_step (s : Session D) (c : Command D) :
    (∃ authorized request nowUnix limits, c = .mint authorized request nowUnix ∧
      D.accept s.minter.ceiling authorized request nowUnix = .ok limits ∧
      issues (s.step c).history =
        (s.minter.tokenFor authorized request limits, D.advance s.minter.counter) :: issues s.history ∧
      (s.step c).minter.counter = D.advance s.minter.counter) ∨
    (issues (s.step c).history = issues s.history ∧ (s.step c).minter.counter = s.minter.counter) := by
  rcases s.step_cases c with ⟨authorized, request, nowUnix, limits, hc, haccept, he⟩ |
    ⟨_, _, _, _, _, -, hspend, he⟩ | ⟨revoked, -, he⟩ | ⟨-, he⟩
  · exact .inl ⟨authorized, request, nowUnix, limits, hc, haccept, by rw [he]; rfl, by rw [he]⟩
  · exact .inr ⟨by rw [he]; rfl, by rw [he, hspend.after]⟩
  · refine .inr ⟨?_, by rw [he]⟩
    rw [he]
    dsimp only
    split
    · rfl
    · rfl
  · exact .inr ⟨by rw [he], by rw [he]⟩

theorem issues_mint {s : Session D} {authorized : D.Authorized} {request : D.Asked} {nowUnix : D.Time}
    {limits : Option Limits} (h : D.accept s.minter.ceiling authorized request nowUnix = .ok limits) :
    issues (s.step (.mint authorized request nowUnix)).history =
      (s.minter.tokenFor authorized request limits, D.advance s.minter.counter) :: issues s.history := by
  simp [step, TokenMinter.mint_of_accept h, issues]

@[simp] theorem issues_spend (s : Session D) (token : D.Held) (attempt : D.Tried) (nowUnix : D.Time) :
    issues (s.step (.spend token attempt nowUnix)).history = issues s.history := by
  rcases s.issues_step (.spend token attempt nowUnix) with ⟨_, _, _, _, h, -⟩ | ⟨h, -⟩
  · cases h
  · exact h

theorem history_suffix (s : Session D) (cs : List (Command D)) :
    s.history <:+ (Run.after step s cs).history := by
  induction cs generalizing s with
  | nil => exact List.suffix_rfl
  | cons c cs ih =>
    refine List.IsSuffix.trans ?_ (ih (s.step c))
    rcases s.step_cases c with ⟨_, _, _, _, -, -, he⟩ | ⟨_, _, _, _, _, -, -, he⟩ | ⟨revoked, -, he⟩ | ⟨-, he⟩
    · rw [he]; exact List.suffix_cons _ _
    · rw [he]; exact List.suffix_cons _ _
    · rw [he]
      dsimp only
      split
      · exact List.suffix_cons _ _
      · exact List.suffix_rfl
    · rw [he]

theorem issues_suffix (s : Session D) (cs : List (Command D)) :
    issues s.history <:+ issues (Run.after step s cs).history :=
  (history_suffix s cs).filterMap _

end Session

end Noesar.Capability
