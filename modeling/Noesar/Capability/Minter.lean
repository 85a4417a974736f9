import Noesar.Capability.Plan
import Noesar.Lib.InsertionMap

namespace Noesar.Capability

open Lib Lib.Framing

structure Request (Operation Time Uses RequestLimits : Type) where
  stepId : String
  paths : List String
  operations : List Operation
  uses : Uses
  expiresAtUnix : Time
  limits : Option RequestLimits

structure Token (Operation Time Uses : Type) where
  id : String
  planDigest : String
  stepId : String
  paths : List String
  operations : List Operation
  expiresAtUnix : Time
  usesGranted : Uses
  limits : Option Limits
  mac : String

structure Attempt (Operation : Type) where
  path : String
  operation : Operation

/-- What the minter of the control plane and the minter of the Rust crate do not
share: how an operation, a time and a number of uses are represented, compared
and printed, how the counter moves and is hashed, and which requests are let
through. -/
structure Dialect (host : Host) where
  Operation : Type
  Time : Type
  Uses : Type
  StepLimits : Type
  RequestLimits : Type
  decideOperation : DecidableEq Operation
  /-- The text of an operation in the signature, and in a refusal. -/
  signedAs : Operation → String
  shownAs : Operation → String
  timeText : Time → String
  usesText : Uses → String
  /-- `now >= expiresAtUnix`. -/
  lapsed : Time → Time → Bool
  isSpent : Uses → Bool
  oneLess : Uses → Uses
  advance : ℕ → ℕ
  counterBytes : ℕ → Bytes
  accept : Option Limits → AuthorizedPlan host Time StepLimits →
    Request Operation Time Uses RequestLimits → Time → Except Refusal (Option Limits)

variable {host : Host}

def idHash (host : Host) (bytes : Bytes) : String :=
  String.ofList ((hex (host.sha256 bytes).toList).toList.take 32)

instance (D : Dialect host) : DecidableEq D.Operation := D.decideOperation

namespace Dialect

variable (D : Dialect host)

abbrev Authorized := AuthorizedPlan host D.Time D.StepLimits
abbrev Asked := Request D.Operation D.Time D.Uses D.RequestLimits
abbrev Held := Token D.Operation D.Time D.Uses
abbrev Tried := Attempt D.Operation

def signedFields (token : D.Held) : List String :=
  [token.id, token.planDigest, token.stepId] ++ token.paths ++ token.operations.map D.signedAs ++
    [D.timeText token.expiresAtUnix, D.usesText token.usesGranted, Isolation.canonicalLimits token.limits]

def sign (secret : Bytes) (token : D.Held) : String :=
  hex (host.hmac secret (feedAll (D.signedFields token))).toList

def idBytes (digest stepId : String) (counter : ℕ) : Bytes :=
  utf8 digest ++ utf8 stepId ++ D.counterBytes counter

def tokenId (digest stepId : String) (counter : ℕ) : String :=
  idHash host (D.idBytes digest stepId counter)

end Dialect

structure TokenMinter (D : Dialect host) where
  secret : Bytes
  issued : InsertionMap String D.Uses
  counter : ℕ
  ceiling : Option Limits
  secret_long : 32 ≤ secret.length

namespace TokenMinter

variable {D : Dialect host}

def refused (reason : String) : Refusal := ⟨.capabilityError, .refused, none, reason⟩

def tokenFor (minter : TokenMinter D) (authorized : D.Authorized) (request : D.Asked)
    (limits : Option Limits) : D.Held :=
  let unsigned : D.Held :=
    { id := D.tokenId authorized.digest request.stepId (D.advance minter.counter)
      planDigest := authorized.digest
      stepId := request.stepId
      paths := request.paths
      operations := request.operations
      expiresAtUnix := request.expiresAtUnix
      usesGranted := request.uses
      limits := limits
      mac := "" }
  { unsigned with mac := D.sign minter.secret unsigned }

def mint (minter : TokenMinter D) (authorized : D.Authorized) (request : D.Asked) (nowUnix : D.Time) :
    Except Refusal (D.Held × TokenMinter D) := do
  let limits ← D.accept minter.ceiling authorized request nowUnix
  let token := minter.tokenFor authorized request limits
  pure (token, { minter with
    counter := D.advance minter.counter
    issued := minter.issued.set token.id request.uses })

def spend (minter : TokenMinter D) (token : D.Held) (attempt : D.Tried) (nowUnix : D.Time) :
    Except Refusal (D.Uses × TokenMinter D) :=
  if D.sign minter.secret token ≠ token.mac then
    .error (refused "the token does not verify against this engine")
  else match minter.issued.get token.id with
    | none => .error (refused "this engine did not issue that token")
    | some usesRemaining =>
      if D.lapsed nowUnix token.expiresAtUnix then .error (refused "the token has expired")
      else if D.isSpent usesRemaining then .error (refused "the token is spent")
      else if attempt.path ∉ token.paths then
        .error (refused s!"path `{attempt.path}` is not granted by this token")
      else if attempt.operation ∉ token.operations then
        .error (refused s!"operation `{D.shownAs attempt.operation}` is not granted by this token")
      else .ok (D.oneLess usesRemaining,
        { minter with issued := minter.issued.set token.id (D.oneLess usesRemaining) })

def revoke (minter : TokenMinter D) (tokenId : String) : Bool × TokenMinter D :=
  (minter.issued.has tokenId, { minter with issued := minter.issued.delete tokenId })

variable {minter : TokenMinter D} {nowUnix : D.Time} {token : D.Held}

theorem mint_ok {minter' : TokenMinter D} {authorized : D.Authorized} {request : D.Asked}
    (h : minter.mint authorized request nowUnix = .ok (token, minter')) :
    ∃ limits, D.accept minter.ceiling authorized request nowUnix = .ok limits ∧
      token = minter.tokenFor authorized request limits ∧
      minter' = { minter with
        counter := D.advance minter.counter
        issued := minter.issued.set token.id request.uses } := by
  cases ha : D.accept minter.ceiling authorized request nowUnix with
  | error => simp [mint, ha, bind, Except.bind] at h
  | ok limits =>
    simp only [mint, ha, bind, Except.bind, pure, Except.pure, Except.ok.injEq, Prod.mk.injEq] at h
    exact ⟨limits, rfl, h.1.symm, by rw [← h.1, h.2]⟩

theorem mint_of_accept {minter : TokenMinter D} {authorized : D.Authorized} {request : D.Asked}
    {nowUnix : D.Time} {limits : Option Limits}
    (h : D.accept minter.ceiling authorized request nowUnix = .ok limits) :
    minter.mint authorized request nowUnix = .ok (minter.tokenFor authorized request limits, { minter with
      counter := D.advance minter.counter
      issued := minter.issued.set (minter.tokenFor authorized request limits).id request.uses }) := by
  rw [mint, h]
  rfl

/-- Everything a successful spend has checked, and all it changes. -/
structure Spends (minter : TokenMinter D) (token : D.Held) (attempt : D.Tried) (nowUnix : D.Time)
    (left : D.Uses) (minter' : TokenMinter D) : Prop where
  verifies : D.sign minter.secret token = token.mac
  held : ∃ usesRemaining, minter.issued.get token.id = some usesRemaining ∧
    D.isSpent usesRemaining = false ∧ left = D.oneLess usesRemaining
  inTime : D.lapsed nowUnix token.expiresAtUnix = false
  path : attempt.path ∈ token.paths
  operation : attempt.operation ∈ token.operations
  after : minter' = { minter with issued := minter.issued.set token.id left }

theorem spend_ok_iff {minter' : TokenMinter D} {attempt : D.Tried} {left : D.Uses} :
    minter.spend token attempt nowUnix = .ok (left, minter') ↔
      minter.Spends token attempt nowUnix left minter' := by
  constructor
  · intro h
    unfold spend at h
    split at h
    · cases h
    next hmac =>
      split at h
      · cases h
      next usesRemaining hget =>
        split_ifs at h with hlapsed hspent hpath hoperation
        cases h
        exact ⟨not_not.mp hmac, ⟨usesRemaining, hget, Bool.eq_false_of_not_eq_true hspent, rfl⟩,
          Bool.eq_false_of_not_eq_true hlapsed, hpath, hoperation, rfl⟩
  · rintro ⟨hmac, ⟨usesRemaining, hget, hspent, rfl⟩, hlapsed, hpath, hoperation, rfl⟩
    simp [spend, hmac, hget, hspent, hlapsed, hpath, hoperation]

theorem spend_isOk_iff {attempt : D.Tried} :
    (minter.spend token attempt nowUnix).isOk = true ↔
      ∃ left minter', minter.Spends token attempt nowUnix left minter' := by
  simp only [← spend_ok_iff]
  cases minter.spend token attempt nowUnix with
  | error => simp [Except.isOk, Except.toBool]
  | ok r => simpa [Except.isOk, Except.toBool] using ⟨r.1, r.2, rfl⟩

end TokenMinter

end Noesar.Capability
