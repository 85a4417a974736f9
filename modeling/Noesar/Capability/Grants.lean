import Mathlib
import Noesar.Capability.Ids

namespace Noesar.Capability

open Lib Lib.Framing

variable {host : Host}

/-- What the registry keeps of a token beside the counter of its uses. -/
structure Description where
  stepId : String
  planDigest : String
  paths : List String
  operations : List String
  expiresAtUnix : Number
  usesGranted : Number
  issuedAtUnix : Number

/-- An entry of the registry. A spend writes one that has the counter only. -/
structure Entry where
  usesRemaining : Number
  described : Option Description

/-- A grant as it is shown, where a member that the entry does not have is not there. -/
structure Grant where
  tokenId : String
  stepId : Option String
  planDigest : Option String
  paths : List String
  operations : List String
  expiresAtUnix : Option Number
  usesGranted : Option Number
  usesRemaining : Number
  issuedAtUnix : Option Number
  expired : Option Bool

def Description.of (token : (Js.dialect host).Held) (nowUnix : Number) : Description :=
  ⟨token.stepId, token.planDigest, token.paths, token.operations, token.expiresAtUnix, token.usesGranted, nowUnix⟩

/-- The minter of the control plane with its whole registry. -/
structure Engine (host : Host) where
  secret : Bytes
  issued : InsertionMap String Entry
  counter : ℕ
  ceiling : Option Limits
  secret_long : 32 ≤ secret.length

namespace Engine

def minter (e : Engine host) : TokenMinter (Js.dialect host) :=
  ⟨e.secret, e.issued.map Entry.usesRemaining, e.counter, e.ceiling, e.secret_long⟩

def mint (e : Engine host) (authorized : (Js.dialect host).Authorized) (request : (Js.dialect host).Asked)
    (nowUnix : Number) : Except Refusal ((Js.dialect host).Held × Engine host) := do
  let limits ← Js.accept e.ceiling authorized request nowUnix
  let token := e.minter.tokenFor authorized request limits
  pure (token, { e with
    counter := (Js.dialect host).advance e.counter
    issued := e.issued.set token.id ⟨request.uses, some (.of token nowUnix)⟩ })

def spend (e : Engine host) (token : (Js.dialect host).Held) (attempt : (Js.dialect host).Tried) (nowUnix : Number) :
    Except Refusal (Number × Engine host) := do
  let (left, _) ← e.minter.spend token attempt nowUnix
  pure (left, { e with issued := e.issued.set token.id ⟨left, none⟩ })

def revoke (e : Engine host) (tokenId : String) : Bool × Engine host :=
  (e.issued.has tokenId, { e with issued := e.issued.delete tokenId })

/-- The uses of an entry are not `<= 0`. -/
def listed (e : String × Entry) : Bool := !e.2.usesRemaining.le Number.zero

def shown (nowUnix : Option Number) (e : String × Entry) : Grant where
  tokenId := e.1
  stepId := e.2.described.map Description.stepId
  planDigest := e.2.described.map Description.planDigest
  paths := (e.2.described.map Description.paths).getD []
  operations := (e.2.described.map Description.operations).getD []
  expiresAtUnix := e.2.described.map Description.expiresAtUnix
  usesGranted := e.2.described.map Description.usesGranted
  usesRemaining := e.2.usesRemaining
  issuedAtUnix := e.2.described.map Description.issuedAtUnix
  -- `now >= undefined` is false.
  expired := nowUnix.map fun now ↦ match e.2.described with
    | some described => described.expiresAtUnix.le now
    | none => false

def grant (e : Engine host) (tokenId : String) (nowUnix : Option Number) : Option Grant :=
  match e.issued.get tokenId with
  | none => none
  | some state => if state.usesRemaining.le Number.zero then none else some (shown nowUnix (tokenId, state))

def grants (e : Engine host) (nowUnix : Option Number) : List Grant :=
  e.issued.keys.filterMap fun tokenId ↦ e.grant tokenId nowUnix

section

variable {e : Engine host} {authorized : (Js.dialect host).Authorized} {request : (Js.dialect host).Asked}
  {nowUnix : Number} {token : (Js.dialect host).Held} {attempt : (Js.dialect host).Tried} {limits : Option Limits}
  {tokenId : String}

theorem minter_issued {issued : InsertionMap String Entry} {uses : InsertionMap String Number} (counter : ℕ)
    (h : issued.map Entry.usesRemaining = uses) :
    ({ e with issued := issued, counter := counter } : Engine host).minter =
      { e.minter with issued := uses, counter := counter } := by
  subst h
  rfl

theorem minter_set (counter : ℕ) (k : String) (v : Entry) :
    ({ e with issued := e.issued.set k v, counter := counter } : Engine host).minter =
      { e.minter with issued := e.minter.issued.set k v.usesRemaining, counter := counter } :=
  minter_issued counter (InsertionMap.map_set Entry.usesRemaining e.issued k v)

theorem minter_delete (k : String) : ({ e with issued := e.issued.delete k } : Engine host).minter =
    { e.minter with issued := e.minter.issued.delete k } :=
  minter_issued e.counter (InsertionMap.map_delete Entry.usesRemaining e.issued k)

theorem minter_get (k : String) : e.minter.issued.get k = (e.issued.get k).map Entry.usesRemaining :=
  InsertionMap.get_map Entry.usesRemaining e.issued k

theorem mint_minter : (e.mint authorized request nowUnix).map (fun r ↦ (r.1, r.2.minter)) =
    e.minter.mint authorized request nowUnix := by
  cases h : Js.accept e.ceiling authorized request nowUnix with
  | error =>
    unfold mint TokenMinter.mint
    rw [h]
    change _ = Js.accept e.ceiling authorized request nowUnix >>= _
    rw [h]
    rfl
  | ok limits =>
    have haccept : (Js.dialect host).accept e.minter.ceiling authorized request nowUnix = .ok limits := h
    rw [TokenMinter.mint_of_accept haccept, mint, h]
    exact congrArg (fun minter ↦ Except.ok (_, minter)) (minter_set _ _ _)

theorem spend_minter : (e.spend token attempt nowUnix).map (fun r ↦ (r.1, r.2.minter)) =
    e.minter.spend token attempt nowUnix := by
  rw [spend]
  cases h : e.minter.spend token attempt nowUnix with
  | error => rfl
  | ok r =>
    obtain ⟨left, minter'⟩ := r
    rw [(TokenMinter.spend_ok_iff.mp h).after]
    exact congrArg (fun minter ↦ Except.ok (_, minter)) (minter_set _ _ _)

theorem revoke_minter : ((e.revoke tokenId).1, (e.revoke tokenId).2.minter) = e.minter.revoke tokenId := by
  have hhas : e.minter.issued.has tokenId = e.issued.has tokenId := by
    rw [InsertionMap.has, InsertionMap.has, minter_get]
    exact Option.isSome_map
  unfold TokenMinter.revoke
  rw [hhas]
  exact congrArg (Prod.mk _) (minter_delete _)

theorem mint_ok (h : Js.accept e.ceiling authorized request nowUnix = .ok limits) :
    e.mint authorized request nowUnix = .ok (e.minter.tokenFor authorized request limits, { e with
      counter := (Js.dialect host).advance e.counter
      issued := e.issued.set (e.minter.tokenFor authorized request limits).id
        ⟨request.uses, some (.of (e.minter.tokenFor authorized request limits) nowUnix)⟩ }) := by
  rw [mint, h]
  rfl

theorem mint_error {refusal : Refusal} (h : Js.accept e.ceiling authorized request nowUnix = .error refusal) :
    e.mint authorized request nowUnix = .error refusal := by
  rw [mint, h]
  rfl

theorem spend_error {refusal : Refusal} (h : e.minter.spend token attempt nowUnix = .error refusal) :
    e.spend token attempt nowUnix = .error refusal := by
  rw [spend, h]
  rfl

theorem spend_ok {left : Number} {minter' : TokenMinter (Js.dialect host)}
    (h : e.minter.spend token attempt nowUnix = .ok (left, minter')) :
    ∃ state, e.issued.get token.id = some state ∧ left = state.usesRemaining.decrement ∧
      e.spend token attempt nowUnix = .ok (left, { e with issued := e.issued.set token.id ⟨left, none⟩ }) := by
  obtain ⟨usesRemaining, hget, _, hleft⟩ := (TokenMinter.spend_ok_iff.mp h).held
  obtain ⟨state, hstate, huses⟩ := Option.map_eq_some_iff.mp ((minter_get token.id).symm.trans hget)
  refine ⟨state, hstate, ?_, ?_⟩
  · rw [hleft, huses]
    rfl
  · rw [spend, h]
    rfl

theorem grant_eq (nowUnix : Option Number) : e.grant tokenId nowUnix =
    (e.issued.get tokenId).bind fun state ↦
      if listed (tokenId, state) then some (shown nowUnix (tokenId, state)) else none := by
  unfold grant listed
  cases e.issued.get tokenId with
  | none => rfl
  | some state =>
    cases h : state.usesRemaining.le Number.zero with
    | true => simp [h]
    | false => simp [h]

theorem grants_eq (nowUnix : Option Number) :
    e.grants nowUnix = (e.issued.entries.filter listed).map (shown nowUnix) := by
  rw [grants, InsertionMap.keys, List.filterMap_map, ← List.filterMap_eq_map, ← List.filterMap_eq_filter,
    List.filterMap_filterMap]
  apply List.filterMap_congr
  rintro ⟨tokenId, state⟩ hmem
  rw [Function.comp_apply, grant_eq, InsertionMap.get_of_mem hmem]
  cases h : listed (tokenId, state) with
  | true | false => simp [Option.guard, h]

theorem grant_eq_find (tokenId : String) (nowUnix : Option Number) :
    e.grant tokenId nowUnix = (e.grants nowUnix).find? fun grant ↦ grant.tokenId = tokenId := by
  have hkeys : ((e.issued.entries.filter listed).map (shown nowUnix)).find? (fun grant ↦ grant.tokenId = tokenId) =
      ((e.issued.entries.filter listed).find? fun entry ↦ entry.1 = tokenId).map (shown nowUnix) := List.find?_map
  rw [grants_eq, hkeys, grant_eq, InsertionMap.find?_filter_key e.issued.nodup, InsertionMap.get]
  cases InsertionMap.lookup tokenId e.issued.entries with
  | none => rfl
  | some state =>
    cases h : listed (tokenId, state) with
    | true => simp [h]
    | false => simp [h]

end

end Engine

def usesLeft : Number → ℕ → Bool
  | .finite x, spends => decide ((spends : ℚ) < x.val)
  | .infinity, _ => true
  | _, _ => false

def Leaves : Number → ℕ → Number → Prop
  | .finite x, spends, left => ∃ y, left = .finite y ∧ y.val = x.val - spends
  | .infinity, _, left => left = .infinity
  | _, _, _ => False

/-- A token as it was minted, with what has become of it since. -/
structure Record (host : Host) where
  token : (Js.dialect host).Held
  issuedAtUnix : Number
  spends : ℕ
  revoked : Bool

namespace Record

def live (r : Record host) : Bool := !r.revoked && usesLeft r.token.usesGranted r.spends

def spendUnder (tokenId : String) (r : Record host) : Record host :=
  if r.token.id = tokenId then { r with spends := r.spends + 1 } else r

def revokeUnder (tokenId : String) (r : Record host) : Record host :=
  if r.token.id = tokenId then { r with revoked := true } else r

end Record

/-- A grant says of a token what its mint said, and how many uses it has left. -/
structure Describes (nowUnix : Option Number) (record : Record host) (grant : Grant) : Prop where
  tokenId : grant.tokenId = record.token.id
  stepId : grant.stepId = some record.token.stepId
  planDigest : grant.planDigest = some record.token.planDigest
  paths : grant.paths = record.token.paths
  operations : grant.operations = record.token.operations
  expiresAtUnix : grant.expiresAtUnix = some record.token.expiresAtUnix
  usesGranted : grant.usesGranted = some record.token.usesGranted
  usesRemaining : Leaves record.token.usesGranted record.spends grant.usesRemaining
  issuedAtUnix : grant.issuedAtUnix = some record.issuedAtUnix
  expired : grant.expired = nowUnix.map fun now ↦ record.token.expiresAtUnix.le now

/-- An engine with every token it has minted, in the order of the mints. -/
structure Watched (host : Host) where
  engine : Engine host
  records : List (Record host)

namespace Watched

open Engine InsertionMap

def step (w : Watched host) : Command (Js.dialect host) → Watched host
  | .mint authorized request nowUnix =>
    match w.engine.mint authorized request nowUnix with
    | .ok (token, engine) => ⟨engine, w.records ++ [⟨token, nowUnix, 0, false⟩]⟩
    | .error _ => w
  | .spend token attempt nowUnix =>
    match w.engine.spend token attempt nowUnix with
    | .ok (_, engine) => ⟨engine, w.records.map (Record.spendUnder token.id)⟩
    | .error _ => w
  | .revoke tokenId => ⟨(w.engine.revoke tokenId).2, w.records.map (Record.revokeUnder tokenId)⟩

structure Fresh (w : Watched host) : Prop where
  issued : w.engine.issued = InsertionMap.empty
  counter : w.engine.counter = 0
  records : w.records = []

/-- The grants are those of the tokens minted, not revoked and with uses left, each once and in the order of the mints,
and each of them is described as its mint says. One grant asked for is described as in the list. -/
structure Faithful (w : Watched host) : Prop where
  listed : ∀ nowUnix, List.Forall₂ (Describes nowUnix) (w.records.filter Record.live) (w.engine.grants nowUnix)
  agrees : ∀ tokenId nowUnix,
    w.engine.grant tokenId nowUnix = (w.engine.grants nowUnix).find? fun grant ↦ grant.tokenId = tokenId

/-- A mint takes an id that no entry with uses left is held under or after, and a spend is of a token with one use left
at most. -/
def Kept (w : Watched host) : Command (Js.dialect host) → Prop
  | .mint authorized request nowUnix => ∀ limits, Js.accept w.engine.ceiling authorized request nowUnix = .ok limits →
      LastAmong Engine.listed (w.engine.minter.tokenFor authorized request limits).id w.engine.issued.entries
  | .spend token attempt nowUnix => (w.engine.minter.spend token attempt nowUnix).isOk = true →
      ∀ state, w.engine.issued.get token.id = some state → state.usesRemaining.le (.ofRat 1) = true
  | .revoke _ => True

section

variable {w : Watched host} {c : Command (Js.dialect host)} {records : List (Record host)}

variable {authorized : (Js.dialect host).Authorized} {request : (Js.dialect host).Asked} {limits : Option Limits}
  {uses : Number} {tokenId : String} {r : Record host}

theorem step_mint {nowUnix : (Js.dialect host).Time}
    (h : Js.accept w.engine.ceiling authorized request nowUnix = .ok limits) :
    (w.step (.mint authorized request nowUnix)).engine.issued =
        w.engine.issued.set (w.engine.minter.tokenFor authorized request limits).id
          ⟨request.uses, some (.of (w.engine.minter.tokenFor authorized request limits) nowUnix)⟩ ∧
      (w.step (.mint authorized request nowUnix)).records =
        w.records ++ [⟨w.engine.minter.tokenFor authorized request limits, nowUnix, 0, false⟩] := by
  rw [step, Engine.mint_ok h]
  exact ⟨rfl, rfl⟩

theorem step_cases (w : Watched host) (c : Command (Js.dialect host)) :
    (∃ authorized request nowUnix limits, c = .mint authorized request nowUnix ∧
      Js.accept w.engine.ceiling authorized request nowUnix = .ok limits ∧
      (w.step c).engine.issued = w.engine.issued.set (w.engine.minter.tokenFor authorized request limits).id
        ⟨request.uses, some (.of (w.engine.minter.tokenFor authorized request limits) nowUnix)⟩ ∧
      (w.step c).records = w.records ++ [⟨w.engine.minter.tokenFor authorized request limits, nowUnix, 0, false⟩]) ∨
    (∃ token attempt nowUnix state, c = .spend token attempt nowUnix ∧
      (w.engine.minter.spend token attempt nowUnix).isOk = true ∧ w.engine.issued.get token.id = some state ∧
      (w.step c).engine.issued = w.engine.issued.set token.id ⟨state.usesRemaining.decrement, none⟩ ∧
      (w.step c).records = w.records.map (Record.spendUnder token.id)) ∨
    (∃ tokenId, c = .revoke tokenId ∧ (w.step c).engine.issued = w.engine.issued.delete tokenId ∧
      (w.step c).records = w.records.map (Record.revokeUnder tokenId)) ∨
    (w.step c = w ∧ w.Kept c) := by
  cases c with
  | mint authorized request nowUnix =>
    cases h : Js.accept w.engine.ceiling authorized request nowUnix with
    | error =>
      refine .inr (.inr (.inr ⟨?_, ?_⟩))
      · rw [step, Engine.mint_error h]
      · intro limits hlimits
        cases h.symm.trans hlimits
    | ok limits => exact .inl ⟨authorized, request, nowUnix, limits, rfl, h, step_mint h⟩
  | spend token attempt nowUnix =>
    cases h : w.engine.minter.spend token attempt nowUnix with
    | error =>
      refine .inr (.inr (.inr ⟨?_, ?_⟩))
      · rw [step, Engine.spend_error h]
      · intro hok
        rw [h] at hok
        cases hok
    | ok r =>
      obtain ⟨left, minter'⟩ := r
      obtain ⟨state, hstate, hleft, hspend⟩ := Engine.spend_ok h
      refine .inr (.inl ⟨token, attempt, nowUnix, state, rfl, by rw [h]; rfl, hstate, ?_, ?_⟩)
      · rw [step, hspend, hleft]
      · rw [step, hspend]
  | revoke tokenId => exact .inr (.inr (.inl ⟨tokenId, rfl, rfl, rfl⟩))

/-- An entry of the registry as the mint of a token that was never spent has left it. -/
structure Matches (record : Record host) (e : String × Entry) : Prop where
  tokenId : e.1 = record.token.id
  entry : e.2 = ⟨record.token.usesGranted, some (.of record.token record.issuedAtUnix)⟩
  spends : record.spends = 0

/-- The entries with uses left are those of the live tokens, none of which was ever spent. -/
def Tracks (w : Watched host) : Prop :=
  List.Forall₂ Matches (w.records.filter Record.live) (w.engine.issued.entries.filter Engine.listed)

theorem leaves_zero (h : usesLeft uses 0 = true) : Leaves uses 0 uses := by
  cases uses with
  | finite x => exact ⟨x, rfl, by simp⟩
  | infinity => rfl
  | negInfinity => cases h
  | nan => cases h

theorem Matches.describes {record : Record host} {e : String × Entry} (h : Matches record e)
    (hlive : record.live = true) (nowUnix : Option Number) : Describes nowUnix record (shown nowUnix e) := by
  obtain ⟨tokenId, entry⟩ := e
  obtain ⟨rfl, rfl, hspends⟩ := h
  refine ⟨rfl, rfl, rfl, rfl, rfl, rfl, rfl, ?_, rfl, rfl⟩
  rw [Record.live, hspends, Bool.and_eq_true] at hlive
  rw [hspends]
  exact leaves_zero hlive.2

theorem Tracks.faithful (h : w.Tracks) : w.Faithful := by
  refine ⟨?_, fun tokenId nowUnix ↦ grant_eq_find tokenId nowUnix⟩
  intro nowUnix
  rw [grants_eq, List.forall₂_map_right_iff]
  have hlive : ∀ record ∈ w.records.filter Record.live, record.live = true := fun record hmem ↦
    (List.mem_filter.mp hmem).2
  have hboth := (List.forall₂_and_left _ _).mpr ⟨hlive, h⟩
  exact hboth.imp fun record e hmatches ↦ hmatches.2.describes hmatches.1 nowUnix

theorem filter_live_map {f : Record host → Record host} (hsame : ∀ r, r.token.id ≠ tokenId → f r = r)
    (hgone : ∀ r ∈ records, r.token.id = tokenId → (f r).live = false) :
    (records.map f).filter Record.live = (records.filter Record.live).filter fun r ↦ r.token.id ≠ tokenId := by
  induction records with
  | nil => rfl
  | cons r rest ih =>
    have hrest := ih fun r hr ↦ hgone r (List.mem_cons_of_mem _ hr)
    rw [List.map_cons, List.filter_cons, List.filter_cons, hrest]
    by_cases hid : r.token.id = tokenId
    · rw [hgone r List.mem_cons_self hid]
      cases r.live with
      | true => simp [hid]
      | false => simp
    · rw [hsame r hid]
      cases r.live with
      | true => simp [hid]
      | false => simp

theorem Tracks.remove (h : w.Tracks) (tokenId : String) :
    List.Forall₂ Matches ((w.records.filter Record.live).filter fun r ↦ r.token.id ≠ tokenId)
      ((w.engine.issued.entries.filter Engine.listed).filter fun e ↦ e.1 ≠ tokenId) := by
  refine List.rel_filter ?_ h
  intro record e hmatches
  simp only [hmatches.tokenId]

theorem usesLeft_succ {n : ℕ} (h : usesLeft uses n = false) : usesLeft uses (n + 1) = false := by
  cases uses with
  | finite =>
    simp only [usesLeft, decide_eq_false_iff_not, not_lt] at h ⊢
    push_cast
    linarith
  | infinity => cases h
  | negInfinity => rfl
  | nan => rfl

theorem usesLeft_one (h : uses.le (.ofRat 1) = true) : usesLeft uses 1 = false := by
  have hone : round53 1 = 1 := by exact_mod_cast round53_natCast (n := 1) (by norm_num)
  cases uses with
  | finite x =>
    have hle : x.val ≤ 1 := by
      simpa [Number.le, Number.position, Number.ofRat, Binary64.ofRat, hone] using h
    simpa [usesLeft] using hle
  | infinity => simp [Number.le, Number.position, Number.ofRat] at h
  | negInfinity => rfl
  | nan => rfl

theorem usesLeft_zero (h : Number.zero.lt uses = true) : usesLeft uses 0 = true := by
  cases uses with
  | finite => simpa [usesLeft, Number.lt, Number.position, Number.zero] using h
  | infinity => rfl
  | negInfinity => simp [Number.lt, Number.position, Number.zero] at h
  | nan => simp [Number.lt, Number.position] at h

theorem exists_of_forall₂ {α β : Type} {R : α → β → Prop} {l : List α} {l' : List β} (h : List.Forall₂ R l l') :
    (∀ a ∈ l, ∃ b ∈ l', R a b) ∧ ∀ b ∈ l', ∃ a ∈ l, R a b := by
  induction h with
  | nil => exact ⟨nofun, nofun⟩
  | @cons a b l l' hab _ ih =>
    obtain ⟨hleft, hright⟩ := ih
    constructor
    · intro a' ha'
      rcases List.mem_cons.mp ha' with rfl | ha'
      · exact ⟨b, List.mem_cons_self, hab⟩
      · obtain ⟨b', hb', hR⟩ := hleft a' ha'
        exact ⟨b', List.mem_cons_of_mem _ hb', hR⟩
    · intro b' hb'
      rcases List.mem_cons.mp hb' with rfl | hb'
      · exact ⟨a, List.mem_cons_self, hab⟩
      · obtain ⟨a', ha', hR⟩ := hright b' hb'
        exact ⟨a', List.mem_cons_of_mem _ ha', hR⟩

theorem Tracks.entry (h : w.Tracks) (hr : r ∈ w.records) (hlive : r.live = true) :
    r.spends = 0 ∧ ∃ state, w.engine.issued.get r.token.id = some state ∧
      state.usesRemaining = r.token.usesGranted := by
  obtain ⟨⟨tokenId, state⟩, he, hmatches⟩ := (exists_of_forall₂ h).1 r (List.mem_filter.mpr ⟨hr, hlive⟩)
  refine ⟨hmatches.spends, state, ?_, ?_⟩
  · rw [← hmatches.tokenId]
    exact InsertionMap.get_of_mem (List.mem_of_mem_filter he)
  · have hentry : state = _ := hmatches.entry
    rw [hentry]

theorem Tracks.spent (h : w.Tracks) {state : Entry} (hget : w.engine.issued.get tokenId = some state)
    (hone : state.usesRemaining.le (.ofRat 1) = true) (hr : r ∈ w.records) (hid : r.token.id = tokenId) :
    (r.spendUnder tokenId).live = false := by
  rw [Record.spendUnder, if_pos hid]
  by_cases hlive : r.live = true
  · obtain ⟨hspends, state', hget', huses⟩ := h.entry hr hlive
    rw [hid, hget, Option.some.injEq] at hget'
    subst hget'
    rw [huses] at hone
    simp only [Record.live, hspends, zero_add, usesLeft_one hone, Bool.and_false]
  · simp only [Record.live, Bool.and_eq_true, not_and, Bool.not_eq_true, Bool.not_eq_true'] at hlive
    cases hrevoked : r.revoked with
    | true => simp [Record.live]
    | false =>
      have huses := usesLeft_succ (hlive hrevoked)
      simp only [Record.live, huses, Bool.and_false]

theorem accept_uses {ceiling : Option Limits} {nowUnix : Number}
    (h : Js.accept ceiling authorized request nowUnix = .ok limits) : Number.zero.lt request.uses = true := by
  unfold Js.accept at h
  split at h
  · cases h
  · simp only [require_bind_ok] at h
    exact h.2.1

theorem Fresh.tracks (h : w.Fresh) : w.Tracks := by
  rw [Tracks, h.records, h.issued]
  exact .nil

theorem filter_snoc (h : r.live = true) :
    (records ++ [r]).filter Record.live = records.filter Record.live ++ [r] := by
  rw [List.filter_append, List.filter_singleton, h]
  rfl

theorem minted_live {nowUnix : Number} (h : Js.accept w.engine.ceiling authorized request nowUnix = .ok limits) :
    (⟨w.engine.minter.tokenFor authorized request limits, nowUnix, 0, false⟩ : Record host).live = true :=
  usesLeft_zero (accept_uses h)

theorem minted_listed {described : Option Description} (h : Number.zero.lt request.uses = true) :
    Engine.listed (tokenId, ⟨request.uses, described⟩) = true := by
  rw [Engine.listed, Number.not_le_zero h]
  rfl

theorem Tracks.step (h : w.Tracks) (hc : w.Kept c) : (w.step c).Tracks := by
  rcases w.step_cases c with ⟨authorized, request, nowUnix, limits, rfl, haccept, hissued, hrecords⟩ |
    ⟨token, attempt, nowUnix, state, rfl, hok, hget, hissued, hrecords⟩ | ⟨tokenId, rfl, hissued, hrecords⟩ | ⟨he, -⟩
  · rw [Tracks, hissued, hrecords, filter_snoc (minted_live haccept)]
    rw [InsertionMap.set, (hc limits haccept).filter_put (minted_listed (accept_uses haccept))]
    exact List.rel_append h (.cons ⟨rfl, rfl, rfl⟩ .nil)
  · have hone := hc hok state hget
    have hspent : Engine.listed (token.id, ⟨state.usesRemaining.decrement, none⟩) = false := by
      rw [Engine.listed, Number.le_zero_decrement.mpr hone]
      rfl
    have hsame : ∀ r : Record host, r.token.id ≠ token.id → r.spendUnder token.id = r := fun r hr ↦ if_neg hr
    rw [Tracks, hissued, hrecords, InsertionMap.set, filter_put_of_not w.engine.issued.nodup hspent,
      filter_live_map hsame fun r hr hid ↦ h.spent hget hone hr hid]
    exact h.remove token.id
  · have hgone : ∀ r ∈ w.records, r.token.id = tokenId → (r.revokeUnder tokenId).live = false := by
      intro r _ hid
      rw [Record.revokeUnder, if_pos hid]
      rfl
    have hsame : ∀ r : Record host, r.token.id ≠ tokenId → r.revokeUnder tokenId = r := fun r hr ↦ if_neg hr
    have hentries : (w.engine.issued.delete tokenId).entries.filter Engine.listed =
        (w.engine.issued.entries.filter Engine.listed).filter fun e ↦ e.1 ≠ tokenId := List.filter_comm _ _ _
    rw [Tracks, hissued, hrecords, filter_live_map hsame hgone, hentries]
    exact h.remove tokenId
  · rw [he]
    exact h

theorem last_of_forall₂ {α β : Type} {R : α → β → Prop} {l : List α} {a : α} {l' : List β}
    (h : List.Forall₂ R (l ++ [a]) l') : ∃ front b, l' = front ++ [b] ∧ front.length = l.length ∧ R a b := by
  induction l generalizing l' with
  | nil =>
    obtain ⟨b, rest, hab, hrest, rfl⟩ := List.forall₂_cons_left_iff.mp h
    cases hrest
    exact ⟨[], b, rfl, rfl, hab⟩
  | cons c l ih =>
    obtain ⟨d, rest, _, hrest, rfl⟩ := List.forall₂_cons_left_iff.mp h
    obtain ⟨front, b, rfl, hlength, hab⟩ := ih hrest
    exact ⟨d :: front, b, rfl, by rw [List.length_cons, List.length_cons, hlength], hab⟩

theorem Tracks.kept (h : w.Tracks) (hstep : (w.step c).Faithful) : w.Kept c := by
  rcases w.step_cases c with ⟨authorized, request, nowUnix, limits, rfl, haccept, hissued, hrecords⟩ |
    ⟨token, attempt, nowUnix, state, rfl, hok, hget, hissued, hrecords⟩ | ⟨tokenId, rfl, _, _⟩ | ⟨-, hc⟩
  · intro limits' hlimits'
    obtain rfl : limits = limits' := Except.ok.inj (haccept.symm.trans hlimits')
    have hlisted := hstep.listed none
    rw [hrecords, grants_eq, hissued, filter_snoc (minted_live haccept), List.forall₂_map_right_iff] at hlisted
    obtain ⟨front, last, hentries, hlength, hdescribes⟩ := last_of_forall₂ hlisted
    refine LastAmong.of_filter_put w.engine.issued.nodup hdescribes.tokenId (minted_listed (accept_uses haccept))
      hentries ?_
    rw [hlength, h.length_eq]
  · intro _ state' hget'
    obtain rfl : state = state' := Option.some.inj (hget.symm.trans hget')
    by_contra hone
    have hlisted : Engine.listed (token.id, ⟨state.usesRemaining.decrement, none⟩) = true := by
      rw [← Number.le_zero_decrement, Bool.not_eq_true] at hone
      rw [Engine.listed, hone]
      rfl
    have hentry : (token.id, (⟨state.usesRemaining.decrement, none⟩ : Entry)) ∈
        (w.step (.spend token attempt nowUnix)).engine.issued.entries := by
      rw [hissued]
      exact InsertionMap.mem_entries (InsertionMap.get_set_self _ _ _)
    have hgrants := hstep.listed none
    rw [grants_eq, List.forall₂_map_right_iff] at hgrants
    obtain ⟨record, _, hdescribes⟩ := (exists_of_forall₂ hgrants).2 _ (List.mem_filter.mpr ⟨hentry, hlisted⟩)
    cases hdescribes.stepId
  · trivial
  · exact hc

end

end Watched

/-- The live grants are described as their tokens were minted in every state of a run exactly where every mint takes an
id that no entry with uses left is held under or after, and no spend leaves a use. -/
theorem grants_faithful_iff {w : Watched host} (hw : w.Fresh) (cs : List (Command (Js.dialect host))) :
    (∀ n, (Run.after Watched.step w (cs.take n)).Faithful) ↔ Run.Along Watched.step Watched.Kept w cs :=
  (Run.Along.iff_forall_take (fun _ _ h hc ↦ h.step hc) (fun _ h ↦ h.faithful) (fun _ _ h hstep ↦ h.kept hstep)
    hw.tracks cs).symm

section Sample

namespace Watched

def sample : Watched Host.sample := ⟨⟨List.replicate 32 7, .empty, 0, none, Host.sampleKey_long⟩, []⟩

theorem sample_fresh : sample.Fresh := ⟨rfl, rfl, rfl⟩

def sampleRequest (uses : ℚ) : (Js.dialect Host.sample).Asked := Js.sampleRequest "s1" ["src/a.rs"] ["READ"] (.ofRat uses)

def sampleToken (uses : ℚ) : (Js.dialect Host.sample).Held :=
  sample.engine.minter.tokenFor Js.sampleApproved (sampleRequest uses) none

def mintAndSpend (uses : ℚ) : List (Command (Js.dialect Host.sample)) :=
  [.mint Js.sampleApproved (sampleRequest uses) (Number.ofRat 1),
    .spend (sampleToken uses) ⟨"src/a.rs", "READ"⟩ (Number.ofRat 2)]

end Watched

end Sample

theorem grants_faithful_iff_spent :
    (Run.after Watched.step Watched.sample ((Watched.mintAndSpend 1).take 2)).Faithful := by
  have haccept : Js.accept Watched.sample.engine.ceiling Js.sampleApproved (Watched.sampleRequest 1) (Number.ofRat 1) =
      .ok none := by decide +kernel
  refine (grants_faithful_iff Watched.sample_fresh (Watched.mintAndSpend 1)).mpr ⟨?_, ?_, trivial⟩ 2
  · intro limits _ before state after he
    cases before with
    | nil | cons => cases he
  · intro _ state hget
    have hissued := (Watched.step_mint haccept).1
    cases (InsertionMap.get_set_self _ _ _).symm.trans ((congrArg (fun m ↦ InsertionMap.get m _) hissued).symm.trans hget)
    decide +kernel

/-- One of two uses is spent. The grant that is left is shown without its step and its paths, and as not expired long
after it has. -/
theorem grants_forget : ∃ grant ∈ (Run.after Watched.step Watched.sample (Watched.mintAndSpend 2)).engine.grants
      (some (Number.ofRat 700)),
    grant.tokenId = (Watched.sampleToken 2).id ∧ grant.stepId = none ∧ grant.paths = [] ∧
      (Watched.sampleToken 2).paths = ["src/a.rs"] ∧ grant.expired = some false ∧
      (Watched.sampleToken 2).expiresAtUnix.le (Number.ofRat 700) = true := by
  decide +kernel

end Noesar.Capability
