import Mathlib
import Noesar.Capability.Uses
import Noesar.Shadow.Containment
import Noesar.Shadow.Rust

namespace Noesar.Shadow

open Lib Capability

variable {host : Host} {D : Dialect host} {σ : Type}

section Countdown

noncomputable def stepsLeft (D : Dialect host) (uses : D.Uses) : ℕ∞ :=
  ⨅ n : {n : ℕ // D.isSpent (D.oneLess^[n] uses) = true}, (n.1 : ℕ∞)

theorem stepsLeft_le {uses : D.Uses} {n : ℕ} (h : D.isSpent (D.oneLess^[n] uses) = true) : stepsLeft D uses ≤ n :=
  iInf_le (fun n : {n : ℕ // D.isSpent (D.oneLess^[n] uses) = true} ↦ (n.1 : ℕ∞)) ⟨n, h⟩

theorem one_add_stepsLeft {uses : D.Uses} (h : D.isSpent uses = false) :
    1 + stepsLeft D (D.oneLess uses) ≤ stepsLeft D uses := by
  apply le_iInf
  rintro ⟨n, hn⟩
  cases n with
  | zero =>
    rw [Function.iterate_zero, id, h] at hn
    cases hn
  | succ =>
    rw [Function.iterate_succ_apply] at hn
    rw [Nat.cast_succ, add_comm]
    gcongr
    exact stepsLeft_le hn

theorem not_spent_of_lt {uses : D.Uses} {n : ℕ} (h : n < stepsLeft D uses) :
    D.isSpent (D.oneLess^[n] uses) = false := by
  rw [← Bool.not_eq_true]
  intro hspent
  exact absurd (stepsLeft_le hspent) (not_le.mpr h)

def heldUnder (measure : D.Uses → ℕ∞) (minter : TokenMinter D) (tokenId : String) : ℕ∞ :=
  match minter.issued.get tokenId with
  | some uses => measure uses
  | none => 0

theorem heldUnder_mono {f g : D.Uses → ℕ∞} (h : ∀ uses, f uses ≤ g uses) (minter : TokenMinter D)
    (tokenId : String) : heldUnder f minter tokenId ≤ heldUnder g minter tokenId := by
  unfold heldUnder
  cases minter.issued.get tokenId with
  | none => exact le_rfl
  | some uses => exact h uses

theorem spends_heldUnder {minter minter' : TokenMinter D} {token : D.Held} {attempt : D.Tried} {nowUnix : D.Time}
    {left : D.Uses} (h : minter.Spends token attempt nowUnix left minter') (tokenId : String) :
    (if token.id = tokenId then 1 else 0) + heldUnder (stepsLeft D) minter' tokenId ≤
      heldUnder (stepsLeft D) minter tokenId := by
  obtain ⟨uses, hget, hfull, rfl⟩ := h.held
  have hafter : minter'.issued = minter.issued.set token.id (D.oneLess uses) := by rw [h.after]
  unfold heldUnder
  rw [hafter]
  by_cases hid : token.id = tokenId
  · subst hid
    rw [InsertionMap.get_set_self, hget, if_pos rfl]
    exact one_add_stepsLeft hfull
  · rw [InsertionMap.get_set_ne _ _ (Ne.symm hid), if_neg hid, zero_add]

end Countdown

structure Entry (D : Dialect host) where
  attempt : D.Tried
  performed : Bool
  tokenId : Option String

def Entry.performedUnder (tokenId : String) (entry : Entry D) : Bool :=
  entry.performed && entry.tokenId = some tokenId

/-- What one turn of an executor's loop may do: nothing, or spend a token and go no further,
or spend a token and carry the action out. -/
inductive Turn (found : Option D.Held) (nowUnix : D.Time) (attempt : D.Tried) (t : TokenMinter D × σ) :
    Entry D → TokenMinter D × σ → Prop
  | refused (tokenId : Option String) : Turn found nowUnix attempt t ⟨attempt, false, tokenId⟩ t
  | wasted {token : D.Held} {left : D.Uses} {minter : TokenMinter D} (hfound : found = some token)
      (hspends : t.1.Spends token attempt nowUnix left minter) :
      Turn found nowUnix attempt t ⟨attempt, false, some token.id⟩ (minter, t.2)
  | carried {token : D.Held} {left : D.Uses} {minter : TokenMinter D} (hfound : found = some token)
      (hspends : t.1.Spends token attempt nowUnix left minter) (performed : Bool) (s : σ) :
      Turn found nowUnix attempt t ⟨attempt, performed, some token.id⟩ (minter, s)

namespace Turn

variable {found : Option D.Held} {nowUnix : D.Time} {attempt : D.Tried} {t t' : TokenMinter D × σ} {entry : Entry D}

section

variable (h : Turn found nowUnix attempt t entry t')

include h

theorem attempt_eq : entry.attempt = attempt := by
  cases h with
  | refused | wasted | carried => rfl

theorem secret : t'.1.secret = t.1.secret := by
  cases h with
  | refused => rfl
  | wasted hfound hspends | carried hfound hspends => rw [hspends.after]

theorem spent (hperformed : entry.performed = true) : ∃ token left, found = some token ∧ entry.tokenId = some token.id ∧
    t.1.Spends token attempt nowUnix left t'.1 := by
  cases h with
  | refused | wasted => cases hperformed
  | carried hfound hspends => exact ⟨_, _, hfound, rfl, hspends⟩

theorem countdown (tokenId : String) : (if entry.performedUnder tokenId then 1 else 0) + heldUnder (stepsLeft D) t'.1
    tokenId ≤ heldUnder (stepsLeft D) t.1 tokenId := by
  cases h with
  | refused => simp [Entry.performedUnder]
  | wasted hfound hspends =>
    refine le_trans ?_ (spends_heldUnder hspends tokenId)
    simp [Entry.performedUnder]
  | @carried token left minter hfound hspends performed s =>
    refine le_trans ?_ (spends_heldUnder hspends tokenId)
    gcongr
    cases performed with
    | true | false => simp [Entry.performedUnder]

end

end Turn

/-- The accounting of an execution: of its attempts and entries, the token found for each
attempt, the attempts that go no further than the containment, and the states its turns
pass through. -/
structure Accounts (tokens : List D.Held) (digest : String) (nowUnix : D.Time) (measure : D.Uses → ℕ∞)
    (attempts : List D.Tried) (entries : List (Entry D)) (Blocked : ℕ → Prop) (states : ℕ → TokenMinter D × σ) :
    Prop where
  inOrder : entries.map Entry.attempt = attempts
  spentFirst : ∀ (i : ℕ) entry, entries[i]? = some entry → entry.performed = true → ∃ token ∈ tokens, ∃ left,
    token.planDigest = digest ∧ entry.attempt.path ∈ token.paths ∧ entry.attempt.operation ∈ token.operations ∧
      entry.tokenId = some token.id ∧ (states i).1.Spends token entry.attempt nowUnix left (states (i + 1)).1
  blockedKeeps : ∀ (i : ℕ) entry, entries[i]? = some entry → Blocked i →
    entry.performed = false ∧ (states (i + 1)).2 = (states i).2
  counted : ∀ tokenId, entries.countP (Entry.performedUnder tokenId) ≤ heldUnder measure (states 0).1 tokenId

section Loop

variable {α β : Type} {turn : ℕ → TokenMinter D × σ → α → β × (TokenMinter D × σ)} {entry : β → Entry D}
  {attempt : α → D.Tried} {found : α → Option D.Held} {nowUnix : D.Time}

section

variable (hturn : ∀ position t a, Turn (found a) nowUnix (attempt a) t (entry (turn position t a).1) (turn position t a).2)

include hturn

theorem loop_attempts (position : ℕ) (t : TokenMinter D × σ) (actions : List α) : ((loop turn position t actions).1.map
    entry).map Entry.attempt = actions.map attempt := by
  induction actions generalizing position t with
  | nil => rfl
  | cons a actions ih =>
    rw [loop_cons, List.map_cons, List.map_cons, List.map_cons, ih, (hturn position t a).attempt_eq]

theorem loop_countdown (position : ℕ) (t : TokenMinter D × σ) (actions : List α) (tokenId : String) : ((loop turn
    position t actions).1.map entry).countP (Entry.performedUnder tokenId) ≤ heldUnder (stepsLeft D) t.1 tokenId := by
  have hle := @loop_countP_add_le _ _ _ turn (fun o ↦ (entry o).performedUnder tokenId)
    (fun t ↦ heldUnder (stepsLeft D) t.1 tokenId) (fun position t a ↦ (hturn position t a).countdown tokenId)
    position t actions
  rw [List.countP_map]
  exact le_trans le_self_add hle

theorem loop_secret (position : ℕ) (t : TokenMinter D × σ) (actions : List α) : (loop turn position t
    actions).2.1.secret = t.1.secret := by
  induction actions generalizing position t with
  | nil => rfl
  | cons a actions ih =>
    rw [loop_cons]
    exact (ih (position + 1) (turn position t a).2).trans (hturn position t a).secret

end

theorem loop_turn {t : TokenMinter D × σ} {actions : List α} {i : ℕ} {e : Entry D}
    (he : ((loop turn 0 t actions).1.map entry)[i]? = some e) :
    ∃ a, actions[i]? = some a ∧ e = entry (turn i (loop turn 0 t (actions.take i)).2 a).1 ∧
      (loop turn 0 t (actions.take (i + 1))).2 = (turn i (loop turn 0 t (actions.take i)).2 a).2 := by
  rw [List.getElem?_map, loop_getElem?, Option.map_map, Option.map_eq_some_iff] at he
  obtain ⟨a, ha, rfl⟩ := he
  rw [Nat.zero_add]
  refine ⟨a, ha, rfl, ?_⟩
  have hnext := @loop_take_succ _ _ _ turn 0 t actions i a ha
  rw [Nat.zero_add] at hnext
  exact hnext

theorem loop_accounts {tokens : List D.Held} {digest : String} {measure : D.Uses → ℕ∞} {blocked : TokenMinter D → α → Prop}
    (hturn : ∀ position t a, Turn (found a) nowUnix (attempt a) t (entry (turn position t a).1) (turn position t a).2)
    (hfound : ∀ a token, found a = some token → token ∈ tokens ∧ token.planDigest = digest)
    (hblocked : ∀ position t a, blocked t.1 a → (entry (turn position t a).1).performed = false ∧
      (turn position t a).2.2 = t.2)
    {t : TokenMinter D × σ} {actions : List α}
    (hcounted : ∀ tokenId, ((loop turn 0 t actions).1.map entry).countP (Entry.performedUnder tokenId) ≤
      heldUnder measure t.1 tokenId) :
    Accounts tokens digest nowUnix measure (actions.map attempt) ((loop turn 0 t actions).1.map entry)
      (fun i ↦ ∃ a, actions[i]? = some a ∧ blocked (loop turn 0 t (actions.take i)).2.1 a)
      (fun i ↦ (loop turn 0 t (actions.take i)).2) where
  inOrder := loop_attempts hturn 0 t actions
  spentFirst := by
    intro i e he hperformed
    obtain ⟨a, -, rfl, hnext⟩ := loop_turn he
    have hone := hturn i (loop turn 0 t (actions.take i)).2 a
    obtain ⟨token, left, hsome, hid, hspends⟩ := hone.spent hperformed
    rw [hone.attempt_eq, hnext]
    exact ⟨token, (hfound a token hsome).1, left, (hfound a token hsome).2, hspends.path, hspends.operation, hid,
      hspends⟩
  blockedKeeps := by
    rintro i e he ⟨a, ha, hb⟩
    obtain ⟨b, hb', rfl, hnext⟩ := loop_turn he
    obtain rfl : a = b := by simpa [ha] using hb'
    rw [hnext]
    exact hblocked i _ a hb
  counted := hcounted

end Loop

section Js

variable (S : Surface σ) (sandbox : ExecuteSandbox) (digest : String) (tokens : List (JsToken host)) (nowUnix : Number)

def Outcome.entry (host : Host) (outcome : Outcome) : Entry (Js.dialect host) :=
  ⟨⟨outcome.path, outcome.operation⟩, outcome.performed, outcome.tokenId⟩

def Action.attempt (host : Host) (action : Action) : (Js.dialect host).Tried := ⟨action.path, action.kind⟩

/-- An action for which there is no token, whose spend is refused, or whose path is not
contained. -/
def Blocked (minter : JsMinter host) (action : Action) : Prop :=
  (∀ token, tokenFor tokens action digest = some token →
    ∀ left minter', ¬ minter.Spends token ⟨action.path, action.kind⟩ nowUnix left minter') ∨
  ∃ e, S.locate action.path = .error e

/-- A token an action is carried out with, as far as the uses it has left allow. -/
structure Usable (locate : String → Except ShadowError (List String)) (minter : JsMinter host) (action : Action)
    (token : JsToken host) : Prop where
  found : tokenFor tokens action digest = some token
  known : action.kind ∈ Js.operations
  runnable : action.kind = "EXECUTE" → sandbox = .enabled ∧ token.limits ≠ none
  contained : ∃ location, locate action.path = .ok location
  verifies : (Js.dialect host).sign minter.secret token = token.mac
  inTime : token.expiresAtUnix.le nowUnix = false

theorem performAction_ends (position : ℕ) (minter : JsMinter host) (s : σ) (action : Action) :
    (∃ reason tokenId, performAction S sandbox digest tokens nowUnix position minter s action =
      (⟨action.path, action.kind, false, some reason, tokenId, none⟩, minter, s)) ∨
    ∃ token left minter', tokenFor tokens action digest = some token ∧
      minter.Spends token ⟨action.path, action.kind⟩ nowUnix left minter' ∧
      ((∃ reason, performAction S sandbox digest tokens nowUnix position minter s action =
        (⟨action.path, action.kind, false, some reason, some token.id, none⟩, minter', s)) ∨
      Usable sandbox digest tokens nowUnix S.locate minter action token ∧
        ∃ location, S.locate action.path = .ok location ∧
          performAction S sandbox digest tokens nowUnix position minter s action =
            (⟨action.path, action.kind, (S.carryOut position s action location).2.performed,
              (S.carryOut position s action location).2.reason, some token.id,
              (S.carryOut position s action location).2.ran⟩, minter', (S.carryOut position s action location).1)) := by
  unfold performAction
  dsimp only
  split
  · exact .inl ⟨_, _, rfl⟩
  next habsent =>
    split
    · exact .inl ⟨_, _, rfl⟩
    next hdisabled =>
      split
      · exact .inl ⟨_, _, rfl⟩
      next hkind =>
        split
        · exact .inl ⟨_, _, rfl⟩
        next token htoken =>
          split
          · exact .inl ⟨_, _, rfl⟩
          next left minter' hspend =>
            have hspends := TokenMinter.spend_ok_iff.mp hspend
            refine .inr ⟨token, left, minter', htoken, hspends, ?_⟩
            split
            · exact .inl ⟨_, rfl⟩
            next hlimits =>
              split
              · exact .inl ⟨_, rfl⟩
              next location hlocate =>
                refine .inr ⟨⟨htoken, not_not.mp hkind, ?_, ⟨location, hlocate⟩, hspends.verifies, hspends.inTime⟩,
                  location, hlocate, rfl⟩
                intro hexecute
                refine ⟨?_, fun hnone ↦ hlimits ⟨hexecute, hnone⟩⟩
                cases sandbox with
                | absent => exact absurd ⟨hexecute, rfl⟩ habsent
                | disabled => exact absurd ⟨hexecute, rfl⟩ hdisabled
                | enabled => rfl

variable {S sandbox digest tokens nowUnix}

theorem performAction_turn (position : ℕ) (t : JsMinter host × σ) (action : Action) :
    Turn (tokenFor tokens action digest) nowUnix (action.attempt host) t
      ((performAction S sandbox digest tokens nowUnix position t.1 t.2 action).1.entry host)
      (performAction S sandbox digest tokens nowUnix position t.1 t.2 action).2 := by
  rcases performAction_ends S sandbox digest tokens nowUnix position t.1 t.2 action with
    ⟨reason, tokenId, he⟩ | ⟨token, left, minter', hfound, hspends, ⟨reason, he⟩ | ⟨-, location, -, he⟩⟩
  · rw [he]
    exact .refused tokenId
  · rw [he]
    exact .wasted hfound hspends
  · rw [he]
    exact .carried hfound hspends _ _

theorem performAction_blocked (position : ℕ) (t : JsMinter host × σ) (action : Action)
    (hblocked : Blocked S digest tokens nowUnix t.1 action) :
    ((performAction S sandbox digest tokens nowUnix position t.1 t.2 action).1.entry host).performed = false ∧
      (performAction S sandbox digest tokens nowUnix position t.1 t.2 action).2.2 = t.2 := by
  rcases performAction_ends S sandbox digest tokens nowUnix position t.1 t.2 action with
    ⟨reason, tokenId, he⟩ | ⟨token, left, minter', hfound, hspends, ⟨reason, he⟩ | ⟨-, location, hlocate, he⟩⟩
  · rw [he]
    exact ⟨rfl, rfl⟩
  · rw [he]
    exact ⟨rfl, rfl⟩
  · rcases hblocked with hnone | ⟨e, hlocate'⟩
    · exact absurd hspends (hnone token hfound left minter')
    · rw [hlocate'] at hlocate
      cases hlocate

theorem performAction_usable {position : ℕ} {t : JsMinter host × σ} {action : Action} {tokenId : String}
    (h : ((performAction S sandbox digest tokens nowUnix position t.1 t.2 action).1.entry host).performedUnder tokenId =
      true) :
    ∃ token, token.id = tokenId ∧ Usable sandbox digest tokens nowUnix S.locate t.1 action token := by
  rcases performAction_ends S sandbox digest tokens nowUnix position t.1 t.2 action with
    ⟨reason, tokenId, he⟩ | ⟨token, left, minter', hfound, hspends, ⟨reason, he⟩ | ⟨husable, location, -, he⟩⟩
  · rw [he] at h
    cases h
  · rw [he] at h
    cases h
  · rw [he] at h
    simp only [Entry.performedUnder, Outcome.entry, Bool.and_eq_true, decide_eq_true_eq, Option.some.injEq] at h
    exact ⟨token, h.2, husable⟩

theorem performAll_eq_loop (position : ℕ) (minter : JsMinter host) (s : σ) (actions : List Action) :
    performAll S sandbox digest tokens nowUnix position minter s actions =
      loop (fun position t action ↦ performAction S sandbox digest tokens nowUnix position t.1 t.2 action) position
        (minter, s) actions := by
  induction actions generalizing position minter s with
  | nil => rfl
  | cons action actions ih => rw [performAll_cons, loop_cons, ih]

theorem tokenFor_some {action : Action} {token : JsToken host} (h : tokenFor tokens action digest = some token) :
    token ∈ tokens ∧ token.planDigest = digest := by
  refine ⟨List.mem_of_find?_eq_some h, ?_⟩
  have hfound := List.find?_some h
  simp only [Bool.and_eq_true, decide_eq_true_eq] at hfound
  exact hfound.1.1

def Js.usesLeft : Number → ℕ∞
  | .finite x => (⌊x.val⌋₊ : ℕ∞)
  | .infinity => ⊤
  | _ => 0

/-- Every token that actions can be carried out with has uses that counting down by one
brings to zero, in no more steps than there are whole ones. -/
def CountsDown (sandbox : ExecuteSandbox) (digest : String) (tokens : List (JsToken host)) (nowUnix : Number)
    (locate : String → Except ShadowError (List String)) (minter : JsMinter host) : Prop :=
  ∀ action token, Usable sandbox digest tokens nowUnix locate minter action token →
    ∀ uses, minter.issued.get token.id = some uses → stepsLeft (Js.dialect host) uses ≤ Js.usesLeft uses

theorem performAll_counted {minter : JsMinter host} {s : σ} {actions : List Action}
    (hcounts : CountsDown sandbox digest tokens nowUnix S.locate minter) (tokenId : String) :
    ((performAll S sandbox digest tokens nowUnix 0 minter s actions).1.map (Outcome.entry host)).countP
      (Entry.performedUnder tokenId) ≤ heldUnder Js.usesLeft minter tokenId := by
  have hturn := @performAction_turn host σ S sandbox digest tokens nowUnix
  rw [performAll_eq_loop]
  have hle := loop_countdown hturn 0 (minter, s) actions tokenId
  by_cases husable : ∃ action token, token.id = tokenId ∧ Usable sandbox digest tokens nowUnix S.locate minter action token
  · obtain ⟨action, token, rfl, husable⟩ := husable
    refine le_trans hle ?_
    unfold heldUnder
    cases hget : minter.issued.get token.id with
    | none => exact le_rfl
    | some uses => exact hcounts action token husable uses hget
  · -- nothing is performed under an id no usable token carries
    have hzero : ((loop (fun position (t : JsMinter host × σ) action ↦
        performAction S sandbox digest tokens nowUnix position t.1 t.2 action) 0 (minter, s) actions).1.map
        (Outcome.entry host)).countP (Entry.performedUnder tokenId) = 0 := by
      rw [List.countP_eq_zero]
      intro e he hunder
      obtain ⟨i, hi⟩ := List.mem_iff_getElem?.mp he
      obtain ⟨a, -, rfl, -⟩ := loop_turn hi
      obtain ⟨token, hid, h⟩ := performAction_usable hunder
      have hsecret := loop_secret hturn 0 (minter, s) (actions.take i)
      refine husable ⟨a, token, hid, h.found, h.known, h.runnable, h.contained, ?_, h.inTime⟩
      rw [← h.verifies]
      exact congrArg (fun secret ↦ (Js.dialect host).sign secret token) hsecret.symm
    rw [hzero]
    exact zero_le

theorem performAction_of_usable {minter : JsMinter host} {action : Action} {token : JsToken host} {uses : Number}
    (h : Usable sandbox digest tokens nowUnix S.locate minter action token)
    (hget : minter.issued.get token.id = some uses) (hfull : uses ≠ Number.zero) (position : ℕ) (s : σ) :
    ∃ location, S.locate action.path = .ok location ∧
      performAction S sandbox digest tokens nowUnix position minter s action =
        (⟨action.path, action.kind, (S.carryOut position s action location).2.performed,
          (S.carryOut position s action location).2.reason, some token.id,
          (S.carryOut position s action location).2.ran⟩,
          { minter with issued := minter.issued.set token.id uses.decrement },
          (S.carryOut position s action location).1) := by
  obtain ⟨location, hlocate⟩ := h.contained
  have hfound := List.find?_some h.found
  simp only [Bool.and_eq_true, decide_eq_true_eq] at hfound
  have hspends : minter.Spends token ⟨action.path, action.kind⟩ nowUnix uses.decrement
      { minter with issued := minter.issued.set token.id uses.decrement } :=
    ⟨h.verifies, ⟨uses, hget, decide_eq_false hfull, rfl⟩, h.inTime, hfound.1.2, hfound.2, rfl⟩
  have hspend := TokenMinter.spend_ok_iff.mpr hspends
  refine ⟨location, hlocate, ?_⟩
  unfold performAction
  dsimp only
  rw [if_neg, if_neg, if_neg (not_not.mpr h.known), h.found]
  · dsimp only
    rw [hspend]
    dsimp only
    rw [if_neg, hlocate]
    rintro ⟨hexecute, hnone⟩
    exact (h.runnable hexecute).2 hnone
  · rintro ⟨hexecute, hdisabled⟩
    rw [(h.runnable hexecute).1] at hdisabled
    cases hdisabled
  · rintro ⟨hexecute, habsent⟩
    rw [(h.runnable hexecute).1] at habsent
    cases habsent

theorem performAll_replicate {locate : String → Except ShadowError (List String)} {action : Action}
    {token : JsToken host} (m : ℕ) {minter : JsMinter host} {uses : Number} (position : ℕ)
    (h : Usable sandbox digest tokens nowUnix locate minter action token)
    (hget : minter.issued.get token.id = some uses) (hfull : ∀ k < m, Number.decrement^[k] uses ≠ Number.zero) :
    (performAll ⟨locate, fun _ s _ _ ↦ (s, ⟨true, none, none⟩)⟩ sandbox digest tokens nowUnix position minter ()
      (List.replicate m action)).1.map (Outcome.entry host) =
      List.replicate m ⟨action.attempt host, true, some token.id⟩ := by
  induction m generalizing minter uses position with
  | zero => rfl
  | succ m ih =>
    have hnow : uses ≠ Number.zero := hfull 0 (Nat.succ_pos m)
    obtain ⟨location, -, he⟩ := @performAction_of_usable host Unit ⟨locate, fun _ s _ _ ↦ (s, ⟨true, none, none⟩)⟩
      sandbox digest tokens nowUnix minter action token uses h hget hnow position ()
    rw [List.replicate_succ, performAll_cons, he, List.map_cons, List.replicate_succ]
    congr 1
    apply ih (position + 1)
    · exact ⟨h.found, h.known, h.runnable, h.contained, h.verifies, h.inTime⟩
    · exact InsertionMap.get_set_self _ _ _
    · intro k hk
      have hlater := hfull (k + 1) (Nat.succ_lt_succ hk)
      rw [Function.iterate_succ_apply] at hlater
      exact hlater

end Js

/-- `execute` over any surface and any way to observe it. -/
def executeIn (S : Surface σ) (observe : σ → List TestOutcome → Except ShadowError Observation) (coverage : Coverage)
    (sandbox : ExecuteSandbox) (digest : String) (tokens : List (JsToken host)) (nowUnix : Number)
    (minter : JsMinter host) (s : σ) (actions : List Action) (expectation : Expectation) (tests : List TestOutcome) :
    Except ShadowError (Result × JsMinter host × σ) :=
  if coverage ≠ .wholeWorkspace then .error ⟨.invalid, wholeWorkspaceRequired, none⟩
  else
    let ran := performAll S sandbox digest tokens nowUnix 0 minter s actions
    match observe ran.2.2 (tests ++ observedTests ran.1) with
    | .error e => .error e
    | .ok observation => .ok (conclude digest expectation ran.1 observation, ran.2)

theorem Result.refused_eq_zero_iff (result : Result) :
    result.refused = 0 ↔ ∀ o ∈ result.outcomes, o.performed = true := by
  have hle : result.performed ≤ result.outcomes.length := List.countP_le_length
  rw [← List.countP_eq_length]
  unfold Result.refused Result.performed
  unfold Result.performed at hle
  omega

theorem conclude_ok_iff (digest : String) (expectation : Expectation) (outcomes : List Outcome)
    (observation : Observation) :
    (conclude digest expectation outcomes observation).ok = true ↔ (∀ o ∈ outcomes, o.performed = true) ∧
      ∃ surprise, compare expectation observation = .ok surprise ∧ surprise.clean = true := by
  have hall := (conclude digest expectation outcomes observation).refused_eq_zero_iff
  unfold Result.ok
  rw [Bool.and_eq_true, decide_eq_true_eq, hall]
  unfold conclude
  cases compare expectation observation with
  | ok | error => simp

variable {observe : σ → List TestOutcome → Except ShadowError Observation}

theorem executeIn_ok {S : Surface σ} {coverage : Coverage} {sandbox : ExecuteSandbox} {digest : String}
    {tokens : List (JsToken host)} {nowUnix : Number} {minter minter' : JsMinter host} {s s' : σ}
    {actions : List Action} {expectation : Expectation} {tests : List TestOutcome} {result : Result}
    (h : executeIn S observe coverage sandbox digest tokens nowUnix minter s actions expectation tests =
      .ok (result, minter', s')) :
    ∃ observation, observe s' (tests ++ observedTests result.outcomes) = .ok observation ∧
      performAll S sandbox digest tokens nowUnix 0 minter s actions = (result.outcomes, minter', s') ∧
      result = conclude digest expectation result.outcomes observation := by
  unfold executeIn at h
  split_ifs at h with hcoverage
  dsimp only at h
  cases hobserve : observe (performAll S sandbox digest tokens nowUnix 0 minter s actions).2.2
      (tests ++ observedTests (performAll S sandbox digest tokens nowUnix 0 minter s actions).1) with
  | error =>
    rw [hobserve] at h
    cases h
  | ok observation =>
    rw [hobserve] at h
    have houtcomes : ∀ outcomes, (conclude digest expectation outcomes observation).outcomes = outcomes := by
      intro outcomes
      unfold conclude
      cases compare expectation observation with
      | ok | error => rfl
    obtain ⟨rfl, hrest⟩ := Prod.mk.inj (Except.ok.inj h)
    rw [houtcomes, ← hrest]
    exact ⟨observation, by rw [← hobserve, hrest], rfl, rfl⟩

def JsAccounted (tokens : List (JsToken host)) (digest : String) (nowUnix : Number) (sandbox : ExecuteSandbox)
    (S : Surface σ) (observe : σ → List TestOutcome → Except ShadowError Observation) (minter : JsMinter host) (s : σ)
    (actions : List Action) (expectation : Expectation) (tests : List TestOutcome) (result : Result) (s' : σ) : Prop :=
  Accounts tokens digest nowUnix Js.usesLeft (actions.map (Action.attempt host))
    (result.outcomes.map (Outcome.entry host))
    (fun i ↦ ∃ action, actions[i]? = some action ∧ Blocked S digest tokens nowUnix
      (performAll S sandbox digest tokens nowUnix 0 minter s (actions.take i)).2.1 action)
    (fun i ↦ (performAll S sandbox digest tokens nowUnix 0 minter s (actions.take i)).2) ∧
  (result.ok = true ↔ (∀ outcome ∈ result.outcomes, outcome.performed = true) ∧
    ∃ observation surprise, observe s' (tests ++ observedTests result.outcomes) = .ok observation ∧
      compare expectation observation = .ok surprise ∧ surprise.clean = true)

theorem executeIn_accounted {S : Surface σ} {coverage : Coverage} {sandbox : ExecuteSandbox} {digest : String}
    {tokens : List (JsToken host)} {nowUnix : Number} {minter minter' : JsMinter host} {s s' : σ}
    {actions : List Action} {expectation : Expectation} {tests : List TestOutcome} {result : Result}
    (hcounts : CountsDown sandbox digest tokens nowUnix S.locate minter)
    (h : executeIn S observe coverage sandbox digest tokens nowUnix minter s actions expectation tests =
      .ok (result, minter', s')) :
    JsAccounted tokens digest nowUnix sandbox S observe minter s actions expectation tests result s' := by
  obtain ⟨observation, hobserve, hran, hresult⟩ := executeIn_ok h
  refine ⟨?_, ?_⟩
  · have hcounted := @performAll_counted host σ S sandbox digest tokens nowUnix minter s actions hcounts
    have houtcomes : result.outcomes = (performAll S sandbox digest tokens nowUnix 0 minter s actions).1 := by rw [hran]
    rw [houtcomes]
    simp only [performAll_eq_loop] at hcounted ⊢
    exact loop_accounts performAction_turn (fun _ _ ↦ tokenFor_some) performAction_blocked hcounted
  · rw [hresult, conclude_ok_iff, ← hresult]
    apply and_congr_right
    intro _
    constructor
    · rintro ⟨surprise, hcompare, hclean⟩
      exact ⟨observation, surprise, hobserve, hcompare, hclean⟩
    · rintro ⟨observation', surprise, hobserve', hcompare, hclean⟩
      obtain rfl : observation = observation' := by simpa [hobserve] using hobserve'
      exact ⟨surprise, hcompare, hclean⟩

namespace Rust

variable {ρ : Type} {S : Rust.Surface σ ρ} {sandbox : Option ExecuteSandboxConfig} {digest : String}
  {tokens : List (RustToken host)} {nowUnix : Int64}

def ActionOutcome.entry (host : Host) (outcome : ActionOutcome) : Entry (Capability.Rust.dialect host) :=
  ⟨⟨outcome.path, outcome.operation⟩, outcome.performed, outcome.tokenId⟩

def Action.attempt (host : Host) (action : Rust.Action) : (Capability.Rust.dialect host).Tried :=
  ⟨action.path, action.operation⟩

def Blocked (S : Rust.Surface σ ρ) (digest : String) (tokens : List (RustToken host)) (nowUnix : Int64)
    (minter : RustMinter host) (action : Rust.Action) : Prop :=
  (∀ token, candidate tokens digest action = some token →
    ∀ left minter', ¬ minter.Spends token ⟨action.path, action.operation⟩ nowUnix left minter') ∨
  ∃ e, S.locate action.path = .error e

theorem performAction_ends (position : ℕ) (t : RustMinter host × σ) (action : Rust.Action) :
    (∃ reason tokenId, performAction S sandbox digest tokens nowUnix position t action =
      (⟨action.path, action.operation, false, some reason, tokenId, none, none, none⟩, t)) ∨
    ∃ token left minter', candidate tokens digest action = some token ∧
      t.1.Spends token ⟨action.path, action.operation⟩ nowUnix left minter' ∧
      ((∃ reason, performAction S sandbox digest tokens nowUnix position t action =
        (⟨action.path, action.operation, false, some reason, some token.id, none, none, none⟩, minter', t.2)) ∨
      ∃ resolved, S.locate action.path = .ok resolved ∧
        performAction S sandbox digest tokens nowUnix position t action =
          (⟨action.path, action.operation, (S.carryOut position t.2 action resolved).2.performed,
            (S.carryOut position t.2 action resolved).2.reason, some token.id,
            (S.carryOut position t.2 action resolved).2.ran.bind Ran.exitCode,
            (S.carryOut position t.2 action resolved).2.ran.map Ran.stdout,
            (S.carryOut position t.2 action resolved).2.ran.map Ran.stderr⟩, minter',
            (S.carryOut position t.2 action resolved).1)) := by
  unfold performAction
  dsimp only
  split
  · exact .inl ⟨_, _, rfl⟩
  · split
    · exact .inl ⟨_, _, rfl⟩
    next token htoken =>
      split
      · exact .inl ⟨_, _, rfl⟩
      next left minter' hspend =>
        refine .inr ⟨token, left, minter', htoken, TokenMinter.spend_ok_iff.mp hspend, ?_⟩
        split
        · exact .inl ⟨_, rfl⟩
        next resolved hlocate =>
          split
          · exact .inl ⟨_, rfl⟩
          · split
            · exact .inl ⟨_, rfl⟩
            · exact .inr ⟨resolved, hlocate, rfl⟩

theorem performAction_turn (position : ℕ) (t : RustMinter host × σ) (action : Rust.Action) :
    Turn (candidate tokens digest action) nowUnix (action.attempt host) t
      ((performAction S sandbox digest tokens nowUnix position t action).1.entry host)
      (performAction S sandbox digest tokens nowUnix position t action).2 := by
  rcases @performAction_ends host σ ρ S sandbox digest tokens nowUnix position t action with
    ⟨reason, tokenId, he⟩ | ⟨token, left, minter', hfound, hspends, ⟨reason, he⟩ | ⟨resolved, -, he⟩⟩
  · rw [he]
    exact .refused tokenId
  · rw [he]
    exact .wasted hfound hspends
  · rw [he]
    exact .carried hfound hspends _ _

theorem performAction_blocked (position : ℕ) (t : RustMinter host × σ) (action : Rust.Action)
    (hblocked : Blocked S digest tokens nowUnix t.1 action) :
    ((performAction S sandbox digest tokens nowUnix position t action).1.entry host).performed = false ∧
      (performAction S sandbox digest tokens nowUnix position t action).2.2 = t.2 := by
  rcases @performAction_ends host σ ρ S sandbox digest tokens nowUnix position t action with
    ⟨reason, tokenId, he⟩ | ⟨token, left, minter', hfound, hspends, ⟨reason, he⟩ | ⟨resolved, hlocate, he⟩⟩
  · rw [he]
    exact ⟨rfl, rfl⟩
  · rw [he]
    exact ⟨rfl, rfl⟩
  · rcases hblocked with hnone | ⟨e, hlocate'⟩
    · exact absurd hspends (hnone token hfound left minter')
    · rw [hlocate'] at hlocate
      cases hlocate

theorem candidate_some {action : Rust.Action} {token : RustToken host}
    (h : candidate tokens digest action = some token) : token ∈ tokens ∧ token.planDigest = digest := by
  unfold candidate at h
  rw [Option.filter_eq_some_iff] at h
  exact ⟨List.mem_of_find?_eq_some h.1, of_decide_eq_true h.2⟩

def usesLeft (uses : UInt32) : ℕ∞ := uses.toNat

theorem iterate_oneLess (uses : UInt32) (n : ℕ) (h : n ≤ uses.toNat) :
    ((fun left : UInt32 ↦ left - 1)^[n] uses).toNat = uses.toNat - n := by
  induction n with
  | zero => rfl
  | succ n ih =>
    have hn := ih (by omega)
    rw [Function.iterate_succ_apply']
    have hone : (1 : UInt32) ≤ (fun left : UInt32 ↦ left - 1)^[n] uses := by
      rw [UInt32.le_iff_toNat_le, hn, UInt32.toNat_one]
      omega
    rw [UInt32.toNat_sub_of_le _ _ hone, hn, UInt32.toNat_one]
    omega

theorem stepsLeft_le_usesLeft (uses : UInt32) : stepsLeft (Capability.Rust.dialect host) uses ≤ usesLeft uses := by
  have hzero := iterate_oneLess uses uses.toNat le_rfl
  rw [Nat.sub_self] at hzero
  have hspent : (fun left : UInt32 ↦ left - 1)^[uses.toNat] uses = 0 := UInt32.toNat_inj.mp hzero
  have hdecide : decide ((fun left : UInt32 ↦ left - 1)^[uses.toNat] uses = 0) = true := decide_eq_true hspent
  exact @stepsLeft_le host (Capability.Rust.dialect host) uses uses.toNat hdecide

theorem ExecutionReport.refused_eq_zero_iff (report : ExecutionReport) :
    report.refused = 0 ↔ ∀ o ∈ report.outcomes, o.performed = true := by
  unfold ExecutionReport.refused
  rw [List.countP_eq_zero]
  simp

def Accounted (tokens : List (RustToken host)) (digest : String) (nowUnix : Int64)
    (sandbox : Option ExecuteSandboxConfig) (S : Rust.Surface σ ρ)
    (observe : σ → List TestOutcome → Except ShadowError Observation) (minter : RustMinter host) (s : σ)
    (actions : List Rust.Action) (expectation : Expectation) (tests : List TestOutcome) (report : ExecutionReport)
    (s' : σ) : Prop :=
  Accounts tokens digest nowUnix usesLeft (actions.map (Action.attempt host))
    (report.outcomes.map (ActionOutcome.entry host))
    (fun i ↦ ∃ action, actions[i]? = some action ∧ Blocked S digest tokens nowUnix
      (performAll S sandbox digest tokens nowUnix 0 (minter, s) (actions.take i)).2.1 action)
    (fun i ↦ (performAll S sandbox digest tokens nowUnix 0 (minter, s) (actions.take i)).2) ∧
  (report.isOk = true ↔ (∀ outcome ∈ report.outcomes, outcome.performed = true) ∧
    ∃ observation surprise, observe s' tests = .ok observation ∧
      compare expectation observation = .ok surprise ∧ surprise.clean = true)

theorem execute_accounted {observe : σ → List TestOutcome → Except ShadowError Observation} {wholeWorkspace : Bool}
    {minter minter' : RustMinter host} {s s' : σ} {actions : List Rust.Action} {expectation : Expectation}
    {tests : List TestOutcome} {report : ExecutionReport}
    (h : execute S observe wholeWorkspace sandbox digest tokens nowUnix minter s actions expectation tests =
      .ok (report, minter', s')) :
    Accounted tokens digest nowUnix sandbox S observe minter s actions expectation tests report s' := by
  have hturn := @performAction_turn host σ ρ S sandbox digest tokens nowUnix
  unfold execute at h
  split_ifs at h
  dsimp only at h
  obtain ⟨hreport, hrest⟩ := Prod.mk.inj (Except.ok.inj h)
  have hs : (performAll S sandbox digest tokens nowUnix 0 (minter, s) actions).2.2 = s' := by rw [hrest]
  rw [hs] at hreport
  have houtcomes : report.outcomes = (performAll S sandbox digest tokens nowUnix 0 (minter, s) actions).1 := by
    rw [← hreport]
    split
    · rfl
    · rfl
  refine ⟨?_, ?_⟩
  · rw [houtcomes]
    apply loop_accounts hturn (fun _ _ ↦ candidate_some) performAction_blocked
    intro tokenId
    exact le_trans (loop_countdown hturn 0 (minter, s) actions tokenId)
      (heldUnder_mono (fun uses ↦ stepsLeft_le_usesLeft uses) minter tokenId)
  · unfold ExecutionReport.isOk
    rw [Bool.and_eq_true, decide_eq_true_eq, report.refused_eq_zero_iff]
    apply and_congr_right
    intro _
    cases hobserve : observe s' tests with
    | error =>
      rw [hobserve] at hreport
      have hnone : report.surprise = none := by rw [← hreport]; rfl
      simp [hnone]
    | ok observation =>
      rw [hobserve] at hreport
      dsimp only at hreport
      cases hcompare : compare expectation observation with
      | error =>
        rw [hcompare] at hreport
        have hnone : report.surprise = none := by rw [← hreport]
        simp [hnone, hcompare]
      | ok surprise =>
        rw [hcompare] at hreport
        have hsome : report.surprise = some surprise := by rw [← hreport]
        simp [hsome, hcompare]

end Rust

/-- The executor of the control plane keeps its accounts, whatever the shadow and the
actions, exactly when the uses of the tokens it can act with count down to zero; the
executor of the crate always does. -/
theorem execution_accounting_iff (authorized : AuthorizedPlan host Number RawLimits) (tokens : List (JsToken host))
    (minter : JsMinter host) (nowUnix : Number) (sandbox : ExecuteSandbox)
    (locate : String → Except ShadowError (List String)) (rauthorized : AuthorizedPlan host Int64 Empty)
    (rtokens : List (Rust.RustToken host)) (rminter : Rust.RustMinter host) (rnowUnix : Int64)
    (rsandbox : Option Rust.ExecuteSandboxConfig) :
    ((∀ (σ : Type) (carryOut : ℕ → σ → Action → List String → σ × Effect)
        (observe : σ → List TestOutcome → Except ShadowError Observation) (coverage : Coverage) (s s' : σ)
        (actions : List Action) (expectation : Expectation) (tests : List TestOutcome) (result : Result)
        (minter' : JsMinter host),
        executeIn ⟨locate, carryOut⟩ observe coverage sandbox authorized.digest tokens nowUnix minter s actions
          expectation tests = .ok (result, minter', s') →
        JsAccounted tokens authorized.digest nowUnix sandbox ⟨locate, carryOut⟩ observe minter s actions expectation
          tests result s') ↔
      CountsDown sandbox authorized.digest tokens nowUnix locate minter) ∧
    ∀ (σ ρ : Type) (S : Rust.Surface σ ρ) (observe : σ → List TestOutcome → Except ShadowError Observation)
      (wholeWorkspace : Bool) (s s' : σ) (actions : List Rust.Action) (expectation : Expectation)
      (tests : List TestOutcome) (report : Rust.ExecutionReport) (rminter' : Rust.RustMinter host),
      Rust.execute S observe wholeWorkspace rsandbox rauthorized.digest rtokens rnowUnix rminter s actions expectation
        tests = .ok (report, rminter', s') →
      Rust.Accounted rtokens rauthorized.digest rnowUnix rsandbox S observe rminter s actions expectation tests report
        s' := by
  refine ⟨⟨?_, ?_⟩, ?_⟩
  · intro haccounted action token husable uses hget
    by_contra hlt
    rw [not_le] at hlt
    obtain ⟨n, hn⟩ := ENat.ne_top_iff_exists.mp (ne_top_of_lt hlt)
    rw [← hn] at hlt
    have hfull : ∀ k < n + 1, Number.decrement^[k] uses ≠ Number.zero := by
      intro k hk
      have hspent := @not_spent_of_lt host (Js.dialect host) uses k (lt_of_le_of_lt (by exact_mod_cast Nat.le_of_lt_succ hk) hlt)
      exact of_decide_eq_false hspent
    -- the same action once more than there are whole uses, where every effect succeeds
    have hran := @performAll_replicate host sandbox authorized.digest tokens nowUnix locate action token (n + 1)
      minter uses 0 husable hget hfull
    obtain ⟨haccounts, -⟩ := haccounted Unit (fun _ s _ _ ↦ (s, ⟨true, none, none⟩)) (fun _ tests ↦ .ok ⟨[], tests⟩)
      .wholeWorkspace () () (List.replicate (n + 1) action) ⟨[], [], []⟩ [] _ _ rfl
    have hcounted := haccounts.counted token.id
    have hheld : heldUnder Js.usesLeft minter token.id = n := by
      rw [hn]
      unfold heldUnder
      rw [hget]
    have houtcomes : ∀ outcomes observation, (conclude authorized.digest ⟨[], [], []⟩ outcomes observation).outcomes =
        outcomes := by
      intro outcomes observation
      unfold conclude
      cases compare ⟨[], [], []⟩ observation with
      | ok | error => rfl
    rw [houtcomes, hran, List.countP_replicate, if_pos (by simp [Entry.performedUnder])] at hcounted
    have hle : ((n + 1 : ℕ) : ℕ∞) ≤ n := le_of_le_of_eq hcounted hheld
    exact absurd (by exact_mod_cast hle) (Nat.not_succ_le_self n)
  · intro hcounts σ carryOut observe coverage s s' actions expectation tests result minter' h
    exact executeIn_accounted hcounts h
  · intro σ ρ S observe wholeWorkspace s s' actions expectation tests report rminter' h
    exact Rust.execute_accounted h

section Sample

def usesHeld (minter : JsMinter host) (tokenId : String) : Option Number := minter.issued.get tokenId

def readPlan : AuthorizedPlan Host.sample Number RawLimits := writePlan "data/x.txt"

def readRequest (uses : ℚ) : (Js.dialect Host.sample).Asked :=
  Js.sampleRequest "s" ["data/x.txt"] ["READ"] (.ofRat uses)

def readToken (uses : ℚ) : JsToken Host.sample := Js.sampleSession.minter.tokenFor readPlan (readRequest uses) none

def readMinter (uses : ℚ) : JsMinter Host.sample :=
  (Js.sampleSession.step (.mint readPlan (readRequest uses) (Number.ofRat 1))).minter

def readTwice (uses : ℚ) : Except ShadowError (Result × JsMinter Host.sample × Disk) :=
  executeIn (diskSurface ⟨fun _ ↦ "", fun _ disk ↦ (disk, ⟨false, none, none⟩)⟩ ["shadow"]) (fun _ tests ↦ .ok ⟨[], tests⟩)
    .wholeWorkspace .absent readPlan.digest [readToken uses] (.ofRat 2) (readMinter uses) sampleDisk
    (List.replicate 2 ⟨"READ", "data/x.txt", "", none, "", []⟩) ⟨[], [], []⟩ []

end Sample

/-- A token with one and a half uses reads twice. -/
theorem execute_exceeds_uses :
    usesHeld (readMinter (3 / 2)) (readToken (3 / 2)).id = some (.ofRat (3 / 2)) ∧
    heldUnder Js.usesLeft (readMinter (3 / 2)) (readToken (3 / 2)).id = 1 ∧
    ((readTwice (3 / 2)).toOption.map fun ran ↦ (ran.1.outcomes.map (Outcome.entry Host.sample)).countP
      (Entry.performedUnder (readToken (3 / 2)).id)) = some 2 := by
  have hheld : usesHeld (readMinter (3 / 2)) (readToken (3 / 2)).id = some (.ofRat (3 / 2)) := by decide +kernel
  refine ⟨hheld, ?_, by decide +kernel⟩
  have hfloor : ⌊(Binary64.ofRat (3 / 2)).val⌋₊ = 1 := by decide +kernel
  have hmeasure : heldUnder Js.usesLeft (readMinter (3 / 2)) (readToken (3 / 2)).id =
      ((usesHeld (readMinter (3 / 2)) (readToken (3 / 2)).id).map Js.usesLeft).getD 0 := by
    unfold heldUnder usesHeld
    cases (readMinter (3 / 2)).issued.get (readToken (3 / 2)).id with
    | none => rfl
    | some => rfl
  rw [hmeasure, hheld]
  exact congrArg (Nat.cast : ℕ → ℕ∞) hfloor

end Noesar.Shadow
