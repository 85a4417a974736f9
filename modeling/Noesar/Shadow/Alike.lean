import Noesar.Capability.Agreement
import Noesar.Shadow.Accounting
import Noesar.Shadow.Effects

namespace Noesar.Shadow

open Lib Lib.Framing Lib.PosixPath Capability

variable {host : Host}

abbrev TokenPair (host : Host) := JsToken host × Rust.RustToken host

structure SameToken (pair : TokenPair host) : Prop where
  planDigest : pair.1.planDigest = pair.2.planDigest
  paths : pair.1.paths = pair.2.paths
  operations : pair.1.operations = pair.2.operations.map Capability.Rust.Operation.name
  expiresAtUnix : Reads pair.1.expiresAtUnix pair.2.expiresAtUnix.toInt

def SameUses : Option Number → Option UInt32 → Prop
  | none, none => True
  | some uses, some uses' => Reads uses uses'.toNat
  | _, _ => False

/-- Two minters that are equal on the tokens of a list: each side verifies the same ones, tells
the same ones apart by their ids, and holds the same uses of each. -/
structure SameMinters (pairs : List (TokenPair host)) (minter : JsMinter host) (minter' : Rust.RustMinter host) :
    Prop where
  same : ∀ pair ∈ pairs, SameToken pair
  verifies : ∀ pair ∈ pairs, (Js.dialect host).sign minter.secret pair.1 = pair.1.mac ↔
    (Capability.Rust.dialect host).sign minter'.secret pair.2 = pair.2.mac
  ids : ∀ p ∈ pairs, ∀ q ∈ pairs, p.1.id = q.1.id ↔ p.2.id = q.2.id
  held : ∀ pair ∈ pairs, SameUses (minter.issued.get pair.1.id) (minter'.issued.get pair.2.id)

theorem isSpent_alike {uses : Number} {uses' : UInt32} (h : Reads uses uses'.toNat) :
    (Js.dialect host).isSpent uses = (Capability.Rust.dialect host).isSpent uses' := by
  have hiff : uses = Number.zero ↔ uses' = 0 := by
    obtain ⟨x, rfl, hx⟩ := h
    unfold Number.zero
    rw [Number.finite.injEq, Binary64.mk.injEq, ← UInt32.toNat_inj, hx]
    norm_cast
  exact decide_eq_decide.mpr hiff

theorem lapsed_alike {expires nowUnix : Number} {expires' nowUnix' : Int64} (hexpires : Reads expires expires'.toInt)
    (hnow : Reads nowUnix nowUnix'.toInt) :
    (Js.dialect host).lapsed nowUnix expires = (Capability.Rust.dialect host).lapsed nowUnix' expires' := by
  have hiff : decide (expires'.toInt ≤ nowUnix'.toInt) = decide (expires' ≤ nowUnix') :=
    decide_eq_decide.mpr Int64.le_iff_toInt_le.symm
  exact (hexpires.le hnow).trans hiff

theorem oneLess_alike {uses : Number} {uses' : UInt32} (h : Reads uses uses'.toNat)
    (hspent : (Capability.Rust.dialect host).isSpent uses' = false) :
    SameUses (some ((Js.dialect host).oneLess uses)) (some ((Capability.Rust.dialect host).oneLess uses')) := by
  have hfull : uses' ≠ 0 := of_decide_eq_false hspent
  obtain ⟨x, rfl, hx⟩ := h
  have hone := Capability.Rust.oneLess_toNat hfull
  have hsub : (uses' - 1).toNat + 1 = uses'.toNat := by
    have hle : (1 : UInt32) ≤ uses' := by
      rw [UInt32.le_iff_toNat_le, UInt32.toNat_one]
      omega
    rw [UInt32.toNat_sub_of_le _ _ hle, UInt32.toNat_one]
    omega
  have hsmall : (uses' - 1).toNat ≤ 2 ^ 53 := by
    have hlt := (uses' - 1).toNat_lt
    omega
  refine ⟨Binary64.ofRat (x.val - 1), rfl, ?_⟩
  have hval : x.val - 1 = ((uses' - 1).toNat : ℚ) := by
    rw [hx, ← hsub]
    push_cast
    ring
  have hround : round53 (x.val - 1) = ((uses' - 1).toNat : ℚ) := by
    rw [hval]
    exact round53_natCast hsmall
  exact_mod_cast hround

theorem name_mem_iff {operation : Capability.Rust.Operation} {operations : List Capability.Rust.Operation} :
    operation.name ∈ operations.map Capability.Rust.Operation.name ↔ operation ∈ operations := by
  apply List.mem_map_of_injective
  intro a b h
  cases a <;> cases b <;> simp_all [Capability.Rust.Operation.name]

theorem Rust.Action.js_path (action : Rust.Action) : action.js.path = action.path := by
  cases action with
  | read | write | delete | execute => rfl

theorem Rust.Action.js_kind (action : Rust.Action) : action.js.kind = action.operation.name := by
  cases action with
  | read | write | delete | execute => rfl

section Spend

variable {pairs : List (TokenPair host)} {minter minter₁ : JsMinter host} {minter' minter₁' : Rust.RustMinter host}
  {pair : TokenPair host} {nowUnix : Number} {nowUnix' : Int64} {path : String} {operation : Capability.Rust.Operation}
  {left : Number} {left' : UInt32}

theorem SameMinters.spends (h : SameMinters pairs minter minter') (hpair : pair ∈ pairs)
    (hnow : Reads nowUnix nowUnix'.toInt) (hspends : minter.Spends pair.1 ⟨path, operation.name⟩ nowUnix left minter₁) :
    ∃ left' minter₁', minter'.Spends pair.2 ⟨path, operation⟩ nowUnix' left' minter₁' := by
  obtain ⟨uses, hget, hfull, rfl⟩ := hspends.held
  have hsame := h.same pair hpair
  have hheld := h.held pair hpair
  rw [hget] at hheld
  cases hget' : minter'.issued.get pair.2.id with
  | none =>
    rw [hget'] at hheld
    exact hheld.elim
  | some uses' =>
    rw [hget'] at hheld
    refine ⟨_, _, (h.verifies pair hpair).mp hspends.verifies, ⟨uses', hget', ?_, rfl⟩, ?_, ?_, ?_, rfl⟩
    · exact (isSpent_alike hheld).symm.trans hfull
    · exact (lapsed_alike hsame.expiresAtUnix hnow).symm.trans hspends.inTime
    · rw [← hsame.paths]
      exact hspends.path
    · have hoperation : operation.name ∈ pair.1.operations := hspends.operation
      rw [hsame.operations] at hoperation
      exact name_mem_iff.mp hoperation

theorem SameMinters.spends_back (h : SameMinters pairs minter minter') (hpair : pair ∈ pairs)
    (hnow : Reads nowUnix nowUnix'.toInt)
    (hspends : minter'.Spends pair.2 ⟨path, operation⟩ nowUnix' left' minter₁') :
    ∃ left minter₁, minter.Spends pair.1 ⟨path, operation.name⟩ nowUnix left minter₁ := by
  obtain ⟨uses', hget', hfull, rfl⟩ := hspends.held
  have hsame := h.same pair hpair
  have hheld := h.held pair hpair
  rw [hget'] at hheld
  cases hget : minter.issued.get pair.1.id with
  | none =>
    rw [hget] at hheld
    exact hheld.elim
  | some uses =>
    rw [hget] at hheld
    refine ⟨_, _, (h.verifies pair hpair).mpr hspends.verifies, ⟨uses, hget, ?_, rfl⟩, ?_, ?_, ?_, rfl⟩
    · exact (isSpent_alike hheld).trans hfull
    · exact (lapsed_alike hsame.expiresAtUnix hnow).trans hspends.inTime
    · rw [hsame.paths]
      exact hspends.path
    · have hoperation : operation ∈ pair.2.operations := hspends.operation
      show operation.name ∈ pair.1.operations
      rw [hsame.operations]
      exact name_mem_iff.mpr hoperation

theorem SameMinters.after (h : SameMinters pairs minter minter') (hpair : pair ∈ pairs)
    (hspends : minter.Spends pair.1 ⟨path, operation.name⟩ nowUnix left minter₁)
    (hspends' : minter'.Spends pair.2 ⟨path, operation⟩ nowUnix' left' minter₁') :
    SameMinters pairs minter₁ minter₁' := by
  obtain ⟨uses, hget, -, rfl⟩ := hspends.held
  obtain ⟨uses', hget', hfull', rfl⟩ := hspends'.held
  have hheld := h.held pair hpair
  rw [hget, hget'] at hheld
  rw [hspends.after, hspends'.after]
  refine ⟨h.same, h.verifies, h.ids, ?_⟩
  intro q hq
  by_cases hid : pair.1.id = q.1.id
  · have hid' := (h.ids pair hpair q hq).mp hid
    rw [← hid, ← hid']
    dsimp only
    rw [InsertionMap.get_set_self, InsertionMap.get_set_self]
    exact oneLess_alike hheld hfull'
  · have hid' : ¬ pair.2.id = q.2.id := fun he ↦ hid ((h.ids pair hpair q hq).mpr he)
    dsimp only
    rw [InsertionMap.get_set_ne _ _ (Ne.symm hid), InsertionMap.get_set_ne _ _ (Ne.symm hid')]
    exact h.held q hq

end Spend

section Turns

local instance lawfulJs : LawfulBEq (Js.dialect host).Operation := inferInstance

local instance lawfulRust : LawfulBEq (Capability.Rust.dialect host).Operation := inferInstance

/-- The control plane looks for a token of its own plan, the crate for one of any plan. -/
def own (digest : String) (action : Rust.Action) (pair : TokenPair host) : Bool :=
  pair.1.planDigest = digest && action.js.path ∈ pair.1.paths &&
    (show (Js.dialect host).Operation from action.js.kind) ∈ pair.1.operations

def listed (action : Rust.Action) (pair : TokenPair host) : Bool :=
  action.path ∈ pair.2.paths && (show (Capability.Rust.dialect host).Operation from action.operation) ∈ pair.2.operations

def spent (pairs : List (TokenPair host)) (digest : String) (nowUnix : Number) (minter : JsMinter host)
    (action : Rust.Action) : Option (TokenPair host) :=
  (pairs.find? (own digest action)).filter fun pair ↦
    (minter.spend pair.1 ⟨action.js.path, action.js.kind⟩ nowUnix).isOk

def Rust.spent (pairs : List (TokenPair host)) (digest : String) (nowUnix : Int64) (minter : Rust.RustMinter host)
    (action : Rust.Action) : Option (TokenPair host) :=
  ((pairs.find? (listed action)).filter fun pair ↦ pair.2.planDigest = digest).filter fun pair ↦
    (minter.spend pair.2 ⟨action.path, action.operation⟩ nowUnix).isOk

variable {pairs : List (TokenPair host)} {digest : String} {nowUnix : Number} {nowUnix' : Int64}
  {minter : JsMinter host} {minter' : Rust.RustMinter host} {action : Rust.Action} {root : List String} {disk : Disk}
  {system : System} {position : ℕ}

theorem kind_ne_execute (hkind : action.operation ≠ .execute) : action.js.kind ≠ "EXECUTE" := by
  rw [action.js_kind]
  cases hoperation : action.operation with
  | read | write | delete => decide
  | execute => exact absurd hoperation hkind

theorem kind_known : action.js.kind ∈ Js.operations := by
  rw [action.js_kind]
  cases action.operation with
  | read | write | delete | execute => decide

def jsTurn (system : System) (root : List String) (sandbox : ExecuteSandbox) (digest : String)
    (pairs : List (TokenPair host)) (nowUnix : Number) (position : ℕ) (t : JsMinter host × Disk) (action : Rust.Action) :
    Outcome × JsMinter host × Disk :=
  performAction (diskSurface system root) sandbox digest (pairs.map Prod.fst) nowUnix position t.1 t.2 action.js

def rustTurn (system : System) (root : List String) (sandbox : Option Rust.ExecuteSandboxConfig) (digest : String)
    (pairs : List (TokenPair host)) (nowUnix : Int64) :
    ℕ → Rust.RustMinter host × Disk → Rust.Action → Rust.ActionOutcome × Rust.RustMinter host × Disk :=
  Rust.performAction (Rust.diskSurface system root) sandbox digest (pairs.map Prod.snd) nowUnix

theorem jsTurn_tried (hkind : action.operation ≠ .execute) (hroot : ∀ name ∈ root, Plain name)
    (sandbox : ExecuteSandbox) :
    match spent pairs digest nowUnix minter action with
    | none => ∃ outcome, outcome.performed = false ∧
      jsTurn system root sandbox digest pairs nowUnix position (minter, disk) action = (outcome, minter, disk)
    | some pair => pair ∈ pairs ∧ ∃ left minter₁ outcome,
      minter.Spends pair.1 ⟨action.js.path, action.js.kind⟩ nowUnix left minter₁ ∧
      outcome.performed = (tried root disk action).2 ∧
      jsTurn system root sandbox digest pairs nowUnix position (minter, disk) action =
        (outcome, minter₁, (tried root disk action).1) := by
  have hfound : tokenFor (pairs.map Prod.fst) action.js digest = (pairs.find? (own digest action)).map Prod.fst := by
    unfold tokenFor
    rw [List.find?_map]
    rfl
  have hexecute := kind_ne_execute hkind
  unfold jsTurn performAction spent
  dsimp only
  rw [if_neg fun h ↦ hexecute h.1, if_neg fun h ↦ hexecute h.1, if_neg (not_not.mpr kind_known), hfound]
  cases hpair : pairs.find? (own digest action) with
  | none => exact ⟨_, rfl, rfl⟩
  | some pair =>
    rw [Option.map_some, Option.filter_some]
    dsimp only
    cases hspend : minter.spend pair.1 ⟨action.js.path, action.js.kind⟩ nowUnix with
    | error => exact ⟨_, rfl, rfl⟩
    | ok r =>
      obtain ⟨left, minter₁⟩ := r
      have hspends := TokenMinter.spend_ok_iff.mp hspend
      refine ⟨List.mem_of_find?_eq_some hpair, left, minter₁, ?_⟩
      dsimp only
      rw [if_neg fun h ↦ hexecute h.1]
      have hlocate : (diskSurface system root).locate action.js.path = (place action.path).map (root ++ ·) := by
        rw [action.js_path]
        exact contained_eq hroot action.path
      rw [hlocate]
      unfold tried
      cases place action.path with
      | error => exact ⟨_, hspends, rfl, rfl⟩
      | ok names =>
        obtain ⟨hdisk, hperformed⟩ := carryOut_act system root position disk (root ++ names) hkind
        exact ⟨_, hspends, hperformed, Prod.ext rfl (Prod.ext rfl hdisk)⟩

theorem rustTurn_tried (hkind : action.operation ≠ .execute) (sandbox : Option Rust.ExecuteSandboxConfig) :
    match Rust.spent pairs digest nowUnix' minter' action with
    | none => ∃ outcome, outcome.performed = false ∧
      rustTurn system root sandbox digest pairs nowUnix' position (minter', disk) action = (outcome, minter', disk)
    | some pair => pair ∈ pairs ∧ ∃ left minter₁ outcome,
      minter'.Spends pair.2 ⟨action.path, action.operation⟩ nowUnix' left minter₁ ∧
      outcome.performed = (Rust.tried root disk action).2 ∧
      rustTurn system root sandbox digest pairs nowUnix' position (minter', disk) action =
        (outcome, minter₁, (Rust.tried root disk action).1) := by
  have hfound : Rust.candidate (pairs.map Prod.snd) digest action =
      ((pairs.find? (listed action)).filter fun pair ↦ pair.2.planDigest = digest).map Prod.snd := by
    unfold Rust.candidate Rust.tokenFor
    rw [List.find?_map, Option.filter_map]
    rfl
  unfold rustTurn Rust.performAction Rust.spent
  dsimp only
  rw [if_neg fun h ↦ hkind h.1, hfound]
  cases hpair : (pairs.find? (listed action)).filter fun pair ↦ pair.2.planDigest = digest with
  | none => exact ⟨_, rfl, rfl⟩
  | some pair =>
    have hmem : pair ∈ pairs := List.mem_of_find?_eq_some (Option.filter_eq_some_iff.mp hpair).1
    rw [Option.map_some, Option.filter_some]
    dsimp only
    cases hspend : minter'.spend pair.2 ⟨action.path, action.operation⟩ nowUnix' with
    | error => exact ⟨_, rfl, rfl⟩
    | ok r =>
      obtain ⟨left, minter₁⟩ := r
      have hspends := TokenMinter.spend_ok_iff.mp hspend
      refine ⟨hmem, left, minter₁, ?_⟩
      dsimp only
      have hlocate : (Rust.diskSurface system root).locate action.path = Rust.contained root action.path := rfl
      rw [hlocate]
      unfold Rust.tried
      cases Rust.contained root action.path with
      | error => exact ⟨_, hspends, rfl, rfl⟩
      | ok resolved =>
        dsimp only
        rw [if_neg fun h ↦ hkind h.1, if_neg fun h ↦ hkind h.1]
        obtain ⟨hdisk, hperformed⟩ := Rust.carryOut_act system root position disk resolved hkind
        exact ⟨_, hspends, hperformed, Prod.ext rfl (Prod.ext rfl hdisk)⟩

theorem own_iff {pair : TokenPair host} (h : SameToken pair) :
    own digest action pair = true ↔ pair.2.planDigest = digest ∧ listed action pair = true := by
  unfold own listed
  rw [action.js_path, action.js_kind, h.planDigest, h.paths]
  have hoperation : (show (Js.dialect host).Operation from action.operation.name) ∈ pair.1.operations ↔
      (show (Capability.Rust.dialect host).Operation from action.operation) ∈ pair.2.operations := by
    rw [h.operations]
    exact name_mem_iff
  simp only [Bool.and_eq_true, decide_eq_true_eq, hoperation, and_assoc]

/-- The token the control plane would spend comes first among all that list the path and the
operation, whatever their plan. -/
def LookupsAlike (pairs : List (TokenPair host)) (digest : String) (nowUnix : Number) (minter : JsMinter host)
    (action : Rust.Action) : Prop :=
  ∀ pair, spent pairs digest nowUnix minter action = some pair → pairs.find? (listed action) = some pair

theorem find?_of_implies {α : Type} {weak strong : α → Bool} {xs : List α} {x : α}
    (himplies : ∀ y ∈ xs, strong y = true → weak y = true) (h : xs.find? weak = some x) (hx : strong x = true) :
    xs.find? strong = some x := by
  induction xs with
  | nil => cases h
  | cons y xs ih =>
    rw [List.find?_cons] at h ⊢
    cases hweak : weak y with
    | true =>
      rw [hweak] at h
      cases h
      rw [hx]
    | false =>
      rw [hweak] at h
      have hstrong : strong y = false := by
        rw [← Bool.not_eq_true]
        intro hs
        rw [himplies y (by simp) hs] at hweak
        cases hweak
      rw [hstrong]
      exact ih (fun z hz ↦ himplies z (List.mem_cons_of_mem y hz)) h

theorem spent_some_iff {pair : TokenPair host} :
    spent pairs digest nowUnix minter action = some pair ↔ pairs.find? (own digest action) = some pair ∧
      ∃ left minter₁, minter.Spends pair.1 ⟨action.js.path, action.js.kind⟩ nowUnix left minter₁ := by
  unfold spent
  rw [Option.filter_eq_some_iff]
  exact and_congr_right fun _ ↦ TokenMinter.spend_isOk_iff

theorem Rust.spent_some_iff {pair : TokenPair host} :
    Rust.spent pairs digest nowUnix' minter' action = some pair ↔ pairs.find? (listed action) = some pair ∧
      pair.2.planDigest = digest ∧
      ∃ left minter₁, minter'.Spends pair.2 ⟨action.path, action.operation⟩ nowUnix' left minter₁ := by
  unfold Rust.spent
  rw [Option.filter_eq_some_iff, Option.filter_eq_some_iff, decide_eq_true_eq, and_assoc]
  exact and_congr_right fun _ ↦ and_congr_right fun _ ↦ TokenMinter.spend_isOk_iff

theorem spent_alike_iff (h : SameMinters pairs minter minter') (hnow : Reads nowUnix nowUnix'.toInt) :
    spent pairs digest nowUnix minter action = Rust.spent pairs digest nowUnix' minter' action ↔
      LookupsAlike pairs digest nowUnix minter action := by
  have hback : ∀ pair, Rust.spent pairs digest nowUnix' minter' action = some pair →
      spent pairs digest nowUnix minter action = some pair := by
    intro pair hspent
    obtain ⟨hfind, hdigest, left, minter₁, hspends⟩ := Rust.spent_some_iff.mp hspent
    have hmem := List.mem_of_find?_eq_some hfind
    refine spent_some_iff.mpr ⟨?_, ?_⟩
    · refine find?_of_implies ?_ hfind ((own_iff (h.same pair hmem)).mpr ⟨hdigest, List.find?_some hfind⟩)
      intro q hq hown
      exact ((own_iff (h.same q hq)).mp hown).2
    · rw [action.js_path, action.js_kind]
      exact h.spends_back hmem hnow hspends
  constructor
  · intro hsame pair hspent
    rw [hsame] at hspent
    exact (Rust.spent_some_iff.mp hspent).1
  · intro hlookups
    cases hspent : spent pairs digest nowUnix minter action with
    | none =>
      cases hspent' : Rust.spent pairs digest nowUnix' minter' action with
      | none => rfl
      | some pair =>
        rw [hback pair hspent'] at hspent
        cases hspent
    | some pair =>
      obtain ⟨hfind, left, minter₁, hspends⟩ := spent_some_iff.mp hspent
      have hmem := List.mem_of_find?_eq_some hfind
      rw [action.js_path, action.js_kind] at hspends
      refine (Rust.spent_some_iff.mpr ⟨hlookups pair hspent, ?_, h.spends hmem hnow hspends⟩).symm
      exact ((own_iff (h.same pair hmem)).mp (List.find?_some hfind)).1

/-- What has to hold of the state before an action for the two sides to act alike on it. -/
def StepAlike (pairs : List (TokenPair host)) (digest : String) (nowUnix : Number) (root : List String)
    (state : JsMinter host × Disk) (action : Rust.Action) : Prop :=
  LookupsAlike pairs digest nowUnix state.1 action ∧
    ∀ pair, spent pairs digest nowUnix state.1 action = some pair → EffectsAlike root state.2 action

theorem turn_alike_iff (h : SameMinters pairs minter minter') (hnow : Reads nowUnix nowUnix'.toInt)
    (hkind : action.operation ≠ .execute) (hroot : ∀ name ∈ root, Plain name) (sandbox : ExecuteSandbox)
    (sandbox' : Option Rust.ExecuteSandboxConfig) (system' : System) :
    (spent pairs digest nowUnix minter action = Rust.spent pairs digest nowUnix' minter' action ∧
      (jsTurn system root sandbox digest pairs nowUnix position (minter, disk) action).1.performed =
        (rustTurn system' root sandbox' digest pairs nowUnix' position (minter', disk) action).1.performed ∧
      (jsTurn system root sandbox digest pairs nowUnix position (minter, disk) action).2.2 =
        (rustTurn system' root sandbox' digest pairs nowUnix' position (minter', disk) action).2.2) ↔
    StepAlike pairs digest nowUnix root (minter, disk) action := by
  have hjs := @jsTurn_tried host pairs digest nowUnix minter action root disk system position hkind hroot sandbox
  have hrust := @rustTurn_tried host pairs digest nowUnix' minter' action root disk system' position hkind sandbox'
  unfold StepAlike
  rw [← spent_alike_iff h hnow]
  apply and_congr_right
  intro hsame
  rw [← hsame] at hrust
  cases hspent : spent pairs digest nowUnix minter action with
  | none =>
    rw [hspent] at hjs hrust
    obtain ⟨outcome, hperformed, hturn⟩ := hjs
    obtain ⟨outcome', hperformed', hturn'⟩ := hrust
    rw [hturn, hturn']
    exact iff_of_true ⟨hperformed.trans hperformed'.symm, rfl⟩ fun _ h ↦ by cases h
  | some pair =>
    rw [hspent] at hjs hrust
    obtain ⟨-, left, minter₁, outcome, -, hperformed, hturn⟩ := hjs
    obtain ⟨-, left', minter₁', outcome', -, hperformed', hturn'⟩ := hrust
    rw [hturn, hturn', hperformed, hperformed']
    have halike := @tried_alike_iff root disk action fun name hname ↦ (hroot name hname).2.2
    constructor
    · rintro ⟨hflag, hdisk⟩ _ _
      exact halike.mp (Prod.ext hdisk hflag)
    · intro heffects
      have htried := halike.mpr (heffects pair rfl)
      rw [htried]
      exact ⟨rfl, rfl⟩

theorem turn_minters (h : SameMinters pairs minter minter') (hkind : action.operation ≠ .execute)
    (hroot : ∀ name ∈ root, Plain name) (sandbox : ExecuteSandbox)
    (sandbox' : Option Rust.ExecuteSandboxConfig) (system' : System)
    (hsame : spent pairs digest nowUnix minter action = Rust.spent pairs digest nowUnix' minter' action) :
    SameMinters pairs (jsTurn system root sandbox digest pairs nowUnix position (minter, disk) action).2.1
      (rustTurn system' root sandbox' digest pairs nowUnix' position (minter', disk) action).2.1 := by
  have hjs := @jsTurn_tried host pairs digest nowUnix minter action root disk system position hkind hroot sandbox
  have hrust := @rustTurn_tried host pairs digest nowUnix' minter' action root disk system' position hkind sandbox'
  rw [← hsame] at hrust
  cases hspent : spent pairs digest nowUnix minter action with
  | none =>
    rw [hspent] at hjs hrust
    obtain ⟨outcome, -, hturn⟩ := hjs
    obtain ⟨outcome', -, hturn'⟩ := hrust
    rw [hturn, hturn']
    exact h
  | some =>
    rw [hspent] at hjs hrust
    obtain ⟨hmem, left, minter₁, outcome, hspends, -, hturn⟩ := hjs
    obtain ⟨-, left', minter₁', outcome', hspends', -, hturn'⟩ := hrust
    rw [hturn, hturn']
    rw [action.js_path, action.js_kind] at hspends
    exact h.after hmem hspends hspends'

end Turns

section Runs

variable {pairs : List (TokenPair host)} {digest : String} {nowUnix : Number} {nowUnix' : Int64} {root : List String}
  {system system' : System} {sandbox : ExecuteSandbox} {sandbox' : Option Rust.ExecuteSandboxConfig}

def jsRun (system : System) (root : List String) (sandbox : ExecuteSandbox) (digest : String)
    (pairs : List (TokenPair host)) (nowUnix : Number) (minter : JsMinter host) (disk : Disk)
    (actions : List Rust.Action) : List Outcome × JsMinter host × Disk :=
  performAll (diskSurface system root) sandbox digest (pairs.map Prod.fst) nowUnix 0 minter disk
    (actions.map Rust.Action.js)

def rustRun (system : System) (root : List String) (sandbox : Option Rust.ExecuteSandboxConfig) (digest : String)
    (pairs : List (TokenPair host)) (nowUnix : Int64) (minter : Rust.RustMinter host) (disk : Disk)
    (actions : List Rust.Action) : List Rust.ActionOutcome × Rust.RustMinter host × Disk :=
  Rust.performAll (Rust.diskSurface system root) sandbox digest (pairs.map Prod.snd) nowUnix 0 (minter, disk) actions

/-- At every action the two sides perform it or both refuse it, spend the same token, and leave
the same files. -/
def RunsAlike (system system' : System) (root : List String) (sandbox : ExecuteSandbox)
    (sandbox' : Option Rust.ExecuteSandboxConfig) (digest : String) (pairs : List (TokenPair host)) (nowUnix : Number)
    (nowUnix' : Int64) (minter : JsMinter host) (minter' : Rust.RustMinter host) (disk : Disk)
    (actions : List Rust.Action) : Prop :=
  ∀ (i : ℕ) action, actions[i]? = some action →
    (jsRun system root sandbox digest pairs nowUnix minter disk actions).1[i]?.map Outcome.performed =
      (rustRun system' root sandbox' digest pairs nowUnix' minter' disk actions).1[i]?.map
        Rust.ActionOutcome.performed ∧
    spent pairs digest nowUnix (jsRun system root sandbox digest pairs nowUnix minter disk (actions.take i)).2.1 action =
      Rust.spent pairs digest nowUnix'
        (rustRun system' root sandbox' digest pairs nowUnix' minter' disk (actions.take i)).2.1 action ∧
    (jsRun system root sandbox digest pairs nowUnix minter disk (actions.take (i + 1))).2.2 =
      (rustRun system' root sandbox' digest pairs nowUnix' minter' disk (actions.take (i + 1))).2.2

theorem jsRun_eq_loop (minter : JsMinter host) (disk : Disk) (actions : List Rust.Action) :
    jsRun system root sandbox digest pairs nowUnix minter disk actions =
      loop (jsTurn system root sandbox digest pairs nowUnix) 0 (minter, disk) actions := by
  unfold jsRun
  rw [performAll_eq_loop, loop_map]
  rfl

theorem runs_alike_iff (hnow : Reads nowUnix nowUnix'.toInt) (hroot : ∀ name ∈ root, Plain name)
    {minter : JsMinter host} {minter' : Rust.RustMinter host} {disk : Disk} {actions : List Rust.Action}
    (h : SameMinters pairs minter minter') (hkinds : ∀ action ∈ actions, action.operation ≠ .execute) :
    RunsAlike system system' root sandbox sandbox' digest pairs nowUnix nowUnix' minter minter' disk actions ↔
      ∀ (i : ℕ) action, actions[i]? = some action → StepAlike pairs digest nowUnix root
        (jsRun system root sandbox digest pairs nowUnix minter disk (actions.take i)).2 action := by
  have hstep : ∀ (i : ℕ) action (t : JsMinter host × Disk) (t' : Rust.RustMinter host × Disk),
      actions[i]? = some action → SameMinters pairs t.1 t'.1 ∧ t.2 = t'.2 →
      ((spent pairs digest nowUnix t.1 action = Rust.spent pairs digest nowUnix' t'.1 action ∧
        (jsTurn system root sandbox digest pairs nowUnix i t action).1.performed =
          (rustTurn system' root sandbox' digest pairs nowUnix' i t' action).1.performed ∧
        (jsTurn system root sandbox digest pairs nowUnix i t action).2.2 =
          (rustTurn system' root sandbox' digest pairs nowUnix' i t' action).2.2) ↔
        StepAlike pairs digest nowUnix root t action) ∧
      (StepAlike pairs digest nowUnix root t action →
        SameMinters pairs (jsTurn system root sandbox digest pairs nowUnix i t action).2.1
          (rustTurn system' root sandbox' digest pairs nowUnix' i t' action).2.1 ∧
        (jsTurn system root sandbox digest pairs nowUnix i t action).2.2 =
          (rustTurn system' root sandbox' digest pairs nowUnix' i t' action).2.2) := by
    rintro i action ⟨m, d⟩ ⟨m', d'⟩ haction ⟨hminters, rfl⟩
    have hkind := hkinds action (List.mem_of_getElem? haction)
    have hiff := @turn_alike_iff host pairs digest nowUnix nowUnix' m m' action root d system i hminters hnow hkind
      hroot sandbox sandbox' system'
    refine ⟨hiff, fun halike ↦ ?_⟩
    obtain ⟨hspent, -, hdisk⟩ := hiff.mpr halike
    exact ⟨turn_minters hminters hkind hroot sandbox sandbox' system' hspent, hdisk⟩
  have hlock := @loop_lockstep _ _ _ (jsTurn system root sandbox digest pairs nowUnix) _ _
    (rustTurn system' root sandbox' digest pairs nowUnix') (fun t t' ↦ SameMinters pairs t.1 t'.1 ∧ t.2 = t'.2) _
    (StepAlike pairs digest nowUnix root) actions hstep (minter, disk) (minter', disk) ⟨h, rfl⟩
  simp only [jsRun_eq_loop]
  rw [← hlock]
  unfold RunsAlike rustRun Rust.performAll
  simp only [jsRun_eq_loop]
  apply forall_congr'
  intro i
  apply forall_congr'
  intro action
  apply imp_congr_right
  intro haction
  rw [loop_getElem?, loop_getElem?, loop_take_succ haction, loop_take_succ haction, haction, Nat.zero_add,
    Option.map_some, Option.map_some, Option.map_some, Option.map_some, Option.some.injEq]
  exact and_left_comm

end Runs

section Observation

def joined : List String → String
  | [] => ""
  | [name] => name
  | name :: names => name ++ "/" ++ joined names

/-- What a walk of the tree below a directory finds, each entry with its digest. A link is
digested by where it points; a listing has no `.` and no `..`. -/
def currentTree (host : Host) (real : List String) (disk : Disk) : List (String × String) :=
  disk.nodes.entries.filterMap fun (p, node) ↦
    if real <+: p ∧ p.drop real.length ≠ [] ∧ ∀ name ∈ p.drop real.length, Plain name then
      match node with
      | .file bytes => some (joined (p.drop real.length), hex (host.sha256 bytes).toList)
      | .link target => some (joined (p.drop real.length), hex (host.sha256 (utf8 ("symlink:" ++ target))).toList)
      | .directory => none
    else none

def observeDisk (host : Host) (real : List String) (copied disk : Disk) (tests : List TestOutcome) : Observation where
  changed :=
    (currentTree host real copied).filterMap (fun (path, before) ↦
      match (currentTree host real disk).lookup path with
      | none => some (path, .deleted)
      | some after => if before = after then none else some (path, .modified)) ++
    (currentTree host real disk).filterMap fun (path, _) ↦
      if ((currentTree host real copied).lookup path).isSome then none else some (path, .created)
  tests := tests

theorem joined_ne_dot {names : List String} (hne : names ≠ []) (hplain : ∀ name ∈ names, Plain name) :
    joined names ≠ "." := by
  cases names with
  | nil => exact absurd rfl hne
  | cons name rest =>
    cases rest with
    | nil => exact (hplain name (by simp)).2.1
    | cons next rest =>
      intro h
      have hmem : '/' ∈ (joined (name :: next :: rest)).toList := by
        unfold joined
        simp [String.toList_append]
      rw [h] at hmem
      exact absurd hmem (by decide)

theorem dot_not_in_tree {real : List String} {disk : Disk} {path digest : String}
    (h : (path, digest) ∈ currentTree host real disk) : path ≠ "." := by
  unfold currentTree at h
  obtain ⟨⟨p, node⟩, -, hentry⟩ := List.mem_filterMap.mp h
  dsimp only at hentry
  split_ifs at hentry with hbelow
  cases node with
  | file | link =>
    cases hentry
    exact joined_ne_dot hbelow.2.1 hbelow.2.2
  | directory => cases hentry

theorem dot_not_observed (host : Host) (real : List String) (copied disk : Disk) (tests : List TestOutcome) :
    "." ∉ (observeDisk host real copied disk tests).changed.map Prod.fst := by
  intro h
  obtain ⟨⟨path, change⟩, hchange, hdot⟩ := List.mem_map.mp h
  unfold observeDisk at hchange
  rcases List.mem_append.mp hchange with hchange | hchange
  · obtain ⟨⟨q, before⟩, hq, hentry⟩ := List.mem_filterMap.mp hchange
    have hpath : q = path := by
      dsimp only at hentry
      split at hentry
      · cases hentry
        rfl
      · split_ifs at hentry
        cases hentry
        rfl
    rw [hpath] at hq
    exact dot_not_in_tree hq hdot
  · obtain ⟨⟨q, after⟩, hq, hentry⟩ := List.mem_filterMap.mp hchange
    dsimp only at hentry
    split_ifs at hentry
    cases hentry
    exact dot_not_in_tree hq hdot

theorem compare_alike {expectation : Expectation} {observation : Observation}
    (hdot : "." ∉ observation.changed.map Prod.fst) (surprise : Surprise) :
    compare expectation observation = .ok surprise ↔ Rust.compare expectation observation = .ok surprise := by
  have hunexpected : (observation.changed.map Prod.fst).filter
        (· ∉ expectation.pathsTheDiffMustTouch.filter (· ≠ ".")) =
      (observation.changed.map Prod.fst).filter (· ∉ expectation.pathsTheDiffMustTouch) := by
    apply List.filter_congr
    intro path hpath
    have hne : path ≠ "." := fun he ↦ hdot (he ▸ hpath)
    simp [hne]
  unfold compare Rust.compare
  by_cases hempty : observationIsEmpty observation = true
  · rw [if_pos hempty, if_pos hempty]
    simp
  · rw [if_neg hempty, if_neg hempty]
    dsimp only
    rewrite [hunexpected]
    exact Iff.rfl

end Observation

section Executions

variable {pairs : List (TokenPair host)} {digest : String} {nowUnix : Number} {nowUnix' : Int64} {root real : List String}
  {system system' : System} {sandbox : ExecuteSandbox} {sandbox' : Option Rust.ExecuteSandboxConfig}
  {minter : JsMinter host} {minter' : Rust.RustMinter host} {copied disk : Disk} {actions : List Rust.Action}

/-- The answers `ok` of the two executors, on a shadow of a whole workspace. -/
def jsOk (system : System) (root real : List String) (sandbox : ExecuteSandbox) (digest : String)
    (pairs : List (TokenPair host)) (nowUnix : Number) (minter : JsMinter host) (copied disk : Disk)
    (actions : List Rust.Action) (expectation : Expectation) (tests : List TestOutcome) : Option Bool :=
  (executeIn (diskSurface system root) (fun disk tests ↦ .ok (observeDisk host real copied disk tests)) .wholeWorkspace
    sandbox digest (pairs.map Prod.fst) nowUnix minter disk (actions.map Rust.Action.js) expectation tests).toOption.map
    fun r ↦ r.1.ok

def rustOk (system : System) (root real : List String) (sandbox : Option Rust.ExecuteSandboxConfig) (digest : String)
    (pairs : List (TokenPair host)) (nowUnix : Int64) (minter : Rust.RustMinter host) (copied disk : Disk)
    (actions : List Rust.Action) (expectation : Expectation) (tests : List TestOutcome) : Option Bool :=
  (Rust.execute (Rust.diskSurface system root) (fun disk tests ↦ .ok (observeDisk host real copied disk tests)) true
    sandbox digest (pairs.map Prod.snd) nowUnix minter disk actions expectation tests).toOption.map fun r ↦ r.1.isOk

theorem observedTests_nil {outcomes : List Outcome} (h : ∀ o ∈ outcomes, o.operation ≠ "EXECUTE") :
    observedTests outcomes = [] := by
  unfold observedTests
  rw [List.filterMap_eq_nil_iff]
  intro o ho
  have hne := h o ho
  rcases o.ran with _ | ⟨name, exitCode, stdout, stderr⟩
  · rfl
  · cases name with
    | none => rfl
    | some =>
      dsimp only
      rw [if_neg fun hc ↦ hne hc.1]

theorem jsRun_observedTests (hkinds : ∀ action ∈ actions, action.operation ≠ .execute) :
    observedTests (jsRun system root sandbox digest pairs nowUnix minter disk actions).1 = [] := by
  apply observedTests_nil
  intro o ho hexecute
  have hpaths := @performAll_paths host Disk (diskSurface system root) sandbox digest (pairs.map Prod.fst) nowUnix 0 minter
    disk (actions.map Rust.Action.js)
  have hmem : (o.path, o.operation) ∈ (actions.map Rust.Action.js).map fun a ↦ (a.path, a.kind) := by
    rw [← hpaths]
    exact List.mem_map_of_mem ho
  obtain ⟨a, ha, he⟩ := List.mem_map.mp hmem
  obtain ⟨action, haction, rfl⟩ := List.mem_map.mp ha
  exact kind_ne_execute (hkinds action haction) ((congrArg Prod.snd he).trans hexecute)

theorem RunsAlike.ends (h : RunsAlike system system' root sandbox sandbox' digest pairs nowUnix nowUnix' minter minter' disk
    actions) :
    (jsRun system root sandbox digest pairs nowUnix minter disk actions).1.map Outcome.performed =
      (rustRun system' root sandbox' digest pairs nowUnix' minter' disk actions).1.map Rust.ActionOutcome.performed ∧
    (jsRun system root sandbox digest pairs nowUnix minter disk actions).2.2 =
      (rustRun system' root sandbox' digest pairs nowUnix' minter' disk actions).2.2 := by
  have hlength : (jsRun system root sandbox digest pairs nowUnix minter disk actions).1.length = actions.length := by
    rw [jsRun_eq_loop, loop_length]
  have hlength' : (rustRun system' root sandbox' digest pairs nowUnix' minter' disk actions).1.length =
      actions.length := loop_length _ _ _
  constructor
  · apply List.ext_getElem?
    intro i
    rw [List.getElem?_map, List.getElem?_map]
    cases haction : actions[i]? with
    | none =>
      have hi := List.getElem?_eq_none_iff.mp haction
      rw [List.getElem?_eq_none (by omega), List.getElem?_eq_none (by omega)]
      rfl
    | some action => exact (h i action haction).1
  · rcases List.eq_nil_or_concat actions with rfl | ⟨init, last, rfl⟩
    · rfl
    · have hlast := (h init.length last (by simp)).2.2
      have htake : (init.concat last).take (init.length + 1) = init.concat last := by
        apply List.take_of_length_le
        simp
      rw [htake] at hlast
      exact hlast

theorem RunsAlike.ok (h : RunsAlike system system' root sandbox sandbox' digest pairs nowUnix nowUnix' minter minter' disk
    actions) (hkinds : ∀ action ∈ actions, action.operation ≠ .execute) (expectation : Expectation)
    (tests : List TestOutcome) :
    jsOk system root real sandbox digest pairs nowUnix minter copied disk actions expectation tests =
      rustOk system' root real sandbox' digest pairs nowUnix' minter' copied disk actions expectation tests := by
  obtain ⟨hperformed, hdisk⟩ := h.ends
  have htests := @jsRun_observedTests host pairs digest nowUnix root system sandbox minter disk actions hkinds
  let observation := observeDisk host real copied
    (rustRun system' root sandbox' digest pairs nowUnix' minter' disk actions).2.2 tests
  have hall : (∀ o ∈ (jsRun system root sandbox digest pairs nowUnix minter disk actions).1, o.performed = true) ↔
      ∀ o ∈ (rustRun system' root sandbox' digest pairs nowUnix' minter' disk actions).1, o.performed = true := by
    rw [← List.forall_mem_map (f := Outcome.performed) (P := (· = true)), hperformed, List.forall_mem_map]
  have hjs : jsOk system root real sandbox digest pairs nowUnix minter copied disk actions expectation tests =
      some (conclude digest expectation (jsRun system root sandbox digest pairs nowUnix minter disk actions).1
        observation).ok := by
    have hseen : observeDisk host real copied (jsRun system root sandbox digest pairs nowUnix minter disk actions).2.2
        (tests ++ observedTests (jsRun system root sandbox digest pairs nowUnix minter disk actions).1) =
        observation := by
      rw [htests, List.append_nil, hdisk]
    unfold jsOk executeIn
    rw [if_neg (by simp), ← hseen]
    rfl
  obtain ⟨report, state, hreport, houtcomes, hstate⟩ : ∃ report state, Rust.execute (Rust.diskSurface system' root)
      (fun disk tests ↦ .ok (observeDisk host real copied disk tests)) true sandbox' digest (pairs.map Prod.snd) nowUnix'
      minter' disk actions expectation tests = .ok (report, state) ∧
      report.outcomes = (rustRun system' root sandbox' digest pairs nowUnix' minter' disk actions).1 ∧
      state = (rustRun system' root sandbox' digest pairs nowUnix' minter' disk actions).2 := by
    refine ⟨_, _, rfl, ?_, rfl⟩
    split
    · rfl
    · rfl
  have hrust : rustOk system' root real sandbox' digest pairs nowUnix' minter' copied disk actions expectation tests =
      some report.isOk := by
    unfold rustOk
    rw [hreport]
    rfl
  rw [hjs, hrust, Option.some.injEq, Bool.eq_iff_iff, conclude_ok_iff, (Rust.execute_accounted hreport).2, houtcomes, hall]
  apply and_congr_right
  intro _
  have hcompare := @compare_alike expectation observation (dot_not_observed host real copied _ tests)
  constructor
  · rintro ⟨surprise, hok, hclean⟩
    refine ⟨observation, surprise, ?_, (hcompare surprise).mp hok, hclean⟩
    rw [hstate]
  · rintro ⟨observation', surprise, hobserve, hok, hclean⟩
    rw [hstate] at hobserve
    cases hobserve
    exact ⟨surprise, (hcompare surprise).mpr hok, hclean⟩

end Executions

section Sample

def editPlan (L : Type) (mode : String) : Plan L :=
  ⟨mode, [], [⟨"s", "edit", ["data/x.txt"], [], [], ⟨false, false, none⟩⟩]⟩

def Js.edit (mode : String) : AuthorizedPlan Host.sample Number RawLimits :=
  ⟨editPlan RawLimits mode, ⟨"owner", .ofRat (0 : ℕ), .ofRat (900 : ℕ)⟩, _, rfl⟩

def Rust.edit (mode : String) : AuthorizedPlan Host.sample Int64 Empty :=
  ⟨editPlan Empty mode, ⟨"owner", 0, 900⟩, _, rfl⟩

def Js.editRequest : (Js.dialect Host.sample).Asked :=
  ⟨"s", ["data/x.txt"], ["WRITE"], Number.ofRat (1 : ℕ), Number.ofRat (600 : ℕ), none⟩

def Rust.editRequest : (Capability.Rust.dialect Host.sample).Asked :=
  ⟨"s", ["data/x.txt"], [Capability.Rust.Operation.write], (1 : UInt32), (600 : Int64), none⟩

def editPair (mode : String) (minter : JsMinter Host.sample) (minter' : Rust.RustMinter Host.sample) :
    TokenPair Host.sample :=
  (minter.tokenFor (Js.edit mode) Js.editRequest none, minter'.tokenFor (Rust.edit mode) Rust.editRequest none)

def otherMinted : JsMinter Host.sample :=
  (Js.sampleSession.step (.mint (Js.edit "other") Js.editRequest (Number.ofRat (1 : ℕ)))).minter

def Rust.otherMinted : Rust.RustMinter Host.sample :=
  (Capability.Rust.sampleSession.step (.mint (Rust.edit "other") Rust.editRequest (1 : Int64))).minter

def bothMinted : JsMinter Host.sample :=
  ((Js.sampleSession.step (.mint (Js.edit "other") Js.editRequest (Number.ofRat (1 : ℕ)))).step
    (.mint (Js.edit "safe") Js.editRequest (Number.ofRat (1 : ℕ)))).minter

def Rust.bothMinted : Rust.RustMinter Host.sample :=
  ((Capability.Rust.sampleSession.step (.mint (Rust.edit "other") Rust.editRequest (1 : Int64))).step
    (.mint (Rust.edit "safe") Rust.editRequest (1 : Int64))).minter

def otherPair : TokenPair Host.sample := editPair "other" Js.sampleSession.minter Capability.Rust.sampleSession.minter

def ownPair : TokenPair Host.sample := editPair "safe" otherMinted Rust.otherMinted

def quiet : System := ⟨fun _ ↦ "", fun _ disk ↦ (disk, ⟨false, none, none⟩)⟩

def Rust.usesHeld (minter : Rust.RustMinter host) (tokenId : String) : Option UInt32 := minter.issued.get tokenId

theorem sameToken_edit (mode : String) (minter : JsMinter Host.sample) (minter' : Rust.RustMinter Host.sample) :
    SameToken (editPair mode minter minter') where
  planDigest := rfl
  paths := rfl
  operations := rfl
  expiresAtUnix := Reads.ofRat (by norm_num)

theorem bothMinted_decided :
    (∀ pair ∈ [otherPair, ownPair], (Js.dialect Host.sample).sign bothMinted.secret pair.1 = pair.1.mac ∧
      (Capability.Rust.dialect Host.sample).sign Rust.bothMinted.secret pair.2 = pair.2.mac ∧
      usesHeld bothMinted pair.1.id = some (.ofRat (1 : ℕ)) ∧ Rust.usesHeld Rust.bothMinted pair.2.id = some 1) ∧
    ∀ p ∈ [otherPair, ownPair], ∀ q ∈ [otherPair, ownPair], p.1.id = q.1.id ↔ p.2.id = q.2.id := by
  decide +kernel

theorem sameMinters_both : SameMinters [otherPair, ownPair] bothMinted Rust.bothMinted where
  same := by
    intro pair hpair
    simp only [List.mem_cons, List.not_mem_nil, or_false] at hpair
    rcases hpair with rfl | rfl
    · exact sameToken_edit _ _ _
    · exact sameToken_edit _ _ _
  verifies := by
    intro pair hpair
    obtain ⟨hjs, hrust, -, -⟩ := bothMinted_decided.1 pair hpair
    exact iff_of_true hjs hrust
  ids := bothMinted_decided.2
  held := by
    have hone : SameUses (some (.ofRat (1 : ℕ))) (some 1) := Reads.ofRat (by norm_num)
    intro pair hpair
    obtain ⟨-, -, hjs, hrust⟩ := bothMinted_decided.1 pair hpair
    show SameUses (usesHeld bothMinted pair.1.id) (Rust.usesHeld Rust.bothMinted pair.2.id)
    rw [hjs, hrust]
    exact hone

theorem SameMinters.mono {pairs pairs' : List (TokenPair host)} {minter : JsMinter host} {minter' : Rust.RustMinter host}
    (h : SameMinters pairs minter minter') (hsubset : pairs' ⊆ pairs) : SameMinters pairs' minter minter' where
  same pair hpair := h.same pair (hsubset hpair)
  verifies pair hpair := h.verifies pair (hsubset hpair)
  ids p hp q hq := h.ids p (hsubset hp) q (hsubset hq)
  held pair hpair := h.held pair (hsubset hpair)

end Sample

end Noesar.Shadow
