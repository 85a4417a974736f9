import Noesar.Capability.Ids

namespace Noesar.Capability

open Lib Lib.Framing

variable {host : Host}

namespace Session

variable {D : Dialect host}

def isSpendOf (tokenId : String) (s : Session D) : Command D → Bool
  | .spend token attempt nowUnix => token.id = tokenId && (s.minter.spend token attempt nowUnix).isOk
  | _ => false

def spends (tokenId : String) (s : Session D) (cs : List (Command D)) : ℕ :=
  Run.count step (isSpendOf tokenId) s cs

def Unminted (tokenId : String) (s : Session D) (cs : List (Command D)) : Prop :=
  Run.Along step (fun s c ↦ ∀ authorized request nowUnix limits, c = .mint authorized request nowUnix →
    D.accept s.minter.ceiling authorized request nowUnix = .ok limits →
      (s.minter.tokenFor authorized request limits).id ≠ tokenId) s cs

/-- What a counter of uses is worth, and for which counters taking one use away
takes one from the worth. -/
structure Worth (D : Dialect host) where
  worth : D.Uses → ℕ∞
  counts : D.Uses → Prop
  oneLess_counts : ∀ uses, counts uses → D.isSpent uses = false → counts (D.oneLess uses)
  one_add_oneLess : ∀ uses, counts uses → D.isSpent uses = false → 1 + worth (D.oneLess uses) ≤ worth uses

variable (W : Worth D)

def remaining (tokenId : String) (s : Session D) : ℕ∞ :=
  match s.minter.issued.get tokenId with
  | some uses => W.worth uses
  | none => 0

variable {tokenId : String} {s : Session D} {cs : List (Command D)}

theorem spend_step {c : Command D} (hcounts : ∀ uses, s.minter.issued.get tokenId = some uses → W.counts uses)
    (hc : ∀ authorized request nowUnix limits, c = .mint authorized request nowUnix →
      D.accept s.minter.ceiling authorized request nowUnix = .ok limits →
        (s.minter.tokenFor authorized request limits).id ≠ tokenId) :
    (∀ uses, (s.step c).minter.issued.get tokenId = some uses → W.counts uses) ∧
      (if isSpendOf tokenId s c then 1 else 0) + remaining W tokenId (s.step c) ≤ remaining W tokenId s := by
  rcases s.step_cases c with ⟨authorized, request, nowUnix, limits, rfl, haccept, he⟩ |
    ⟨token, attempt, nowUnix, left, minter', rfl, hspend, he⟩ | ⟨revoked, rfl, he⟩ | ⟨hrefused, he⟩
  · have hid := hc authorized request nowUnix limits rfl haccept
    have hget : (s.step (.mint authorized request nowUnix)).minter.issued.get tokenId =
        s.minter.issued.get tokenId := by
      rw [he]; exact InsertionMap.get_set_ne _ _ (Ne.symm hid)
    exact ⟨fun uses h ↦ hcounts uses (hget ▸ h), by simp [isSpendOf, remaining, hget]⟩
  · obtain ⟨usesRemaining, hheld, hfull, rfl⟩ := hspend.held
    have hok : (s.minter.spend token attempt nowUnix).isOk = true :=
      TokenMinter.spend_isOk_iff.mpr ⟨_, _, hspend⟩
    by_cases hid : token.id = tokenId
    · subst hid
      have hget : (s.step (.spend token attempt nowUnix)).minter.issued.get token.id =
          some (D.oneLess usesRemaining) := by
        rw [he, hspend.after]; exact InsertionMap.get_set_self _ _ _
      have hu := hcounts usesRemaining hheld
      refine ⟨?_, ?_⟩
      · intro uses h
        obtain rfl : D.oneLess usesRemaining = uses := by simpa [hget] using h
        exact W.oneLess_counts usesRemaining hu hfull
      · simpa [isSpendOf, hok, remaining, hget, hheld] using W.one_add_oneLess usesRemaining hu hfull
    · have hget : (s.step (.spend token attempt nowUnix)).minter.issued.get tokenId =
          s.minter.issued.get tokenId := by
        rw [he, hspend.after]; exact InsertionMap.get_set_ne _ _ (Ne.symm hid)
      exact ⟨fun uses h ↦ hcounts uses (hget ▸ h), by simp [isSpendOf, hid, remaining, hget]⟩
  · by_cases hid : tokenId = revoked
    · subst hid
      have hget : (s.step (.revoke tokenId)).minter.issued.get tokenId = none := by
        rw [he]; exact InsertionMap.get_delete_self _ _
      exact ⟨fun uses h ↦ by simp [hget] at h, by simp [isSpendOf, remaining, hget]⟩
    · have hget : (s.step (.revoke revoked)).minter.issued.get tokenId = s.minter.issued.get tokenId := by
        rw [he]; exact InsertionMap.get_delete_ne _ hid
      exact ⟨fun uses h ↦ hcounts uses (hget ▸ h), by simp [isSpendOf, remaining, hget]⟩
  · refine ⟨by rw [he]; exact hcounts, ?_⟩
    have hno : isSpendOf tokenId s c = false := by
      cases c with
      | spend => simp_all [isRefused, isSpendOf]
      | mint => rfl
      | revoke => rfl
    simp [he, hno]

theorem spends_add_remaining_le (hcounts : ∀ uses, s.minter.issued.get tokenId = some uses → W.counts uses)
    (hcs : Unminted tokenId s cs) :
    spends tokenId s cs + remaining W tokenId (Run.after step s cs) ≤ remaining W tokenId s :=
  Run.Along.count_add_le (I := fun s : Session D ↦ ∀ uses, s.minter.issued.get tokenId = some uses →
    W.counts uses) (remaining W tokenId) (fun _ _ hs hc ↦ spend_step W hs hc) hcs hcounts

theorem spends_eq_zero (hnone : s.minter.issued.get tokenId = none) (hcs : Unminted tokenId s cs) :
    spends tokenId s cs = 0 := by
  let W : Worth D := ⟨fun _ ↦ 0, fun _ ↦ False, by simp, by simp⟩
  have h := spends_add_remaining_le W (by simp [hnone]) hcs
  have h0 : remaining W tokenId s = 0 := by simp [remaining, hnone]
  rw [h0] at h
  have hle : (spends tokenId s cs : ℕ∞) ≤ 0 := le_trans le_self_add h
  exact_mod_cast nonpos_iff_eq_zero.mp hle

/-- The spends of one token after its mint: no more than its uses are worth, none
once they are used up, none after a revocation. -/
structure Counted (s : Session D) (tokenId : String) (uses : D.Uses) (cs : List (Command D)) : Prop where
  atMost : spends tokenId s cs ≤ W.worth uses
  furtherRefused : spends tokenId s cs = W.worth uses → ∀ token attempt nowUnix, token.id = tokenId →
    ((Run.after step s cs).minter.spend token attempt nowUnix).isOk = false
  afterRevoke : ∀ before after, cs = before ++ .revoke tokenId :: after →
    ((Run.after step s before).minter.revoke tokenId).1 = true →
      spends tokenId (Run.after step s (before ++ [.revoke tokenId])) after = 0

theorem counted {uses : D.Uses} (hheld : s.minter.issued.get tokenId = some uses) (huses : W.counts uses)
    (hcs : Unminted tokenId s cs) : Counted W s tokenId uses cs := by
  have hcounts : ∀ u, s.minter.issued.get tokenId = some u → W.counts u := by
    intro u hu
    obtain rfl : uses = u := by simpa [hheld] using hu
    exact huses
  have hworth : remaining W tokenId s = W.worth uses := by simp [remaining, hheld]
  have hle := spends_add_remaining_le W hcounts hcs
  rw [hworth] at hle
  refine ⟨le_trans le_self_add hle, ?_, ?_⟩
  · intro hall token attempt nowUnix hid
    by_contra hok
    have hspend : isSpendOf tokenId (Run.after step s cs) (.spend token attempt nowUnix) = true := by
      simpa [isSpendOf, hid] using hok
    have hcs' : Unminted tokenId s (cs ++ [.spend token attempt nowUnix]) :=
      Run.Along.append.mpr ⟨hcs, by simp [Run.Along]⟩
    have hmore := spends_add_remaining_le W hcounts hcs'
    have hcount : spends tokenId s (cs ++ [.spend token attempt nowUnix]) = spends tokenId s cs + 1 := by
      rw [spends, Run.count_append, Run.count, Run.count, hspend]; rfl
    have hlt := le_trans le_self_add (hworth ▸ hmore)
    rw [hcount, ← hall] at hlt
    exact absurd (by exact_mod_cast hlt) (Nat.not_succ_le_self (spends tokenId s cs))
  · rintro before after rfl -
    refine spends_eq_zero ?_ ?_
    · rw [Run.after_snoc]
      cases h : (Run.after step s before).minter.issued.has tokenId <;>
        simp [step, TokenMinter.revoke, h]
    · rw [List.append_cons] at hcs
      exact (Run.Along.append.mp hcs).2

theorem unminted_of_issues {tokenId : String} {s : Session D} {cs : List (Command D)}
    {newer : List (D.Held × ℕ)}
    (hsplit : issues (Run.after step s cs).history = newer ++ issues s.history)
    (hnewer : ∀ m ∈ newer, m.1.id ≠ tokenId) : Unminted tokenId s cs := by
  induction cs generalizing s newer with
  | nil => trivial
  | cons c cs ih =>
    obtain ⟨tail, htail⟩ := issues_suffix (s.step c) cs
    rcases s.issues_step c with ⟨authorized, request, nowUnix, limits, rfl, haccept, hi, -⟩ | ⟨hi, -⟩
    · have hall : newer = tail ++ [(s.minter.tokenFor authorized request limits, D.advance s.minter.counter)] := by
        rw [Run.after_cons, ← htail, hi, List.append_cons] at hsplit
        exact (List.append_cancel_right hsplit).symm
      refine ⟨?_, ih htail.symm fun m hm ↦ hnewer m (by simp [hall, hm])⟩
      rintro authorized' request' nowUnix' limits' hc haccept'
      obtain ⟨rfl, rfl, rfl⟩ : authorized = authorized' ∧ request = request' ∧ nowUnix = nowUnix' := by
        simpa using hc
      obtain rfl : limits = limits' := by simpa [haccept] using haccept'
      exact hnewer (s.minter.tokenFor authorized request limits, D.advance s.minter.counter) (by simp [hall])
    · have hall : newer = tail := by
        rw [Run.after_cons, ← htail, hi] at hsplit
        exact (List.append_cancel_right hsplit).symm
      refine ⟨?_, ih htail.symm fun m hm ↦ hnewer m (hall ▸ hm)⟩
      rintro authorized request nowUnix limits rfl haccept
      have hlen := congrArg List.length hi
      simp [step, TokenMinter.mint, haccept, bind, Except.bind, pure, Except.pure, issues] at hlen

end Session

section

/-- The uses a number grants: whole numbers up to the last one that counting down
by one still reaches, and infinity. -/
def Js.wholeUses : Number → Prop
  | .finite x => ∃ k : ℕ, k ≤ 2 ^ 53 + 2 ∧ x.val = k
  | .infinity => True
  | _ => False

def Js.usesIn : Number → ℕ∞
  | .finite x => (x.val.num.toNat : ℕ∞)
  | .infinity => ⊤
  | _ => 0

theorem Js.decrement_whole {k : ℕ} (hpos : 0 < k) (hk : k ≤ 2 ^ 53 + 2) :
    ∃ j : ℕ, j + 1 ≤ k ∧ round53 ((k : ℚ) - 1) = j := by
  by_cases hsmall : k - 1 ≤ 2 ^ 53
  · refine ⟨k - 1, by omega, ?_⟩
    have hcast : (k : ℚ) - 1 = ((k - 1 : ℕ) : ℚ) := by push_cast [Nat.cast_sub hpos]; ring
    rw [hcast, round53_natCast hsmall]
  · have hk' : k = 2 ^ 53 + 2 := by omega
    refine ⟨2 ^ 53, by omega, ?_⟩
    have hcast : (k : ℚ) - 1 = 2 ^ 53 + 1 := by rw [hk']; push_cast; ring
    rw [hcast, round53_succ_limit]
    norm_num

theorem Js.whole_oneLess {x : Binary64} {k : ℕ} (hk : k ≤ 2 ^ 53 + 2) (hx : x.val = k)
    (hfull : (Js.dialect host).isSpent (Number.finite x) = false) :
    ∃ j : ℕ, j + 1 ≤ k ∧ ∃ y : Binary64, (Js.dialect host).oneLess (Number.finite x) = Number.finite y ∧
      y.val = j := by
  have hpos : 0 < k := by
    rcases Nat.eq_zero_or_pos k with rfl | h
    · have hzero : Number.finite x = Number.zero := by
        rw [Number.zero, Number.finite.injEq, Binary64.mk.injEq]
        exact hx
      simp [Js.dialect, hzero] at hfull
    · exact h
  obtain ⟨j, hj, hround⟩ := Js.decrement_whole hpos hk
  refine ⟨j, hj, Binary64.ofRat (x.val - 1), rfl, ?_⟩
  rw [← hround, ← hx]
  rfl

def Js.worth (host : Host) : Session.Worth (Js.dialect host) where
  worth := Js.usesIn
  counts := Js.wholeUses
  oneLess_counts := by
    intro uses hcounts hfull
    cases uses with
    | finite x =>
      obtain ⟨k, hk, hx⟩ := hcounts
      obtain ⟨j, hj, y, hy, hval⟩ := Js.whole_oneLess hk hx hfull
      rw [hy]
      exact ⟨j, by omega, hval⟩
    | infinity => trivial
    | negInfinity => exact hcounts.elim
    | nan => exact hcounts.elim
  one_add_oneLess := by
    intro uses hcounts hfull
    cases uses with
    | finite x =>
      obtain ⟨k, hk, hx⟩ := hcounts
      obtain ⟨j, hj, y, hy, hval⟩ := Js.whole_oneLess hk hx hfull
      rw [hy]
      simp only [Js.usesIn, hval, hx, Rat.num_natCast, Int.toNat_natCast]
      rw [add_comm]
      exact_mod_cast hj
    | infinity => exact le_top
    | negInfinity => exact hcounts.elim
    | nan => exact hcounts.elim

theorem Rust.oneLess_toNat {uses : UInt32} (h : uses ≠ 0) : 1 + (uses - 1).toNat ≤ uses.toNat := by
  have hpos : 0 < uses.toNat := by
    rcases Nat.eq_zero_or_pos uses.toNat with h0 | hpos
    · exact absurd (UInt32.toNat_inj.mp (by simpa using h0)) h
    · exact hpos
  have hsub : (uses - 1).toNat = uses.toNat - 1 := by
    rw [UInt32.toNat_sub_of_le]
    · rfl
    · exact UInt32.le_iff_toNat_le.mpr hpos
  omega

def Rust.worth (host : Host) : Session.Worth (Rust.dialect host) where
  worth uses := (UInt32.toNat uses : ℕ∞)
  counts _ := True
  oneLess_counts _ _ _ := trivial
  one_add_oneLess := by
    intro uses _ hfull
    have hne : uses ≠ (0 : UInt32) := by simpa [Rust.dialect] using hfull
    exact_mod_cast Rust.oneLess_toNat hne

end

/-- A token of a run from the start: the mint that gave it, what came after, and
the issues of the run that came later. -/
structure Session.Given {D : Dialect host} (s₀ : Session D) (before : List (Command D))
    (authorized : D.Authorized) (request : D.Asked) (nowUnix : D.Time) (after : List (Command D))
    (token : D.Held) (newer : List (D.Held × ℕ)) : Prop where
  fresh : s₀.Fresh
  accepted : ∃ limits, D.accept (Run.after step s₀ before).minter.ceiling authorized request nowUnix = .ok limits ∧
    token = (Run.after step s₀ before).minter.tokenFor authorized request limits
  issues : issues (Run.after step s₀ (before ++ .mint authorized request nowUnix :: after)).history =
    newer ++ (token, D.advance (Run.after step s₀ before).minter.counter) ::
      issues (Run.after step s₀ before).history
  apart : HashKeepsApart
    (Session.issues (Run.after step s₀ (before ++ .mint authorized request nowUnix :: after)).history)

namespace Session.Given

variable {D : Dialect host} {s₀ : Session D} {before after : List (Command D)} {authorized : D.Authorized}
  {request : D.Asked} {nowUnix : D.Time} {token : D.Held} {newer : List (D.Held × ℕ)}

theorem held (h : s₀.Given before authorized request nowUnix after token newer) :
    ((Run.after step s₀ before).step (.mint authorized request nowUnix)).minter.issued.get token.id =
      some request.uses ∧
    Session.issues ((Run.after step s₀ before).step (.mint authorized request nowUnix)).history =
      (token, D.advance (Run.after step s₀ before).minter.counter) ::
        Session.issues (Run.after step s₀ before).history := by
  obtain ⟨limits, haccept, rfl⟩ := h.accepted
  exact ⟨by simp [step, TokenMinter.mint_of_accept haccept], issues_mint haccept⟩

theorem counted (W : Worth D) (h : s₀.Given before authorized request nowUnix after token newer)
    (huses : W.counts request.uses)
    (hclear : ∀ m ∈ newer, D.idBytes m.1.planDigest m.1.stepId m.2 ≠
      D.idBytes token.planDigest token.stepId (D.advance (Run.after step s₀ before).minter.counter)) :
    Counted W ((Run.after step s₀ before).step (.mint authorized request nowUnix)) token.id request.uses after := by
  have hn := (numbered_after h.fresh (before ++ .mint authorized request nowUnix :: after)).1
  refine Session.counted W h.held.1 huses (@unminted_of_issues host D _ _ _ newer ?_ ?_)
  · rw [h.held.2, ← h.issues, Run.after_append]
    rfl
  · intro m hm hid
    have hm' : m ∈ Session.issues (Run.after step s₀ (before ++ .mint authorized request nowUnix :: after)).history := by
      rw [h.issues]; simp [hm]
    have ht : (token, D.advance (Run.after step s₀ before).minter.counter) ∈
        Session.issues (Run.after step s₀ (before ++ .mint authorized request nowUnix :: after)).history := by
      rw [h.issues]; simp
    refine hclear m hm (h.apart m hm' _ ht ?_)
    exact ((hn.token hm').2.symm.trans hid).trans (hn.token ht).2

theorem ordered (h : s₀.Given before authorized request nowUnix after token newer) :
    ∀ m ∈ newer, Ordered D
      (Session.issues (Run.after step s₀ (before ++ .mint authorized request nowUnix :: after)).history).length
      m (token, D.advance (Run.after step s₀ before).minter.counter) := by
  intro m hm
  have ho := (numbered_after h.fresh (before ++ .mint authorized request nowUnix :: after)).1.ordered
  rw [h.issues] at ho
  have hm' := (List.pairwise_append.mp ho).2.2 m hm
    (token, D.advance (Run.after step s₀ before).minter.counter) (by simp)
  rw [h.issues]
  exact hm'

end Session.Given

section Sample

variable {D : Dialect host}

theorem Session.given_twice {s₀ : Session D} (hs : s₀.Fresh) {authorized : D.Authorized} {request : D.Asked}
    {nowUnix : D.Time} {limits : Option Limits}
    (haccept : D.accept s₀.minter.ceiling authorized request nowUnix = .ok limits) (attempt : D.Tried)
    (later : D.Time) :
    s₀.Given [] authorized request nowUnix
      (List.replicate 2 (.spend (s₀.minter.tokenFor authorized request limits) attempt later))
      (s₀.minter.tokenFor authorized request limits) [] := by
  have hissues : Session.issues (Run.after Session.step s₀ ([] ++ .mint authorized request nowUnix ::
      List.replicate 2 (.spend (s₀.minter.tokenFor authorized request limits) attempt later))).history =
      [(s₀.minter.tokenFor authorized request limits, D.advance s₀.minter.counter)] := by
    simp only [List.replicate, List.nil_append, Run.after_cons, Run.after_nil, Session.issues_spend,
      Session.issues_mint haccept, hs.history]
    rfl
  refine ⟨hs, ⟨limits, haccept, rfl⟩, ?_, ?_⟩
  · simpa [hs.history, Session.issues] using hissues
  · rw [hissues]
    intro m hm n hn _
    rw [List.mem_singleton.mp hm, List.mem_singleton.mp hn]

def Js.sampleSpend (request : (Js.dialect Host.sample).Asked) : Command (Js.dialect Host.sample) :=
  .spend (Js.sampleToken request) ⟨"src/a.rs", "READ"⟩ (Number.ofRat 2)

end Sample

end Noesar.Capability
