import Noesar.Accounts.Login
import Noesar.Lib.Run

namespace Noesar.Accounts.Guessing

open Lib World

def quarter : ℕ := 15 * 60000

inductive Attempt
  | beginLogin (username password ip : String)
  | completeLogin (challenge totpCode ip : String)

section

variable (p : Platform)

def perform (w : World) (now : ℕ) : Attempt → World
  | .beginLogin username password ip => (w.beginLogin p now username password ip).1
  | .completeLogin challenge totpCode ip => (w.completeLogin p now challenge totpCode ip).1

abbrev Watched := World × ℕ

def step (s : Watched) (call : ℕ × Attempt) : Watched := (perform p s.1 call.1 call.2, max s.2 call.1)

def failure? (ip username : String) : Event → Option ℕ
  | .failed ip' username' time => if ip' = ip ∧ username' = username then some time else none
  | _ => none

def evaluation? (ip username : String) : Event → Option (ℕ × Bool)
  | .evaluated ip' username' time right => if ip' = ip ∧ username' = username then some (time, right) else none
  | _ => none

def failures (w : World) (ip username : String) : List ℕ := w.history.filterMap (failure? ip username)

/-- When a password or a code was looked at for a caller and a name, and whether it was right. -/
def evaluations (w : World) (ip username : String) : List (ℕ × Bool) := w.history.filterMap (evaluation? ip username)

def wrongs (w : World) (ip username : String) : List ℕ := ((evaluations w ip username).filter (!·.2)).map (·.1)

def recent (w : World) (ip username : String) (now : ℕ) : ℕ :=
  ((failures w ip username).filter fun time ↦ now < time + quarter).length

def Guarded (s : Watched) (call : ℕ × Attempt) : Prop :=
  ∀ ip username, 8 ≤ recent s.1 ip username call.1 →
    evaluations (perform p s.1 call.1 call.2) ip username = evaluations s.1 ip username

/-- The second stage is come to with fewer than eight recent failures, and no failure that is recent was old before: the
clock did not go back over the end of its quarter of an hour. -/
structure Admitted (s : Watched) (call : ℕ × Attempt) : Prop where
  few : ∀ challenge totpCode ip item user secret, call.2 = .completeLogin challenge totpCode ip →
    s.1.awaitingCode p call.1 challenge ip = .ok (item, user, secret) → recent s.1 ip user.username call.1 < 8
  clock : ∀ ip username, ∀ time ∈ failures s.1 ip username, call.1 < time + quarter → s.2 < time + quarter

end

section

variable {w w' : World} {now latest : ℕ} {ip username : String}

@[simp] theorem failures_note (es : List Event) :
    failures (w.note es) ip username = failures w ip username ++ es.filterMap (failure? ip username) := by
  simp [failures, note]

@[simp] theorem evaluations_note (es : List Event) :
    evaluations (w.note es) ip username = evaluations w ip username ++ es.filterMap (evaluation? ip username) := by
  simp [evaluations, note]

theorem entries_rateState (ip' username' : String) : (w.rateState now ip username).entries ip' username' =
    if attemptKey ip username = attemptKey ip' username' then
      (w.entries ip username).filter fun time ↦ now < time + quarter
    else w.entries ip' username' := by
  simp only [entries, rateState, InsertionMap.get_set, quarter]
  split
  · rfl
  · rfl

theorem entries_recordFailure (ip' username' : String) : (w.recordFailure now ip username).entries ip' username' =
    if attemptKey ip username = attemptKey ip' username' then (w.rateState now ip username).entries ip username ++ [now]
    else w.entries ip' username' := by
  have hother := @entries_rateState w now ip username ip' username'
  simp only [entries, recordFailure, note, InsertionMap.get_set] at hother ⊢
  split
  · rfl
  · rename_i hne
    rw [hother, if_neg hne]

structure Sound (latest : ℕ) (w : World) : Prop where
  kept : ∀ ip username,
    ((failures w ip username).filter fun time ↦ latest < time + quarter).Sublist (w.entries ip username)
  wrong : ∀ ip username, (wrongs w ip username).Sublist (failures w ip username)
  window : ∀ ip username start,
    ((wrongs w ip username).filter fun time ↦ start ≤ time && time < start + quarter).length ≤ 8

structure Same (w w' : World) : Prop where
  attempts : w'.loginAttempts = w.loginAttempts
  failures : ∀ ip username, failures w' ip username = failures w ip username
  evaluations : ∀ ip username, evaluations w' ip username = evaluations w ip username

theorem Same.of_history (hattempts : w'.loginAttempts = w.loginAttempts) (hhistory : w'.history = w.history) :
    Same w w' := by
  refine ⟨hattempts, ?_, ?_⟩
  · intro ip username
    simp [Guessing.failures, hhistory]
  · intro ip username
    simp [Guessing.evaluations, hhistory]

theorem Sound.congr (h : Sound latest w) (hsame : Same w w') : Sound latest w' := by
  constructor
  · intro ip username
    have hentries : w'.entries ip username = w.entries ip username := by simp only [entries, hsame.attempts]
    rw [hsame.failures, hentries]
    exact h.kept ip username
  · intro ip username
    rw [wrongs, hsame.evaluations, hsame.failures]
    exact h.wrong ip username
  · intro ip username start
    rw [wrongs, hsame.evaluations]
    exact h.window ip username start

theorem filter_later {later : ℕ} (h : latest ≤ later) (times : List ℕ) :
    (times.filter fun time ↦ later < time + quarter).Sublist (times.filter fun time ↦ latest < time + quarter) := by
  apply List.monotone_filter_right
  intro time
  simp only [decide_eq_true_eq]
  omega

theorem Sound.later {later : ℕ} (h : Sound latest w) (hle : latest ≤ later) : Sound later w :=
  ⟨fun ip username ↦ (filter_later hle _).trans (h.kept ip username), h.wrong, h.window⟩

theorem Sound.rateState (h : Sound latest w) (hnow : now ≤ latest) (ip username : String) :
    Sound latest (w.rateState now ip username) := by
  refine ⟨?_, h.wrong, h.window⟩
  intro ip' username'
  rw [entries_rateState]
  split
  · rename_i hkey
    -- What is not old at the latest time is not old now.
    have hsame : (failures w ip' username').filter (fun time ↦ latest < time + quarter) =
        ((failures w ip' username').filter fun time ↦ latest < time + quarter).filter fun time ↦ now < time + quarter := by
      rw [List.filter_filter]
      apply List.filter_congr
      intro time _
      by_cases hlatest : latest < time + quarter
      · have hbefore : now < time + quarter := by omega
        simp [hlatest, hbefore]
      · simp [hlatest]
    have hentries : w.entries ip' username' = w.entries ip username := by simp only [entries, ← hkey]
    have hkept := (h.kept ip' username').filter fun time ↦ now < time + quarter
    rw [← hsame, hentries] at hkept
    exact hkept
  · exact h.kept ip' username'

theorem failures_recordFailure (ip' username' : String) : failures (w.recordFailure now ip username) ip' username' =
    failures w ip' username' ++ if ip = ip' ∧ username = username' then [now] else [] := by
  have hshape : failures (w.recordFailure now ip username) ip' username' =
      failures w ip' username' ++ [Event.failed ip username now].filterMap (failure? ip' username') := by
    simp [failures, recordFailure, note, World.rateState]
  rw [hshape]
  by_cases hpair : ip = ip' ∧ username = username'
  · simp [failure?, hpair]
  · simp [failure?, hpair]

theorem evaluations_recordFailure (ip' username' : String) :
    evaluations (w.recordFailure now ip username) ip' username' = evaluations w ip' username' := by
  simp [evaluations, recordFailure, note, World.rateState, evaluation?]

theorem kept_recordFailure (hnow : now ≤ latest)
    (hkept : ∀ ip username,
      ((failures w ip username).filter fun time ↦ latest < time + quarter).Sublist (w.entries ip username))
    (hpruned : ∀ ip' username', ((failures w ip' username').filter fun time ↦ latest < time + quarter).Sublist
      ((w.rateState now ip username).entries ip' username')) (ip' username' : String) :
    ((failures (w.recordFailure now ip username) ip' username').filter fun time ↦ latest < time + quarter).Sublist
      ((w.recordFailure now ip username).entries ip' username') := by
  rw [entries_recordFailure, failures_recordFailure]
  by_cases hpair : ip = ip' ∧ username = username'
  · obtain ⟨rfl, rfl⟩ := hpair
    rw [if_pos ⟨rfl, rfl⟩, if_pos rfl, List.filter_append]
    exact (hpruned ip username).append List.filter_sublist
  · rw [if_neg hpair, List.append_nil]
    split
    · rename_i hkey
      have hsame : (w.rateState now ip username).entries ip' username' =
          (w.rateState now ip username).entries ip username := by simp only [entries, ← hkey]
      exact (hsame ▸ hpruned ip' username').trans (List.sublist_append_left _ _)
    · exact hkept ip' username'

theorem Sound.recordFailure (h : Sound latest w) (hnow : now ≤ latest) (ip username : String) :
    Sound latest (w.recordFailure now ip username) := by
  refine ⟨kept_recordFailure hnow h.kept (h.rateState hnow ip username).kept, ?_, ?_⟩
  · intro ip' username'
    rw [wrongs, evaluations_recordFailure, failures_recordFailure]
    exact (h.wrong ip' username').trans (List.sublist_append_left _ _)
  · intro ip' username' start
    rw [wrongs, evaluations_recordFailure]
    exact h.window ip' username' start

theorem wrongs_note_evaluated (right : Bool) (ip' username' : String) :
    wrongs (w.note [.evaluated ip username now right]) ip' username' =
      wrongs w ip' username' ++ if right = false ∧ ip = ip' ∧ username = username' then [now] else [] := by
  by_cases hpair : ip = ip' ∧ username = username'
  · cases right <;> simp [wrongs, evaluation?, hpair]
  · simp [wrongs, evaluation?, hpair]

theorem Sound.right (h : Sound latest w) (ip username : String) :
    Sound latest (w.note [.evaluated ip username now true]) := by
  have hfailures (ip' username' : String) :
      failures (w.note [.evaluated ip username now true]) ip' username' = failures w ip' username' := by simp [failure?]
  refine ⟨?_, ?_, ?_⟩
  · intro ip' username'
    rw [hfailures]
    exact h.kept ip' username'
  · intro ip' username'
    rw [hfailures, wrongs_note_evaluated, if_neg (by simp), List.append_nil]
    exact h.wrong ip' username'
  · intro ip' username' start
    rw [wrongs_note_evaluated, if_neg (by simp), List.append_nil]
    exact h.window ip' username' start

def wrongGuess (w : World) (now : ℕ) (ip username : String) : World :=
  (w.note [.evaluated ip username now false]).recordFailure now ip username

theorem Sound.wrongGuess (h : Sound latest w) (hnow : now ≤ latest) (hfew : recent w ip username now < 8) :
    Sound latest (wrongGuess w now ip username) := by
  have hfailures (ip' username' : String) :
      failures (w.note [.evaluated ip username now false]) ip' username' = failures w ip' username' := by simp [failure?]
  refine ⟨?_, ?_, ?_⟩
  · apply kept_recordFailure hnow
    · intro ip' username'
      rw [hfailures]
      exact h.kept ip' username'
    · intro ip' username'
      rw [hfailures]
      exact (h.rateState hnow ip username).kept ip' username'
  · intro ip' username'
    unfold Guessing.wrongGuess
    rw [wrongs, evaluations_recordFailure, failures_recordFailure, hfailures]
    change (wrongs _ ip' username').Sublist _
    rw [wrongs_note_evaluated]
    by_cases hpair : ip = ip' ∧ username = username'
    · rw [if_pos ⟨rfl, hpair⟩, if_pos hpair]
      exact (h.wrong ip' username').append (List.Sublist.refl _)
    · rw [if_neg (fun hall ↦ hpair hall.2), if_neg hpair]
      exact (h.wrong ip' username').append (List.Sublist.refl _)
  · intro ip' username' start
    unfold Guessing.wrongGuess
    rw [wrongs, evaluations_recordFailure]
    change ((wrongs _ ip' username').filter _).length ≤ 8
    rw [wrongs_note_evaluated]
    by_cases hin : (start ≤ now ∧ now < start + quarter) ∧ ip = ip' ∧ username = username'
    · obtain ⟨⟨hstart, hend⟩, rfl, rfl⟩ := hin
      -- The wrong guesses of the window before this one are failures that are recent now.
      have hbefore : ((wrongs w ip username).filter fun time ↦ start ≤ time && time < start + quarter).length ≤
          recent w ip username now := by
        refine (List.Sublist.trans ?_ ((h.wrong ip username).filter _)).length_le
        apply List.monotone_filter_right
        intro time
        simp only [Bool.and_eq_true, decide_eq_true_eq]
        omega
      rw [if_pos ⟨rfl, rfl, rfl⟩, List.filter_append, List.length_append]
      have hone : ([now].filter fun time ↦ start ≤ time && time < start + quarter).length ≤ 1 := List.length_filter_le _ _
      omega
    · have hnone : (if false = false ∧ ip = ip' ∧ username = username' then [now] else []).filter
          (fun time ↦ start ≤ time && time < start + quarter) = [] := by
        by_cases hpair : ip = ip' ∧ username = username'
        · have hout : ¬(start ≤ now ∧ now < start + quarter) := fun hboth ↦ hin ⟨hboth, hpair⟩
          simpa [hpair] using hout
        · simp [hpair]
      rw [List.filter_append, hnone, List.append_nil]
      exact h.window ip' username' start

theorem Sound.recent_lt (h : Sound latest w)
    (hclock : ∀ time ∈ failures w ip username, now < time + quarter → latest < time + quarter)
    (hentries : ¬8 ≤ ((w.rateState now ip username).entries ip username).length) : recent w ip username now < 8 := by
  have hsame : (failures w ip username).filter (fun time ↦ now < time + quarter) =
      ((failures w ip username).filter fun time ↦ latest < time + quarter).filter fun time ↦ now < time + quarter := by
    rw [List.filter_filter]
    apply List.filter_congr
    intro time htime
    by_cases hnow : now < time + quarter
    · have hlatest := hclock time htime hnow
      simp [hnow, hlatest]
    · simp [hnow]
  rw [entries_rateState, if_pos rfl] at hentries
  have hle := ((h.kept ip username).filter fun time ↦ now < time + quarter).length_le
  rw [← hsame] at hle
  unfold recent
  omega

theorem evaluations_wrongGuess (ip' username' : String) : evaluations (wrongGuess w now ip username) ip' username' =
    evaluations w ip' username' ++ if ip = ip' ∧ username = username' then [(now, false)] else [] := by
  unfold wrongGuess
  rw [evaluations_recordFailure, evaluations_note]
  by_cases hpair : ip = ip' ∧ username = username'
  · simp [evaluation?, hpair]
  · simp [evaluation?, hpair]

/-- What a call did: it is sound, and it looked at nothing but for a pair with few recent failures. -/
structure Tame (latest now : ℕ) (w w' : World) : Prop where
  sound : Sound latest w'
  guarded : ∀ ip username, 8 ≤ recent w ip username now → evaluations w' ip username = evaluations w ip username

theorem Tame.congr {w'' : World} (h : Tame latest now w w') (hsame : Same w' w'') : Tame latest now w w'' := by
  refine ⟨h.sound.congr hsame, ?_⟩
  intro ip username h8
  rw [hsame.evaluations]
  exact h.guarded ip username h8

theorem Tame.refl (h : Sound latest w) : Tame latest now w w := ⟨h, fun _ _ _ ↦ rfl⟩

theorem Tame.rateState (h : Sound latest w) (hnow : now ≤ latest) (ip username : String) :
    Tame latest now w (w.rateState now ip username) := ⟨h.rateState hnow ip username, fun _ _ _ ↦ rfl⟩

theorem Tame.recordFailure (h : Tame latest now w w') (hnow : now ≤ latest) (ip username : String) :
    Tame latest now w (w'.recordFailure now ip username) := by
  refine ⟨h.sound.recordFailure hnow ip username, ?_⟩
  intro ip' username' h8
  rw [evaluations_recordFailure]
  exact h.guarded ip' username' h8

theorem Tame.right (h : Tame latest now w w') (hfew : recent w ip username now < 8) :
    Tame latest now w (w'.note [.evaluated ip username now true]) := by
  refine ⟨h.sound.right ip username, ?_⟩
  intro ip' username' h8
  have hpair : ¬(ip = ip' ∧ username = username') := by
    rintro ⟨rfl, rfl⟩
    omega
  rw [evaluations_note, h.guarded ip' username' h8]
  simp [evaluation?, hpair]

theorem Tame.wrongGuess (h : Tame latest now w w') (hnow : now ≤ latest) (hsame : w'.history = w.history)
    (hfew : recent w ip username now < 8) : Tame latest now w (wrongGuess w' now ip username) := by
  constructor
  · apply h.sound.wrongGuess hnow
    simpa [recent, failures, hsame] using hfew
  · intro ip' username' h8
    have hpair : ¬(ip = ip' ∧ username = username') := by
      rintro ⟨rfl, rfl⟩
      omega
    rw [evaluations_wrongGuess, if_neg hpair, List.append_nil]
    exact h.guarded ip' username' h8

end

section

variable {p : Platform} {w : World} {now latest : ℕ}

theorem passwordVerified_same (user : User) (ip : String) : Same w (w.passwordVerified p now user ip).1 := by
  unfold passwordVerified
  split
  · exact .of_history rfl rfl
  · exact .of_history rfl rfl

theorem taken_same (secret : String) (step : ℕ) : Same w (w.note [.accepted secret step]) := by
  refine ⟨rfl, ?_, ?_⟩
  · intro ip username
    simp [failure?]
  · intro ip username
    simp [evaluation?]

theorem beginLogin_tame (h : Sound latest w) (hnow : now ≤ latest)
    (hfew : ∀ ip username, ¬8 ≤ ((w.rateState now ip username).entries ip username).length →
      recent w ip username now < 8) (username password ip : String) :
    Tame latest now w (w.beginLogin p now username password ip).1 := by
  unfold beginLogin
  cases normalizeUsername p username with
  | error => exact (Tame.refl h).recordFailure hnow _ _
  | ok normalized =>
    have hpruned := Tame.rateState h hnow ip normalized
    dsimp only
    split
    · exact hpruned
    · rename_i hentries
      have hrecent := hfew ip normalized hentries
      split
      · exact hpruned
      · split
        · exact hpruned.recordFailure hnow ip normalized
        · rename_i user _
          split
          · exact hpruned.recordFailure hnow ip normalized
          · split
            · exact (hpruned.recordFailure hnow ip normalized).congr (.of_history rfl rfl)
            · split
              · rename_i hwrong
                have hfalse : verifyPassword p password user.password = false := by simpa using hwrong
                rw [hfalse]
                exact (hpruned.wrongGuess hnow rfl hrecent).congr (.of_history rfl rfl)
              · rename_i hright
                have htrue : verifyPassword p password user.password = true := by simpa using hright
                rw [htrue]
                exact (hpruned.right hrecent).congr (passwordVerified_same user ip)

theorem completeLogin_tame (h : Sound latest w) (hnow : now ≤ latest) {challenge ip : String}
    (hfew : ∀ item user secret, w.awaitingCode p now challenge ip = .ok (item, user, secret) →
      recent w ip user.username now < 8) (totpCode : String) :
    Tame latest now w (w.completeLogin p now challenge totpCode ip).1 := by
  unfold completeLogin
  split
  · exact .refl h
  · rename_i item user secret hawaiting
    have hrecent := hfew item user secret hawaiting
    split
    · exact .refl h
    · exact (Tame.refl h).wrongGuess hnow rfl hrecent
    · exact (Tame.refl h).wrongGuess hnow rfl hrecent
    · -- The code that is taken is no guess.
      have hright := (Tame.refl h).right hrecent
      rename_i step _
      have hmarked : Same (w.note [.evaluated ip user.username now true]) (((w.note
          [.evaluated ip user.username now true]).dropChallenge item.id).updateUser user.id fun target ↦
            { target with lastTotpStep := some step }) := .of_history rfl rfl
      exact ((hright.congr hmarked).congr (taken_same secret step)).congr (.of_history rfl rfl)

theorem step_tame {s : Watched} {call : ℕ × Attempt} (h : Sound s.2 s.1) (hadmitted : Admitted p s call) :
    Tame (step p s call).2 call.1 s.1 (step p s call).1 := by
  obtain ⟨w, latest⟩ := s
  obtain ⟨now, attempt⟩ := call
  have hlater : Sound (max latest now) w := h.later (Nat.le_max_left _ _)
  have hnow : now ≤ max latest now := Nat.le_max_right _ _
  cases attempt with
  | beginLogin username password ip =>
    refine beginLogin_tame hlater hnow ?_ username password ip
    intro ip username hentries
    exact h.recent_lt (hadmitted.clock ip username) hentries
  | completeLogin challenge totpCode ip =>
    refine completeLogin_tame hlater hnow ?_ totpCode
    intro item user secret hawaiting
    exact hadmitted.few challenge totpCode ip item user secret rfl hawaiting

def started (state : AuthState) (drawn : ℕ) : Watched := (⟨state, .empty, drawn, []⟩, 0)

theorem started_sound (state : AuthState) (drawn : ℕ) : Sound (started state drawn).2 (started state drawn).1 := by
  constructor
  · intro ip username
    exact List.nil_sublist _
  · intro ip username
    exact List.nil_sublist _
  · intro ip username start
    exact Nat.zero_le 8

/-- No guess is looked at where eight failures are recent, and at most eight wrong ones in any quarter of an hour. -/
theorem guesses_bounded (p : Platform) (state : AuthState) (drawn : ℕ) (calls : List (ℕ × Attempt))
    (h : Run.Along (step p) (Admitted p) (started state drawn) calls) :
    Run.Along (step p) (Guarded p) (started state drawn) calls ∧ ∀ ip username start,
      ((wrongs (Run.after (step p) (started state drawn) calls).1 ip username).filter fun time ↦
        start ≤ time && time < start + quarter).length ≤ 8 := by
  constructor
  · refine Run.Along.imp (I := fun s ↦ Sound s.2 s.1) ?_ h (started_sound state drawn)
    intro s call hs hadmitted
    have htame := step_tame hs hadmitted
    exact ⟨htame.sound, htame.guarded⟩
  · have hsound : Sound (Run.after (step p) (started state drawn) calls).2 (Run.after (step p) (started state drawn) calls).1 :=
      h.invariant (fun s call hs hadmitted ↦ (step_tame hs hadmitted).sound) (started_sound state drawn)
    exact hsound.window

def rootFile : AuthState :=
  { emptyState with
    initialized := true
    users := [User.made "u" "root" "Owner" .owner none (some (hashPassword .tallying 0 "noesar")) (some "s")] }

def ninthGuess : List (ℕ × Attempt) :=
  (90000, .beginLogin "root" "noesar" "ip") :: List.replicate 9 (90000, .completeLogin "" "000000" "ip")

theorem Admitted.of_no_failures {p : Platform} {s : Watched} {call : ℕ × Attempt}
    (h : ∀ ip username, failures s.1 ip username = []) : Admitted p s call := by
  constructor
  · intro challenge totpCode ip item user secret _ _
    simp [recent, h]
  · intro ip username time htime
    rw [h] at htime
    cases htime

theorem guesses_bounded_two : Run.Along (step .tallying) (Guarded .tallying) (started rootFile 0) (ninthGuess.take 2) ∧
    ∀ ip username start, ((wrongs (Run.after (step .tallying) (started rootFile 0) (ninthGuess.take 2)).1 ip
      username).filter fun time ↦ start ≤ time && time < start + quarter).length ≤ 8 := by
  apply guesses_bounded
  refine ⟨.of_no_failures fun _ _ ↦ rfl, .of_no_failures ?_, trivial⟩
  intro ip username
  have hhistory : (step .tallying (started rootFile 0) (90000, .beginLogin "root" "noesar" "ip")).1.history =
      [.evaluated "ip" "root" 90000 true] := by decide
  unfold failures
  rw [hhistory]
  rfl

/-- A ninth wrong code is looked at. -/
theorem ninth_guess_evaluated : ¬∀ (p : Platform) (state : AuthState) (drawn : ℕ) (calls : List (ℕ × Attempt)),
    Run.Along (step p) (Guarded p) (started state drawn) calls ∧ ∀ ip username start,
      ((wrongs (Run.after (step p) (started state drawn) calls).1 ip username).filter fun time ↦
        start ≤ time && time < start + quarter).length ≤ 8 := by
  intro h
  have hbound := (h .tallying rootFile 0 ninthGuess).2 "ip" "root" 90000
  have hnine : ((wrongs (Run.after (step .tallying) (started rootFile 0) ninthGuess).1 "ip" "root").filter fun time ↦
      90000 ≤ time && time < 90000 + quarter).length = 9 := by decide
  omega

end

end Noesar.Accounts.Guessing
