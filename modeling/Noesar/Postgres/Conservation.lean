import Noesar.Postgres.Places

namespace Noesar.Postgres

open Lib.Run

namespace PgPool

section

variable (s : PgPool)

structure Conserved : Prop where
  once : s.places.Nodup
  every : ∀ c connection, s.connections[c]? = some connection → connection.closed = false → c ∈ s.places
  size : s.size = s.places.length
  bound : s.size ≤ s.max
  queued : s.waiting ≠ [] → s.size = s.max
  dropped : s.dropped = []

/-- The pool with some connections in hand, between two places. -/
structure Balanced (hand : List ℕ) : Prop extends s.Placed hand where
  every : ∀ c connection, s.connections[c]? = some connection → connection.closed = false → c ∈ hand ++ s.places
  size : s.size = (hand ++ s.places).length
  bound : s.size ≤ s.max
  dropped : s.dropped = []

end

section Rules

variable {s s' : PgPool} {hand : List ℕ} {c : ℕ}

theorem Balanced.of_perm {hand' : List ℕ} (h : s.Balanced hand) (hperm : (hand' ++ s'.places).Perm (hand ++ s.places))
    (hconnections : s'.connections = s.connections) (hsize : s'.size = s.size) (hmax : s'.max = s.max)
    (hdropped : s'.dropped = s.dropped) : s'.Balanced hand' where
  toPlaced := h.toPlaced.of_perm hperm hconnections
  every c connection hc hopen := hperm.mem_iff.mpr (h.every c connection (hconnections ▸ hc) hopen)
  size := by rw [hsize, hperm.length_eq, h.size]
  bound := by rw [hsize, hmax]; exact h.bound
  dropped := hdropped.trans h.dropped

variable {call : ℕ} {f : PgConnection → PgConnection}

theorem Balanced.resolve (h : s.Balanced [c]) (hw : s.Waits call) : (s.resolve call c).Balanced [] := by
  have hperm := places_resolve (c := c) hw
  obtain ⟨timer, hw⟩ := hw
  rw [PgPool.resolve, hw] at hperm ⊢
  exact h.of_perm hperm rfl rfl rfl rfl

theorem Balanced.released {k : ℕ} {client : PooledClient} (h : s.Balanced []) (hk : s.clients[k]? = some client)
    (hreleased : client.released = false) :
    Balanced { s with clients := s.clients.set k { client with released := true } } [client.connection] :=
  h.of_perm (places_released hk hreleased) rfl rfl rfl rfl

theorem Balanced.popped (h : s.Balanced []) (hlast : s.idle.getLast? = some c) :
    Balanced { s with idle := s.idle.dropLast } [c] :=
  h.of_perm (places_popped hlast) rfl rfl rfl rfl

theorem Balanced.pushed (h : s.Balanced [c]) : Balanced { s with idle := s.idle ++ [c] } [] :=
  h.of_perm (s.places_pushed c) rfl rfl rfl rfl

theorem Balanced.settled {entry : ℕ × ℕ} (h : s.Balanced []) (hfind : s.opening.find? (·.1 = c) = some entry) :
    Balanced { s with opening := s.opening.filter (·.1 ≠ c) } [c] :=
  h.of_perm (places_settled h.once hfind) rfl rfl rfl rfl

theorem Balanced.let_go (h : s.Balanced [c]) (hclosed : s.closed c = true) :
    Balanced { s with size := s.size - 1 } [] := by
  have hsize := h.size
  rw [List.singleton_append, List.length_cons] at hsize
  refine ⟨h.toPlaced.forget.of_perm (.refl _) rfl, fun c' connection hc hopen ↦ ?_, ?_, ?_, h.dropped⟩
  · rcases List.mem_append.mp (h.every c' connection hc hopen) with hmem | hmem
    · obtain rfl := List.mem_singleton.mp hmem
      rw [closed, show s.connections[c']? = some connection from hc] at hclosed
      exact absurd (hopen.symm.trans hclosed) (by decide)
    · exact hmem
  · change s.size - 1 = s.places.length
    omega
  · have := h.bound
    change s.size - 1 ≤ s.max
    omega

theorem Balanced.onConnection (h : s.Balanced hand)
    (hf : ∀ connection, (f connection).closed = false → connection.closed = false) :
    (s.onConnection c f).Balanced hand where
  toPlaced := h.toPlaced.onConnection
  every c' connection hc hopen := by
    change (s.connections.modify c f)[c']? = some connection at hc
    rw [List.getElem?_modify, Option.map_eq_map, Option.map_eq_some_iff] at hc
    obtain ⟨before, hbefore, rfl⟩ := hc
    refine h.every c' before hbefore ?_
    split at hopen
    · exact hf before hopen
    · exact hopen
  size := h.size
  bound := h.bound
  dropped := h.dropped

theorem closed_onConnection (hf : ∀ connection, (f connection).closed = true) (hc : c < s.connections.length) :
    (s.onConnection c f).closed c = true := by
  change Option.any _ (s.connections.modify c f)[c]? = true
  simp [List.getElem?_eq_getElem hc, hf]

theorem Balanced.openFor (h : s.Balanced []) (hroom : s.size < s.max) (call : ℕ) : (s.openFor call).Balanced [] := by
  have hperm := s.places_openFor call
  have hsize : s.size = s.places.length := h.size
  have hconnections : (s.openFor call).connections = s.connections ++ [⟨false, none, false⟩] := rfl
  refine ⟨h.toPlaced.openFor call, fun c connection hc hopen ↦ hperm.mem_iff.mpr ?_, ?_, ?_, h.dropped⟩
  · rcases Nat.lt_trichotomy c s.connections.length with hlt | heq | hgt
    · rw [hconnections, List.getElem?_append_left hlt] at hc
      exact List.mem_cons_of_mem _ (h.every c connection hc hopen)
    · exact heq ▸ List.mem_cons_self
    · rw [hconnections, List.getElem?_eq_none (by simp; omega)] at hc
      cases hc
  · have hlength := hperm.length_eq
    rw [List.length_cons] at hlength
    change s.size + 1 = ((s.openFor call).places.length : ℤ)
    omega
  · change s.size + 1 ≤ s.max
    omega

structure Inv (s : PgPool) : Prop where
  balanced : s.Balanced []
  queued : s.waiting ≠ [] → s.size = s.max

theorem Inv.conserved (h : s.Inv) : s.Conserved :=
  ⟨h.balanced.once, h.balanced.every, h.balanced.size, h.balanced.bound, h.queued, h.balanced.dropped⟩

theorem inv_connectNew (h : s.Balanced []) (hqueued : s.waiting ≠ [] → s.size = s.max ∨ s.size + 1 = s.max) :
    s.connectNew.Inv := by
  unfold connectNew
  have hbound := h.bound
  split
  · refine ⟨h.of_perm (List.Perm.refl _) rfl rfl rfl rfl, fun _ ↦ ?_⟩
    change s.size = s.max
    omega
  · next hroom =>
    have hcalled : Balanced { s with calls := s.calls ++ [.pending false] } [] :=
      h.of_perm (List.Perm.refl _) rfl rfl rfl rfl
    refine ⟨hcalled.openFor (not_le.mp hroom) _, fun hwaiting ↦ ?_⟩
    have hcases := hqueued hwaiting
    change s.size + 1 = s.max
    omega

theorem Inv.connect (h : s.Inv) (hending : s.ending = false) : s.connect.Inv := by
  rw [PgPool.connect, if_neg (by rw [hending]; decide)]
  cases hlast : s.idle.getLast? with
  | none => exact inv_connectNew h.balanced fun hw ↦ .inl (h.queued hw)
  | some =>
    have hpopped := h.balanced.popped hlast
    dsimp only
    split
    · next hclosed =>
      refine inv_connectNew (hpopped.let_go hclosed) fun hw ↦ .inr ?_
      have := h.queued hw
      change s.size - 1 + 1 = s.max
      omega
    · have hwaits : Waits { s with idle := s.idle.dropLast, calls := s.calls ++ [.pending false] } s.calls.length :=
        ⟨false, by simp⟩
      refine ⟨Balanced.resolve (hpopped.of_perm (List.Perm.refl _) rfl rfl rfl rfl) hwaits, ?_⟩
      obtain ⟨timer, hwaits⟩ := hwaits
      rw [PgPool.resolve, hwaits]
      exact h.queued

theorem inv_resolve (h : s.Balanced [c]) (hqueued : s.waiting ≠ [] → s.size = s.max) (hw : s.Waits call) :
    (s.resolve call c).Inv := by
  refine ⟨h.resolve hw, ?_⟩
  obtain ⟨timer, hw⟩ := hw
  rw [PgPool.resolve, hw]
  exact hqueued

theorem inv_reject (h : s.Inv) : (s.reject call).Inv := by
  obtain ⟨calls, heq⟩ := s.reject_eq call
  rw [heq]
  exact ⟨h.balanced.of_perm (List.Perm.refl _) rfl rfl rfl rfl, h.queued⟩

theorem Inv.timeout (h : s.Inv) (call : ℕ) : (s.timeout call).Inv := by
  rw [PgPool.timeout]
  split
  · -- the function that is looked for stands in no waiter
    have hnone : s.waiting.findIdx? (fun w ↦ w.resolve = .own call) = none := by
      rw [List.findIdx?_eq_none_iff]
      intro w _
      simp [Waiter.resolve]
    rw [hnone]
    exact inv_reject h
  · exact h

theorem Inv.opened {status : Char} (h : s.Inv) (hw : ∀ entry ∈ s.opening.find? (·.1 = c), s.Waits entry.2) :
    (s.opened c status).Inv := by
  rw [PgPool.opened]
  cases hfind : s.opening.find? (·.1 = c) with
  | none => exact h
  | some entry =>
    have hsettled := (h.balanced.settled hfind).onConnection (c := c)
      (f := fun connection ↦ { connection with transactionStatus := some status }) fun _ hclosed ↦ hclosed
    exact inv_resolve hsettled h.queued (hw entry hfind)

theorem Inv.failed (h : s.Inv) (hw : s.opening.any (·.1 = c) → s.waiting = []) : (s.failed c false).Inv := by
  rw [PgPool.failed]
  cases hfind : s.opening.find? (·.1 = c) with
  | none => exact h
  | some entry =>
    have hmem : c ∈ s.places := by
      have hentry := List.mem_of_find?_eq_some hfind
      have hkey : entry.1 = c := by simpa using List.find?_some hfind
      exact List.mem_append_right _ (hkey ▸ List.mem_map_of_mem hentry)
    have hsettled := (h.balanced.settled hfind).onConnection (c := c)
      (f := fun connection ↦ { connection with closed := !false }) fun _ hclosed ↦ absurd hclosed Bool.noConfusion
    have hgone := hsettled.let_go (closed_onConnection (fun _ ↦ rfl) (h.balanced.known c hmem))
    have hnone : s.waiting = [] := by
      refine hw (List.any_eq_true.mpr ⟨entry, List.mem_of_find?_eq_some hfind, ?_⟩)
      simpa using List.find?_some hfind
    exact inv_reject ⟨hgone, fun hwaiting ↦ absurd hnone hwaiting⟩

theorem inv_serve (h : s.Balanced []) (hqueued : s.waiting ≠ [] → s.size + 1 = s.max) : s.serveNextWaiter.Inv := by
  rw [PgPool.serveNextWaiter]
  cases hwaiting : s.waiting with
  | nil => exact ⟨h, fun hne ↦ absurd hwaiting hne⟩
  | cons waiter waiting =>
    have hroom := hqueued (by rw [hwaiting]; exact List.cons_ne_nil _ _)
    have hshifted : Balanced { s with waiting := waiting } [] := h.of_perm (List.Perm.refl _) rfl rfl rfl rfl
    refine ⟨hshifted.openFor (by change s.size < s.max; omega) _, fun _ ↦ hroom⟩

theorem inv_takeBack {client : PooledClient} (h : s.Balanced [client.connection])
    (hqueued : s.waiting ≠ [] → s.size = s.max)
    (hw : s.discards client = false → ∀ w ∈ s.waiting.head?, s.Waits w.call) : (s.takeBack client).Inv := by
  rw [takeBack]
  split
  · have hshut := h.onConnection (c := client.connection) (f := fun connection ↦ { connection with closed := true })
      fun _ hclosed ↦ absurd hclosed Bool.noConfusion
    have hgone := hshut.let_go (closed_onConnection (fun _ ↦ rfl) (h.known _ (by simp)))
    refine inv_serve hgone fun hwaiting ↦ ?_
    have := hqueued hwaiting
    change s.size - 1 + 1 = s.max
    omega
  · next hkeeps =>
    have hkeeps := Bool.not_eq_true _ ▸ hkeeps
    split
    · next waiter waiting hwaiting =>
      have hwaits := hw hkeeps waiter (by rw [hwaiting]; rfl)
      have hshifted : Balanced { s with waiting := waiting } [client.connection] :=
        h.of_perm (List.Perm.refl _) rfl rfl rfl rfl
      exact inv_resolve hshifted (fun _ ↦ hqueued (by rw [hwaiting]; exact List.cons_ne_nil _ _)) hwaits
    · next hwaiting => exact ⟨h.pushed, fun hne ↦ absurd hwaiting hne⟩

theorem Inv.release {k : ℕ} (h : s.Inv) (hw : ∀ client ∈ s.clients[k]?, client.released = false →
    s.discards client = false → ∀ w ∈ s.waiting.head?, s.Waits w.call) : (s.release k).Inv := by
  rw [PgPool.release]
  cases hk : s.clients[k]? with
  | none => exact h
  | some client =>
    dsimp only
    split
    · exact h
    · next hreleased =>
      have hreleased : client.released = false := by simpa using hreleased
      exact inv_takeBack (h.balanced.released hk hreleased) h.queued (hw client hk hreleased)

theorem Inv.poison (h : s.Inv) (k : ℕ) : (s.poison k).Inv :=
  ⟨h.balanced.of_perm (by rw [places_poison]) rfl rfl rfl rfl, h.queued⟩

theorem Inv.onConnection (h : s.Inv) (hf : ∀ connection, (f connection).closed = false → connection.closed = false) :
    (s.onConnection c f).Inv :=
  ⟨h.balanced.onConnection hf, h.queued⟩

theorem Inv.query (h : s.Inv) (k : ℕ) : (s.query k).Inv := by
  rw [PgPool.query]
  split
  · exact h
  · split
    · exact h
    · exact h.onConnection fun _ hclosed ↦ hclosed

@[simp] theorem ending_resolve (call : ℕ) : (s.resolve call c).ending = s.ending := by
  rw [PgPool.resolve]
  split <;> rfl

@[simp] theorem ending_reject (call : ℕ) : (s.reject call).ending = s.ending := by
  rw [PgPool.reject]
  split <;> rfl

@[simp] theorem ending_serveNextWaiter : s.serveNextWaiter.ending = s.ending := by
  rw [PgPool.serveNextWaiter]
  split <;> rfl

theorem ending_step {a : PoolAction} (h : a ≠ .finish) : (s.step a).ending = s.ending := by
  cases a with
  | connect =>
    simp only [step, PgPool.connect, connectNew]
    repeat' split
    all_goals simp [PgPool.openFor]
  | opened =>
    simp only [step, PgPool.opened]
    split
    · rfl
    · exact ending_resolve _
  | failed =>
    simp only [step, PgPool.failed]
    split
    · rfl
    · exact ending_reject _
  | timeout =>
    simp only [step, PgPool.timeout]
    repeat' split
    · exact ending_reject _
    · exact ending_reject _
    · rfl
  | release =>
    simp only [step, PgPool.release, takeBack]
    repeat' split
    · rfl
    · rfl
    · exact ending_serveNextWaiter
    · exact ending_resolve _
    · rfl
  | query =>
    simp only [step, PgPool.query]
    repeat' split
    all_goals rfl
  | poison | ready | fail => rfl
  | finish => exact absurd rfl h

end Rules

/-- Nobody whose call was rejected meanwhile gets a connection, and a connection that fails to open is closed and was
wanted by none but the call it was for. -/
def Undisturbed (s : PgPool) : PoolAction → Prop
  | .opened c _ => ∀ entry ∈ s.opening.find? (·.1 = c), s.Waits entry.2
  | .failed c left => s.opening.any (·.1 = c) → left = false ∧ s.waiting = []
  | .release k => ∀ client ∈ s.clients[k]?, client.released = false → s.discards client = false →
      ∀ w ∈ s.waiting.head?, s.Waits w.call
  | _ => True

instance (s : PgPool) : (a : PoolAction) → Decidable (s.Undisturbed a)
  | .opened c _ => inferInstanceAs (Decidable (∀ entry ∈ s.opening.find? (·.1 = c), s.Waits entry.2))
  | .failed c left => inferInstanceAs (Decidable (s.opening.any (·.1 = c) → left = false ∧ s.waiting = []))
  | .release k => inferInstanceAs (Decidable (∀ client ∈ s.clients[k]?, client.released = false → s.discards client = false →
      ∀ w ∈ s.waiting.head?, s.Waits w.call))
  | .connect | .timeout _ | .query _ | .poison _ | .ready _ _ | .fail _ | .finish => inferInstanceAs (Decidable True)

variable {s : PgPool}

theorem Inv.step (h : s.Inv) (hending : s.ending = false) {a : PoolAction} (ha : a ≠ .finish) (hu : s.Undisturbed a) :
    (s.step a).Inv := by
  cases a with
  | connect => exact h.connect hending
  | opened => exact h.opened hu
  | failed c left =>
    cases left with
    | false => exact h.failed fun hany ↦ (hu hany).2
    | true =>
      have hnone : s.opening.find? (·.1 = c) = none := by
        rw [List.find?_eq_none]
        intro entry hentry heq
        exact absurd (hu (List.any_eq_true.mpr ⟨entry, hentry, heq⟩)).1 Bool.noConfusion
      rw [PgPool.step, PgPool.failed, hnone]
      exact h
  | timeout call => exact h.timeout call
  | release => exact h.release hu
  | query k => exact h.query k
  | poison k => exact h.poison k
  | ready => exact h.onConnection fun _ hclosed ↦ hclosed
  | fail => exact h.onConnection fun _ hclosed ↦ absurd hclosed Bool.noConfusion
  | finish => exact absurd rfl ha

theorem waits_of_dropped {call c : ℕ} (h : (s.resolve call c).dropped = []) : s.Waits call := by
  rw [PgPool.resolve] at h
  split at h
  · next timer hwaits => exact ⟨timer, hwaits⟩
  · exact absurd h (by simp)

theorem Inv.undisturbed (h : s.Inv) {a : PoolAction} (hc : (s.step a).Conserved) : s.Undisturbed a := by
  cases a with
  | opened c status =>
    intro entry hentry
    have hdropped := hc.dropped
    rw [PgPool.step, PgPool.opened, hentry] at hdropped
    let settled := { s.onConnection c (fun connection ↦ { connection with transactionStatus := some status }) with
      opening := s.opening.filter (·.1 ≠ c) }
    exact waits_of_dropped (s := settled) hdropped
  | failed c left =>
    intro hany
    obtain ⟨entry, hfind⟩ : ∃ entry, s.opening.find? (·.1 = c) = some entry := by
      rw [← Option.isSome_iff_exists, List.find?_isSome]
      simpa using hany
    let shut := { s.onConnection c (fun connection ↦ { connection with closed := !left }) with
      opening := s.opening.filter (·.1 ≠ c), size := s.size - 1 }
    obtain ⟨calls, heq⟩ := shut.reject_eq entry.2
    rw [PgPool.step, PgPool.failed, hfind] at hc
    replace hc : (shut.reject entry.2).Conserved := hc
    rw [heq] at hc
    have hsettled := h.balanced.settled hfind
    constructor
    · by_contra hleft
      have hleft : left = true := by simpa using hleft
      -- what is left open has no place
      have hlength : c < s.connections.length := hsettled.known c (by simp)
      have hmem := hc.every c { s.connections[c] with closed := !left }
        (by simp [shut, PgPool.onConnection, hlength]) (by rw [hleft]; rfl)
      exact (List.nodup_cons.mp hsettled.once).1 hmem
    · by_contra hwaiting
      have hbefore := h.queued hwaiting
      have hafter : s.size - 1 = s.max := hc.queued hwaiting
      omega
  | release k =>
    intro client hclient hreleased hkeeps w hw
    have hdropped := hc.dropped
    rw [PgPool.step, PgPool.release, hclient] at hdropped
    dsimp only at hdropped
    rw [if_neg (by rw [hreleased]; decide), takeBack, if_neg (by exact fun h ↦ Bool.noConfusion (hkeeps.symm.trans h))] at hdropped
    obtain ⟨waiting, hwaiting⟩ := List.head?_eq_some_iff.mp hw
    let shifted := { s with clients := s.clients.set k { client with released := true }, waiting := waiting }
    have hresolve : (shifted.resolve w.call client.connection).dropped = [] := by
      simpa [hwaiting] using hdropped
    exact waits_of_dropped (s := shifted) hresolve
  | _ => trivial

end PgPool

def timedOut : List PoolAction := [.connect, .opened 0 'I', .connect, .timeout 1, .release 0]

end Noesar.Postgres
