import Noesar.Postgres.Places

namespace Noesar.Postgres

open Lib.Run

namespace PgPool

section

variable (s : PgPool)

/-- The call of `connect` that the step serves gets a client of this connection. -/
def Returns (a : PoolAction) (c : ℕ) : Prop :=
  ∃ clients, clients.length = s.clients.length ∧ (s.step a).clients = clients ++ [⟨c, false, false⟩]

def Reuses (a : PoolAction) (c : ℕ) : Prop := s.Returns a c ∧ c ∉ s.opening.map Prod.fst

/-- The session of the connection is in no transaction as far as the server reported, and has no statement to answer. -/
def AtRest (c : ℕ) : Prop := s.transactionStatus c = some 'I' ∧ s.pending c = false

instance (c : ℕ) : Decidable (s.AtRest c) := inferInstanceAs (Decidable (_ ∧ _))

/-- A report that answers no statement repeats the last, as nothing can have changed the session since. -/
def Truthful : PoolAction → Prop
  | .ready c status => s.pending c = false → ∀ last ∈ s.transactionStatus c, status = last
  | _ => True

def LeftAtRest : PoolAction → Prop
  | .release k => ∀ client ∈ s.clients[k]?, client.released = false → s.discards client = false → s.AtRest client.connection
  | _ => True

instance (a : PoolAction) : Decidable (s.Truthful a) := by
  cases a <;> unfold Truthful <;> infer_instance

instance (a : PoolAction) : Decidable (s.LeftAtRest a) := by
  cases a <;> unfold LeftAtRest <;> infer_instance

/-- What is idle is at rest, where some connections are in hand. -/
structure Quiet (hand : List ℕ) : Prop extends s.Placed hand where
  idle : ∀ c ∈ s.idle, s.AtRest c

end

section

variable {s s' : PgPool} {c call : ℕ}

theorem Placed.resolve (h : s.Placed [c]) : (s.resolve call c).Placed [] := by
  by_cases hw : s.Waits call
  · have hperm := places_resolve (c := c) hw
    obtain ⟨timer, hw⟩ := hw
    rw [PgPool.resolve, hw] at hperm ⊢
    exact h.of_perm hperm rfl
  · rw [PgPool.resolve]
    split
    · next timer hwaits => exact absurd ⟨timer, hwaits⟩ hw
    · exact h.forget.of_perm (.refl _) rfl

theorem atRest_of_same (hconnections : s'.connections = s.connections) : s'.AtRest c ↔ s.AtRest c := by
  rw [AtRest, AtRest, transactionStatus, transactionStatus, pending, pending, hconnections]

theorem atRest_append {connections : List PgConnection} (hknown : c < s.connections.length)
    (hconnections : s'.connections = s.connections ++ connections) : s'.AtRest c ↔ s.AtRest c := by
  rw [AtRest, AtRest, transactionStatus, transactionStatus, pending, pending, hconnections,
    List.getElem?_append_left hknown]

variable {c' k : ℕ} {a : PoolAction}

theorem atRest_onConnection_ne (f : PgConnection → PgConnection) (hne : c' ≠ c) :
    (s.onConnection c' f).AtRest c ↔ s.AtRest c := by
  have hsame : (s.onConnection c' f).connections[c]? = s.connections[c]? := by
    simp [onConnection, hne]
  rw [AtRest, AtRest, transactionStatus, transactionStatus, pending, pending, hsame]

theorem atRest_onConnection {f : PgConnection → PgConnection} (h : s.AtRest c)
    (hf : ∀ connection, connection.transactionStatus = some 'I' → connection.pending = false →
      (f connection).transactionStatus = some 'I' ∧ (f connection).pending = false) :
    (s.onConnection c' f).AtRest c := by
  by_cases hne : c' = c
  · subst hne
    obtain ⟨hstatus, hpending⟩ := h
    rw [transactionStatus] at hstatus
    obtain ⟨connection, hconnection, hstatus⟩ := Option.bind_eq_some_iff.mp hstatus
    rw [pending, hconnection] at hpending
    obtain ⟨hstatus, hpending⟩ := hf connection hstatus hpending
    have hafter : (s.onConnection c' f).connections[c']? = some (f connection) := by
      simp [onConnection, hconnection]
    rw [AtRest, transactionStatus, pending, hafter]
    exact ⟨hstatus, hpending⟩
  · exact (atRest_onConnection_ne f hne).mpr h

variable {hand : List ℕ}

theorem mem_places_of_idle (h : c ∈ s.idle) : c ∈ s.places := List.mem_append_left _ (List.mem_append_left _ h)

theorem Quiet.of_same {hand' : List ℕ} (h : s.Quiet hand) (hperm : (hand' ++ s'.places).Perm (hand ++ s.places))
    (hconnections : s'.connections = s.connections) (hidle : s'.idle ⊆ s.idle) : s'.Quiet hand' where
  toPlaced := h.toPlaced.of_perm hperm hconnections
  idle c hc := (atRest_of_same hconnections).mpr (h.idle c (hidle hc))

theorem Quiet.forget (h : s.Quiet (c :: hand)) : s.Quiet hand := ⟨h.toPlaced.forget, h.idle⟩

theorem Quiet.resolve (h : s.Quiet [c]) : (s.resolve call c).Quiet [] := by
  refine ⟨h.toPlaced.resolve, ?_⟩
  rw [PgPool.resolve]
  split
  · exact h.idle
  · exact h.idle

theorem Quiet.reject (h : s.Quiet hand) : (s.reject call).Quiet hand := by
  obtain ⟨calls, heq⟩ := s.reject_eq call
  rw [heq]
  exact h.of_same (.refl _) rfl (List.Subset.refl _)

theorem Quiet.openFor (h : s.Quiet []) : (s.openFor call).Quiet [] :=
  ⟨h.toPlaced.openFor call, fun c hc ↦ (atRest_append (h.known c (mem_places_of_idle hc)) rfl).mpr (h.idle c hc)⟩

theorem Quiet.pushed (h : s.Quiet [c]) (hrest : s.AtRest c) : Quiet { s with idle := s.idle ++ [c] } [] := by
  refine ⟨h.toPlaced.of_perm (s.places_pushed c) rfl, fun c' hc ↦ ?_⟩
  rcases List.mem_append.mp hc with hidle | hlast
  · exact h.idle c' hidle
  · exact List.mem_singleton.mp hlast ▸ hrest

theorem Quiet.onHand (h : s.Quiet (c :: hand)) (f : PgConnection → PgConnection) : (s.onConnection c f).Quiet (c :: hand) := by
  refine ⟨h.toPlaced.onConnection, fun c' hc ↦ (atRest_onConnection_ne f fun heq ↦ ?_).mpr (h.idle c' hc)⟩
  subst heq
  exact (List.nodup_cons.mp h.once).1 (List.mem_append_right _ (mem_places_of_idle hc))

theorem Quiet.onConnection {f : PgConnection → PgConnection} (h : s.Quiet hand)
    (hf : ∀ connection, connection.transactionStatus = some 'I' → connection.pending = false →
      (f connection).transactionStatus = some 'I' ∧ (f connection).pending = false) : (s.onConnection c f).Quiet hand :=
  ⟨h.toPlaced.onConnection, fun c' hc ↦ atRest_onConnection (h.idle c' hc) hf⟩

theorem Quiet.connectNew (h : s.Quiet []) : s.connectNew.Quiet [] := by
  rw [PgPool.connectNew]
  split
  · exact h.of_same (.refl _) rfl (List.Subset.refl _)
  · have hcalled : Quiet { s with calls := s.calls ++ [.pending false] } [] :=
      h.of_same (.refl _) rfl (List.Subset.refl _)
    exact hcalled.openFor

theorem Quiet.connect (h : s.Quiet []) : s.connect.Quiet [] := by
  rw [PgPool.connect]
  split
  · exact h.of_same (.refl _) rfl (List.Subset.refl _)
  · split
    · exact h.connectNew
    · next reusable hlast =>
      have hpopped : Quiet { s with idle := s.idle.dropLast } [reusable] :=
        h.of_same (places_popped hlast) rfl (List.dropLast_subset _)
      dsimp only
      split
      · exact Quiet.connectNew (hpopped.forget.of_same (.refl _) rfl (List.Subset.refl _))
      · exact Quiet.resolve (hpopped.of_same (.refl _) rfl (List.Subset.refl _))

theorem Quiet.serveNextWaiter (h : s.Quiet []) : s.serveNextWaiter.Quiet [] := by
  rw [PgPool.serveNextWaiter]
  split
  · exact h
  · exact Quiet.openFor (h.of_same (.refl _) rfl (List.Subset.refl _))

theorem Quiet.settled {entry : ℕ × ℕ} (h : s.Quiet []) (hfind : s.opening.find? (·.1 = c) = some entry) :
    Quiet { s with opening := s.opening.filter (·.1 ≠ c) } [c] :=
  h.of_same (places_settled h.once hfind) rfl (List.Subset.refl _)

theorem Quiet.opened (h : s.Quiet []) (status : Char) : (s.opened c status).Quiet [] := by
  rw [PgPool.opened]
  split
  · exact h
  · next hfind => exact Quiet.resolve ((h.settled hfind).onHand _)

theorem Quiet.failed (h : s.Quiet []) (left : Bool) : (s.failed c left).Quiet [] := by
  rw [PgPool.failed]
  split
  · exact h
  · next hfind =>
    have hforgotten := ((h.settled hfind).onHand fun connection ↦ { connection with closed := !left }).forget
    exact Quiet.reject (hforgotten.of_same (.refl _) rfl (List.Subset.refl _))

theorem Quiet.takeBack {client : PooledClient} (h : s.Quiet [client.connection])
    (hrest : s.discards client = false → s.AtRest client.connection) : (s.takeBack client).Quiet [] := by
  rw [PgPool.takeBack]
  split
  · have hforgotten := (h.onHand fun connection ↦ { connection with closed := true }).forget
    exact Quiet.serveNextWaiter (hforgotten.of_same (.refl _) rfl (List.Subset.refl _))
  · next hkeeps =>
    split
    · exact Quiet.resolve (h.of_same (.refl _) rfl (List.Subset.refl _))
    · exact h.pushed (hrest (Bool.not_eq_true _ ▸ hkeeps))

theorem Quiet.release (h : s.Quiet []) (hrest : s.LeftAtRest (.release k)) : (s.release k).Quiet [] := by
  rw [PgPool.release]
  split
  · exact h
  · next client hclient =>
    split
    · exact h
    · next hreleased =>
      have hreleased : client.released = false := by simpa using hreleased
      have hhand : Quiet { s with clients := s.clients.set k { client with released := true } } [client.connection] :=
        h.of_same (places_released hclient hreleased) rfl (List.Subset.refl _)
      exact hhand.takeBack (hrest client hclient hreleased)

theorem mem_heldBy {clients : List PooledClient} {client : PooledClient} (hk : clients[k]? = some client)
    (hreleased : client.released = false) : client.connection ∈ heldBy clients :=
  List.mem_map_of_mem (List.mem_filter.mpr ⟨List.mem_of_getElem? hk, by rw [hreleased]; rfl⟩)

theorem Quiet.query (h : s.Quiet []) (k : ℕ) : (s.query k).Quiet [] := by
  rw [PgPool.query]
  split
  · exact h
  · next client hclient =>
    split
    · exact h
    · next hsends =>
      refine ⟨h.toPlaced.onConnection, fun c hc ↦ (atRest_onConnection_ne _ fun heq ↦ ?_).mpr (h.idle c hc)⟩
      -- a client that has not released its connection has one that is not idle
      have hreleased : client.released = false := by
        simp only [Bool.or_eq_true, not_or, Bool.not_eq_true] at hsends
        exact hsends.1.1
      have hdisjoint := (List.nodup_append.mp (List.nodup_append.mp (show s.places.Nodup from h.once)).1).2.2
      exact hdisjoint c hc _ (mem_heldBy hclient hreleased) heq.symm

theorem Quiet.ready {status : Char} (h : s.Quiet []) (ht : s.Truthful (.ready c status)) : (s.ready c status).Quiet [] := by
  refine ⟨h.toPlaced.onConnection, fun c' hc ↦ ?_⟩
  have hrest := h.idle c' hc
  by_cases heq : c = c'
  · subst heq
    have hstatus : status = 'I' := ht hrest.2 'I' hrest.1
    exact atRest_onConnection hrest fun _ _ _ ↦ ⟨congrArg some hstatus, rfl⟩
  · exact (atRest_onConnection_ne _ heq).mpr hrest

theorem Quiet.timeout (h : s.Quiet []) : (s.timeout call).Quiet [] := by
  rw [PgPool.timeout]
  split
  · split
    · exact Quiet.reject (h.of_same (.refl _) rfl (List.Subset.refl _))
    · exact h.reject
  · exact h

theorem Quiet.finish (h : s.Quiet []) : s.finish.Quiet [] := by
  have hrejected : ∀ (waiters : List Waiter) (s : PgPool), s.Quiet [] →
      (waiters.foldl (fun s w ↦ s.reject w.call) s).Quiet [] := by
    intro waiters
    induction waiters with
    | nil => exact fun s h ↦ h
    | cons w waiters ih => exact fun s h ↦ ih _ h.reject
  have hended : ∀ (idle : List ℕ) (s : PgPool), s.Placed [] →
      (idle.foldl (fun s c ↦ s.onConnection c fun connection ↦ { connection with closed := true }) s).Placed [] := by
    intro idle
    induction idle with
    | nil => exact fun s h ↦ h
    | cons c idle ih => exact fun s h ↦ ih _ h.onConnection
  have hplaced := hended s.idle _ (hrejected s.waiting s h).toPlaced
  rw [PgPool.finish]
  refine ⟨⟨?_, fun c hc ↦ ?_⟩, fun c hc ↦ absurd hc List.not_mem_nil⟩
  · have honce := hplaced.once
    simp only [places, List.nil_append, List.append_assoc] at honce ⊢
    exact (List.nodup_append.mp honce).2.1
  · refine hplaced.known c ?_
    simp only [places, List.nil_append, List.append_assoc] at hc ⊢
    exact List.mem_append_right _ hc

theorem Quiet.step (h : s.Quiet []) (ht : s.Truthful a) (hrest : s.LeftAtRest a) : (s.step a).Quiet [] := by
  cases a with
  | connect => exact h.connect
  | opened c status => exact h.opened status
  | failed c left => exact h.failed left
  | timeout => exact h.timeout
  | release => exact h.release hrest
  | query k => exact h.query k
  | poison => exact h.of_same (by rw [PgPool.step, places_poison]) rfl (List.Subset.refl _)
  | ready => exact h.ready ht
  | fail => exact h.onConnection fun _ hstatus _ ↦ ⟨hstatus, rfl⟩
  | finish => exact h.finish

theorem clients_resolve : (s.resolve call c).clients = s.clients ++ [⟨c, false, false⟩] ∨ (s.resolve call c).clients = s.clients := by
  rw [PgPool.resolve]
  split
  · exact .inl rfl
  · exact .inr rfl

theorem not_returns (h : (s.step a).clients.length = s.clients.length) : ¬s.Returns a c := by
  rintro ⟨clients, hlength, heq⟩
  rw [heq, List.length_append, hlength, List.length_singleton] at h
  omega

theorem returns_eq {clients : List PooledClient} (hr : s.Returns a c) (hlength : clients.length = s.clients.length)
    (heq : (s.step a).clients = clients ++ [⟨c', false, false⟩] ∨ (s.step a).clients = clients) : c = c' := by
  obtain ⟨clients', hlength', heq'⟩ := hr
  rcases heq with heq | heq
  · have htail := List.append_inj_right (heq'.symm.trans heq) (hlength'.trans hlength.symm)
    simpa using htail
  · have hlengths := congrArg List.length (heq'.symm.trans heq)
    rw [List.length_append, List.length_singleton] at hlengths
    omega

theorem clients_connectNew : s.connectNew.clients = s.clients := by
  rw [connectNew]
  split <;> rfl

theorem clients_serveNextWaiter : s.serveNextWaiter.clients = s.clients := by
  rw [PgPool.serveNextWaiter]
  split <;> rfl

theorem clients_reject : (s.reject call).clients = s.clients := by
  obtain ⟨calls, heq⟩ := s.reject_eq call
  rw [heq]

theorem connections_resolve : (s.resolve call c).connections = s.connections := by
  rw [PgPool.resolve]
  split <;> rfl

theorem connect_atRest (h : s.Quiet []) (hr : s.Returns .connect c) : (s.step .connect).AtRest c := by
  have hstep : s.step .connect = s.connect := rfl
  rw [PgPool.connect] at hstep
  split at hstep
  · exact absurd hr (not_returns (by rw [hstep]))
  · split at hstep
    · exact absurd hr (not_returns (by rw [hstep, clients_connectNew]))
    · next reusable hlast =>
      dsimp only at hstep
      split at hstep
      · exact absurd hr (not_returns (by rw [hstep, clients_connectNew]))
      · have hsame := returns_eq hr rfl (by rw [hstep]; exact clients_resolve)
        subst hsame
        rw [hstep]
        exact (atRest_of_same connections_resolve).mpr (h.idle c (List.mem_of_getLast? hlast))

theorem release_atRest (hrest : s.LeftAtRest (.release k)) (hr : s.Returns (.release k) c) :
    (s.step (.release k)).AtRest c := by
  have hstep : s.step (.release k) = s.release k := rfl
  rw [PgPool.release] at hstep
  split at hstep
  · exact absurd hr (not_returns (by rw [hstep]))
  · next client hclient =>
    split at hstep
    · exact absurd hr (not_returns (by rw [hstep]))
    · next hreleased =>
      rw [PgPool.takeBack] at hstep
      split at hstep
      · refine absurd hr (not_returns ?_)
        rw [hstep, clients_serveNextWaiter]
        exact List.length_set
      · next hkeeps =>
        split at hstep
        · have hsame := returns_eq hr List.length_set (by rw [hstep]; exact clients_resolve)
          subst hsame
          rw [hstep]
          have hleft := hrest client hclient (by simpa using hreleased) (Bool.not_eq_true _ ▸ hkeeps)
          exact (atRest_of_same connections_resolve).mpr hleft
        · refine absurd hr (not_returns ?_)
          rw [hstep]
          exact List.length_set

theorem clients_failed (left : Bool) : (s.failed c left).clients = s.clients := by
  rw [PgPool.failed]
  split
  · rfl
  · exact clients_reject

theorem clients_timeout : (s.timeout call).clients = s.clients := by
  rw [PgPool.timeout]
  split
  · split
    · exact clients_reject
    · exact clients_reject
  · rfl

theorem clients_query (k : ℕ) : (s.query k).clients = s.clients := by
  rw [PgPool.query]
  split
  · rfl
  · split <;> rfl

theorem clients_finish : s.finish.clients = s.clients := by
  have hrejected : ∀ (waiters : List Waiter) (s : PgPool),
      (waiters.foldl (fun s w ↦ s.reject w.call) s).clients = s.clients := by
    intro waiters
    induction waiters with
    | nil => exact fun s ↦ rfl
    | cons w waiters ih => exact fun s ↦ (ih _).trans clients_reject
  have hended : ∀ (idle : List ℕ) (s : PgPool),
      (idle.foldl (fun s c ↦ s.onConnection c fun connection ↦ { connection with closed := true }) s).clients = s.clients := by
    intro idle
    induction idle with
    | nil => exact fun s ↦ rfl
    | cons c idle ih => exact fun s ↦ ih _
  exact (hended _ _).trans (hrejected _ _)

theorem Quiet.atRest_of_reuses (h : s.Quiet []) (hrest : s.LeftAtRest a) (hr : s.Reuses a c) :
    (s.step a).AtRest c := by
  obtain ⟨hr, hopening⟩ := hr
  cases a with
  | connect => exact connect_atRest h hr
  | release => exact release_atRest hrest hr
  | opened c' status =>
    have hstep : s.step (.opened c' status) = s.opened c' status := rfl
    rw [PgPool.opened] at hstep
    split at hstep
    · exact absurd hr (not_returns (by rw [hstep]))
    · next first call hfind =>
      have hsame := returns_eq hr rfl (by rw [hstep]; exact clients_resolve)
      subst hsame
      have hkey : first = c := by simpa using List.find?_some hfind
      exact absurd (List.mem_map_of_mem (List.mem_of_find?_eq_some hfind)) (hkey ▸ hopening)
  | failed c' left => exact absurd hr (not_returns (congrArg List.length (clients_failed left)))
  | timeout => exact absurd hr (not_returns (congrArg List.length clients_timeout))
  | query k => exact absurd hr (not_returns (congrArg List.length (clients_query k)))
  | poison => exact absurd hr (not_returns (List.length_modify _ _ _))
  | ready | fail => exact absurd hr (not_returns rfl)
  | finish => exact absurd hr (not_returns (congrArg List.length clients_finish))

end

end PgPool

/-- Over any run of a truthful server: where every client that is not discarded leaves its session at rest, every
connection that is used again is at rest. -/
theorem reused_at_rest (max : ℕ) (actions : List PoolAction)
    (h : Along PgPool.step (fun s a ↦ s.Truthful a ∧ s.LeftAtRest a) (.fresh max) actions) :
    Along PgPool.step (fun s a ↦ ∀ c, s.Reuses a c → (s.step a).AtRest c) (.fresh max) actions := by
  refine Along.imp (I := fun s : PgPool ↦ s.Quiet []) ?_ h ⟨PgPool.placed_fresh max, fun c hc ↦ absurd hc List.not_mem_nil⟩
  rintro s a hquiet ⟨ht, hrest⟩
  exact ⟨hquiet.step ht hrest, fun c hr ↦ hquiet.atRest_of_reuses hrest hr⟩

def answered : List PoolAction :=
  [.connect, .opened 0 'I', .query 0, .ready 0 'I', .release 0, .connect]

theorem reused_at_rest_answered :
    Along PgPool.step (fun s a ↦ ∀ c, s.Reuses a c → (s.step a).AtRest c) (.fresh 1) answered :=
  reused_at_rest 1 answered (by
    refine ⟨⟨?_, ?_⟩, ⟨?_, ?_⟩, ⟨?_, ?_⟩, ⟨?_, ?_⟩, ⟨?_, ?_⟩, ⟨?_, ?_⟩, trivial⟩ <;> decide)

def begun : List PoolAction := [.connect, .opened 0 'I', .query 0, .ready 0 'T', .release 0, .connect]

theorem begun_reused : ¬Along PgPool.step (fun s a ↦ ∀ c, s.Reuses a c → (s.step a).AtRest c) (.fresh 1) begun := by
  rintro ⟨-, -, -, -, -, h, -⟩
  have hreuses : PgPool.Reuses (after PgPool.step (.fresh 1) (begun.take 5)) .connect 0 :=
    ⟨⟨[⟨0, true, false⟩], by decide, by decide⟩, by decide⟩
  exact absurd (h 0 hreuses) (by decide)

end Noesar.Postgres
