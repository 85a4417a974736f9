import Mathlib
import Noesar.Postgres.Pool

namespace Noesar.Postgres.PgPool

def heldBy (clients : List PooledClient) : List ℕ := (clients.filter fun client ↦ !client.released).map (·.connection)

section

variable (s : PgPool)

/-- The places of the pool: idle, with a client, or being opened. A connection that is closed keeps its place until the
pool comes to it. -/
def places : List ℕ := s.idle ++ heldBy s.clients ++ s.opening.map Prod.fst

/-- No connection has two places, where some are in hand, between two places. -/
structure Placed (hand : List ℕ) : Prop where
  once : (hand ++ s.places).Nodup
  known : ∀ c ∈ hand ++ s.places, c < s.connections.length

def Waits (call : ℕ) : Prop := ∃ timer, s.calls[call]? = some (.pending timer)

instance (call : ℕ) : Decidable (s.Waits call) :=
  match h : s.calls[call]? with
  | some (.pending timer) => .isTrue ⟨timer, h⟩
  | some (.resolved _) | some .rejected | none => .isFalse fun ⟨_, ht⟩ ↦ by cases h.symm.trans ht

end

variable {s s' : PgPool} {hand : List ℕ} {c : ℕ}

theorem heldBy_append (clients : List PooledClient) (c : ℕ) :
    heldBy (clients ++ [⟨c, false, false⟩]) = heldBy clients ++ [c] := by
  simp [heldBy]

theorem heldBy_set {clients : List PooledClient} {k : ℕ} {client : PooledClient} (hk : clients[k]? = some client)
    (hreleased : client.released = false) :
    (client.connection :: heldBy (clients.set k { client with released := true })).Perm (heldBy clients) := by
  induction clients generalizing k with
  | nil => cases hk
  | cons other clients ih =>
    cases k with
    | zero =>
      obtain rfl := Option.some.inj hk
      simp [heldBy, hreleased]
    | succ =>
      have htail := ih hk
      rw [List.set_cons_succ]
      unfold heldBy at htail ⊢
      rw [List.filter_cons, List.filter_cons]
      split
      · exact (List.Perm.swap _ _ _).trans (htail.cons other.connection)
      · exact htail

theorem filter_key_perm {opening : List (ℕ × ℕ)} (hn : (opening.map Prod.fst).Nodup) {entry : ℕ × ℕ}
    (hfind : opening.find? (·.1 = c) = some entry) :
    (c :: (opening.filter (·.1 ≠ c)).map Prod.fst).Perm (opening.map Prod.fst) := by
  induction opening with
  | nil => cases hfind
  | cons other opening ih =>
    rw [List.map_cons, List.nodup_cons] at hn
    rw [List.find?_cons] at hfind
    by_cases h : other.1 = c
    · have hrest : opening.filter (·.1 ≠ c) = opening := by
        rw [List.filter_eq_self]
        intro e he
        have hne : e.1 ≠ other.1 := fun heq ↦ hn.1 (heq ▸ List.mem_map_of_mem he)
        simpa [← h] using hne
      rw [List.filter_cons_of_neg (by simpa using h), hrest, List.map_cons, h]
    · simp only [h, decide_false] at hfind
      rw [List.filter_cons_of_pos (by simpa using h), List.map_cons, List.map_cons]
      exact (List.Perm.swap _ _ _).trans ((ih hn.2 hfind).cons _)

theorem places_resolve {call : ℕ} (hw : s.Waits call) : (s.resolve call c).places.Perm (c :: s.places) := by
  obtain ⟨timer, hw⟩ := hw
  rw [resolve, hw]
  simp only [places, heldBy_append]
  have hheld := (List.perm_append_singleton c (heldBy s.clients)).append_left s.idle
  exact (hheld.trans List.perm_middle).append_right _

theorem places_released {k : ℕ} {client : PooledClient} (hk : s.clients[k]? = some client)
    (hreleased : client.released = false) :
    (client.connection :: places { s with clients := s.clients.set k { client with released := true } }).Perm s.places := by
  have hheld := heldBy_set hk hreleased
  simp only [places, List.append_assoc]
  refine List.perm_middle.symm.trans (List.Perm.append_left s.idle ?_)
  exact hheld.append_right _

theorem places_popped (hlast : s.idle.getLast? = some c) :
    (c :: places { s with idle := s.idle.dropLast }).Perm s.places := by
  have hidle : s.idle.dropLast ++ [c] = s.idle := List.dropLast_append_getLast? c hlast
  have hperm := (List.perm_append_singleton c s.idle.dropLast).symm
  rw [hidle] at hperm
  exact (hperm.append_right _).append_right _

theorem places_pushed (s : PgPool) (c : ℕ) : (places { s with idle := s.idle ++ [c] }).Perm (c :: s.places) :=
  ((List.perm_append_singleton c s.idle).append_right _).append_right _

theorem places_openFor (s : PgPool) (call : ℕ) : (s.openFor call).places.Perm (s.connections.length :: s.places) := by
  simp only [places, openFor, List.map_append, List.map_cons, List.map_nil]
  rw [← List.append_assoc]
  exact List.perm_append_singleton _ _

theorem places_settled {entry : ℕ × ℕ} (hn : s.places.Nodup) (hfind : s.opening.find? (·.1 = c) = some entry) :
    (c :: places { s with opening := s.opening.filter (·.1 ≠ c) }).Perm s.places := by
  have hopening := filter_key_perm (List.nodup_append.mp hn).2.1 hfind
  exact List.perm_middle.symm.trans (hopening.append_left _)

theorem heldBy_poison (clients : List PooledClient) (k : ℕ) :
    heldBy (clients.modify k fun client ↦ { client with poisoned := true }) = heldBy clients := by
  induction clients generalizing k with
  | nil => rw [List.modify_nil]
  | cons client clients ih =>
    cases k with
    | zero =>
      rw [List.modify_zero_cons, heldBy, heldBy, List.filter_cons, List.filter_cons]
      cases client.released <;> rfl
    | succ k =>
      have htail := ih k
      rw [List.modify_succ_cons]
      unfold heldBy at htail ⊢
      rw [List.filter_cons, List.filter_cons]
      cases client.released
      · exact congrArg (client.connection :: ·) htail
      · exact htail

theorem places_poison (s : PgPool) (k : ℕ) : (s.poison k).places = s.places := by
  rw [places, poison]
  dsimp only
  rw [heldBy_poison]
  rfl

theorem reject_eq (s : PgPool) (call : ℕ) : ∃ calls, s.reject call = { s with calls := calls } := by
  rw [reject]
  split
  · exact ⟨_, rfl⟩
  · exact ⟨s.calls, rfl⟩

theorem Placed.of_perm {hand' : List ℕ} (h : s.Placed hand) (hperm : (hand' ++ s'.places).Perm (hand ++ s.places))
    (hconnections : s'.connections = s.connections) : s'.Placed hand' where
  once := hperm.nodup_iff.mpr h.once
  known c hc := by
    rw [hconnections]
    exact h.known c (hperm.mem_iff.mp hc)

theorem placed_fresh (max : ℕ) : (fresh max).Placed [] :=
  ⟨List.nodup_nil, fun c hc ↦ absurd hc List.not_mem_nil⟩

theorem Placed.forget (h : s.Placed (c :: hand)) : s.Placed hand :=
  ⟨(List.nodup_cons.mp h.once).2, fun c' hc ↦ h.known c' (List.mem_cons_of_mem c hc)⟩

theorem Placed.onConnection {f : PgConnection → PgConnection} (h : s.Placed hand) : (s.onConnection c f).Placed hand where
  once := h.once
  known c' hc := by
    change c' < (s.connections.modify c f).length
    rw [List.length_modify]
    exact h.known c' hc

theorem Placed.openFor (h : s.Placed []) (call : ℕ) : (s.openFor call).Placed [] := by
  have hperm := s.places_openFor call
  have hknown : ∀ c ∈ s.places, c < s.connections.length := h.known
  refine ⟨hperm.nodup_iff.mpr (List.nodup_cons.mpr ⟨fun hmem ↦ absurd (hknown _ hmem) (lt_irrefl _), h.once⟩), fun c hc ↦ ?_⟩
  have hlength : (s.openFor call).connections.length = s.connections.length + 1 := by simp [PgPool.openFor]
  rw [hlength]
  rcases List.mem_cons.mp (hperm.mem_iff.mp hc) with rfl | hmem
  · exact Nat.lt_succ_self _
  · exact Nat.lt_succ_of_lt (hknown c hmem)

end Noesar.Postgres.PgPool
