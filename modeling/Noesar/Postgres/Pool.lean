import Mathlib
import Noesar.Lib.Run

namespace Noesar.Postgres

structure PgConnection where
  closed : Bool
  transactionStatus : Option Char
  pending : Bool
  deriving DecidableEq

/-- The client of a connection, which stands with the others in the order in which they were made. -/
structure PooledClient where
  connection : ℕ
  released : Bool
  poisoned : Bool
  deriving DecidableEq

/-- The promise of a call, with or without a timer that runs. -/
inductive Promise
  | pending (timer : Bool)
  | resolved (client : ℕ)
  | rejected
  deriving DecidableEq

/-- A function of a promise: the one it was made with, or the one that first clears the timer. -/
inductive Settler
  | own (call : ℕ)
  | clearing (call : ℕ)
  deriving DecidableEq

structure Waiter where
  call : ℕ
  deriving DecidableEq

def Waiter.resolve (w : Waiter) : Settler := .clearing w.call

/-- The pool, and around it the connections, the clients and the calls there ever were, the connections that are being
opened with the call each is for, and the connections that were handed to a promise that was settled. -/
structure PgPool where
  max : ℕ
  idle : List ℕ
  size : ℤ
  waiting : List Waiter
  ending : Bool
  connections : List PgConnection
  clients : List PooledClient
  calls : List Promise
  opening : List (ℕ × ℕ)
  dropped : List ℕ
  deriving DecidableEq

namespace PgPool

variable (s : PgPool)

def fresh (max : ℕ) : PgPool := ⟨max, [], 0, [], false, [], [], [], [], []⟩

def closed (c : ℕ) : Bool := s.connections[c]?.any (·.closed)

def transactionStatus (c : ℕ) : Option Char := s.connections[c]?.bind (·.transactionStatus)

def pending (c : ℕ) : Bool := s.connections[c]?.any (·.pending)

def onConnection (c : ℕ) (f : PgConnection → PgConnection) : PgPool :=
  { s with connections := s.connections.modify c f }

def resolve (call c : ℕ) : PgPool :=
  match s.calls[call]? with
  | some (.pending _) =>
    { s with calls := s.calls.set call (.resolved s.clients.length), clients := s.clients ++ [⟨c, false, false⟩] }
  | _ => { s with dropped := s.dropped ++ [c] }

def reject (call : ℕ) : PgPool :=
  match s.calls[call]? with
  | some (.pending _) => { s with calls := s.calls.set call .rejected }
  | _ => s

def openFor (call : ℕ) : PgPool :=
  { s with
    size := s.size + 1
    connections := s.connections ++ [⟨false, none, false⟩]
    opening := s.opening ++ [(s.connections.length, call)] }

/-- What `connect` does where no idle connection serves. -/
def connectNew : PgPool :=
  if s.max ≤ s.size then
    { s with calls := s.calls ++ [.pending true], waiting := s.waiting ++ [⟨s.calls.length⟩] }
  else
    openFor { s with calls := s.calls ++ [.pending false] } s.calls.length

def connect : PgPool :=
  if s.ending then { s with calls := s.calls ++ [.rejected] }
  else match s.idle.getLast? with
  | none => s.connectNew
  | some reusable =>
    let s := { s with idle := s.idle.dropLast }
    if s.closed reusable then connectNew { s with size := s.size - 1 }
    else resolve { s with calls := s.calls ++ [.pending false] } s.calls.length reusable

def timeout (call : ℕ) : PgPool :=
  if s.calls[call]? = some (.pending true) then
    let s := match s.waiting.findIdx? fun w ↦ w.resolve = .own call with
      | some index => { s with waiting := s.waiting.eraseIdx index }
      | none => s
    s.reject call
  else s

def opened (c : ℕ) (status : Char) : PgPool :=
  match s.opening.find? (·.1 = c) with
  | none => s
  | some (_, call) =>
    let s := s.onConnection c fun connection ↦ { connection with transactionStatus := some status }
    resolve { s with opening := s.opening.filter (·.1 ≠ c) } call c

def failed (c : ℕ) (left : Bool) : PgPool :=
  match s.opening.find? (·.1 = c) with
  | none => s
  | some (_, call) =>
    let s := s.onConnection c fun connection ↦ { connection with closed := !left }
    reject { s with opening := s.opening.filter (·.1 ≠ c), size := s.size - 1 } call

def serveNextWaiter : PgPool :=
  match s.waiting with
  | [] => s
  | waiter :: waiting => openFor { s with waiting := waiting } waiter.call

def discards (client : PooledClient) : Bool :=
  s.ending || client.poisoned || s.closed client.connection || s.transactionStatus client.connection == some 'E'

def takeBack (client : PooledClient) : PgPool :=
  if s.discards client then
    let s := { s with size := s.size - 1 }
    (s.onConnection client.connection fun connection ↦ { connection with closed := true }).serveNextWaiter
  else match s.waiting with
  | waiter :: waiting => resolve { s with waiting := waiting } waiter.call client.connection
  | [] => { s with idle := s.idle ++ [client.connection] }

def release (k : ℕ) : PgPool :=
  match s.clients[k]? with
  | none => s
  | some client =>
    if client.released then s
    else takeBack { s with clients := s.clients.set k { client with released := true } } client

/-- A statement is sent, by a client that has its connection and where no other is in flight. -/
def query (k : ℕ) : PgPool :=
  match s.clients[k]? with
  | none => s
  | some client =>
    if client.released || s.closed client.connection || s.pending client.connection then s
    else s.onConnection client.connection fun connection ↦ { connection with pending := true }

def poison (k : ℕ) : PgPool :=
  { s with clients := s.clients.modify k fun client ↦ { client with poisoned := true } }

/-- `ReadyForQuery` -/
def ready (c : ℕ) (status : Char) : PgPool :=
  s.onConnection c fun connection ↦ { connection with transactionStatus := some status, pending := false }

def fail (c : ℕ) : PgPool := s.onConnection c fun connection ↦ { connection with closed := true, pending := false }

def finish : PgPool :=
  let rejected := s.waiting.foldl (fun s w ↦ s.reject w.call) s
  let ended := s.idle.foldl (fun s c ↦ s.onConnection c fun connection ↦ { connection with closed := true }) rejected
  { ended with ending := true, waiting := [], idle := [], size := ended.size - ended.idle.length }

end PgPool

inductive PoolAction
  | connect
  | opened (c : ℕ) (status : Char)
  | failed (c : ℕ) (left : Bool)
  | timeout (call : ℕ)
  | release (k : ℕ)
  | query (k : ℕ)
  | poison (k : ℕ)
  | ready (c : ℕ) (status : Char)
  | fail (c : ℕ)
  | finish
  deriving DecidableEq

def PgPool.step (s : PgPool) : PoolAction → PgPool
  | .connect => s.connect
  | .opened c status => s.opened c status
  | .failed c left => s.failed c left
  | .timeout call => s.timeout call
  | .release k => s.release k
  | .query k => s.query k
  | .poison k => s.poison k
  | .ready c status => s.ready c status
  | .fail c => s.fail c
  | .finish => s.finish

end Noesar.Postgres
