import LeoCoin.Core.ConsensusPeerServer
import LeoCoin.Core.MineBlocks
import LeoCoin.Core.PeerDiscoveryBootstrapServer

/-!
# Accept Loop

The two servers from their call to their return.

Both servers are one loop around different handlers. They open a socket to
listen on, and then poll it, accept a connection if there is one, handle one
request on it and close it, until they are asked to stop. What a handler
returns is kept as the return code and does not end the loop. A call of the
loop itself that fails does, and then nothing is closed: neither the connection
that was just accepted nor the socket that was listened on. That one is not
closed when the server is asked to stop either.

Every return of these functions goes through the announcement that they are
about to exit.

What the server shares with other threads is a parameter, as is the handler.
Between two requests the other threads may do something to it, and `meanwhile`
says what they do in the time of a round.

## Main definitions

* `ListenCalls`, `openListener`: Opening the socket to listen on.
* `AcceptRound`: What a round of the loop meets.
* `HandlerOutcome`: How a handler ends.
* `ServerLoop`, `ServerState`: The state of the loop.
* `acceptStart`, `acceptStep`: The loop.
* `runConsensusPeerServer`, `handlePeerDiscoveryRequests`: The two servers.
-/

namespace LeoCoin

/-- What the calls before the loop return, and the request to stop as it is read
    first. -/
structure ListenCalls where
  socket : Int
  setReuseAddr : Int
  setV6only : Int
  bind : Int
  listen : Int
  shouldStop : Bool
  /-- The request for the return code. -/
  alloc : Allocator

/-- The code of the first call that fails. -/
def openListener (calls : ListenCalls) : Except ReturnCode Unit :=
  if calls.socket < 0 then .error .failureNetworkFunction
  else if calls.setReuseAddr ≠ 0 then .error .failureNetworkFunction
  else if calls.setV6only ≠ 0 then .error .failureNetworkFunction
  else if calls.bind < 0 then .error .failureNetworkFunction
  else if calls.listen < 0 then .error .failureNetworkFunction
  else .ok ()

/-- What a round of the loop meets, with requests in `ρ` and acts of the other
    threads in `μ`. -/
structure AcceptRound (μ ρ : Type) where
  /-- What the other threads do before the request is handled. -/
  meanwhile : List μ
  /-- What `poll` returns. -/
  poll : Int
  /-- The descriptor `accept` returns. -/
  connFd : Int
  /-- The length of the address as `accept` stores it. -/
  clientLen : Nat
  /-- The host name `getnameinfo` finds, if it succeeds. -/
  getnameinfo : Option String
  /-- The text `inet_ntop` returns, if it is not a null pointer. -/
  inetNtop : Option String
  request : ρ
  /-- The request to stop as it is read at the end of the round. -/
  shouldStop : Bool
  /-- The request for the return code. -/
  alloc : Allocator

/-- How a handler ends, what it leaves of the shared state, and what it
    prints. -/
structure HandlerOutcome (σ : Type) where
  ending : Except Interruption Unit
  shared : σ
  printed : List String

/-- The state of the server at the head of its loop. -/
structure ServerLoop (σ : Type) where
  shared : σ
  returnCode : Except ReturnCode Unit
  /-- The descriptors that were opened and not closed. -/
  descriptors : List Int
  printed : List String

/-- At the head of the loop, in a handler that does not come back, or returned.
    A server that has returned has set `exit_ready` and signalled it. -/
inductive ServerState (σ : Type) where
  | accepting (s : ServerLoop σ)
  | blocked (s : ServerLoop σ)
  | returned (s : ServerLoop σ)

/-- The end of the function. The pointer to the return code is not checked
    before the code is written through it. -/
def serverEnd {σ : Type} (alloc : Allocator) (s : ServerLoop σ) : Option (ServerState σ) :=
  if alloc.grants 0 sizeofReturnCode then some (.returned s) else none

/-- The function up to the loop. -/
def acceptStart {σ : Type} (calls : ListenCalls) (shared : σ) : Option (ServerState σ) :=
  -- The socket stays open where a later call fails.
  let descriptors := if calls.socket < 0 then [] else [calls.socket]
  match openListener calls with
  | .error code => serverEnd calls.alloc ⟨shared, .error code, descriptors, []⟩
  | .ok () =>
    let s : ServerLoop σ := ⟨shared, .ok (), descriptors, []⟩
    if calls.shouldStop then serverEnd calls.alloc s else some (.accepting s)

/-- The line that tells who has connected, if both lookups succeed. -/
def connectionLines {μ ρ : Type} (printProgress : Bool) (r : AcceptRound μ ρ) :
    Except ReturnCode (List String) :=
  if ¬ printProgress then .ok []
  else match r.getnameinfo with
  | none => .error .failureNetworkFunction
  | some clientHostname =>
    match r.inetNtop with
    | none => .error .failureNetworkFunction
    | some clientAddrStr =>
      .ok ["Server established connection with " ++ clientHostname ++ " (" ++ clientAddrStr ++
        ")\n"]

section Loop

variable {σ μ ρ : Type} (handler : σ → ρ → Option (HandlerOutcome σ))
  (other : σ → μ → Option σ) (printProgress : Bool) (retrying : String)

/-- The test at the end of a round. -/
def acceptTest (r : AcceptRound μ ρ) (s : ServerLoop σ) : Option (ServerState σ) :=
  if r.shouldStop then serverEnd r.alloc s else some (.accepting s)

/-- The handler, and what follows it in the round. -/
def handleConnection (r : AcceptRound μ ρ) (s : ServerLoop σ) : Option (ServerState σ) :=
  match handler s.shared r.request with
  | none => none
  | some out =>
    let s := { s with shared := out.shared, printed := s.printed ++ out.printed }
    match out.ending with
    | .error .blocked => some (.blocked s)
    -- The server goes on after a request that failed.
    | .error (.failed code) =>
      let line := if printProgress then [retrying] else []
      acceptTest r
        { s with
          returnCode := .error code
          printed := s.printed ++ line
          descriptors := s.descriptors.erase r.connFd }
    | .ok () =>
      acceptTest r { s with returnCode := .ok (), descriptors := s.descriptors.erase r.connFd }

/-- A round after the other threads have acted. -/
def acceptConnection (r : AcceptRound μ ρ) (s : ServerLoop σ) : Option (ServerState σ) :=
  if r.poll = -1 then serverEnd r.alloc { s with returnCode := .error .failureNetworkFunction }
  -- Nobody connected in time.
  else if r.poll = 0 then acceptTest r s
  else if r.connFd < 0 then
    serverEnd r.alloc { s with returnCode := .error .failureNetworkFunction }
  else
    let s := { s with descriptors := r.connFd :: s.descriptors }
    -- The connection is not closed from here up to the handler.
    if r.clientLen ≠ sizeofSockaddrIn6 then
      serverEnd r.alloc { s with returnCode := .error .failureBufferTooSmall }
    else match connectionLines printProgress r with
    | .error code => serverEnd r.alloc { s with returnCode := .error code }
    | .ok lines =>
      handleConnection handler printProgress retrying r { s with printed := s.printed ++ lines }

/-- A round of the loop. Nothing follows a return, or a handler that does not
    come back. -/
def acceptStep (s : ServerState σ) (r : AcceptRound μ ρ) : Option (ServerState σ) :=
  match s with
  | .accepting s =>
    -- What the other threads do in the round is done before the request.
    match r.meanwhile.foldlM other s.shared with
    | none => none
    | some shared =>
      acceptConnection handler printProgress retrying r { s with shared := shared }
  | .blocked _ => none
  | .returned _ => none

end Loop

/-- The handler of the bootstrap server, whose table keeps the records. -/
def peerDiscoveryHandler (order : ByteOrder) (args : BootstrapArgs)
    (peerInfoList : List PeerRecord) (r : PeerRequest) :
    Option (HandlerOutcome (List PeerRecord)) :=
  (handleOnePeerDiscoveryRequest order args peerInfoList r).map fun handled =>
    ⟨handled.ending, handled.peerInfoList, handled.printed⟩

/-- A round of `handle_peer_discovery_requests`. Its start is `acceptStart`. No
    other thread writes to the table. -/
def handlePeerDiscoveryRequests (order : ByteOrder) (args : BootstrapArgs) :
    ServerState (List PeerRecord) → AcceptRound Empty PeerRequest →
      Option (ServerState (List PeerRecord)) :=
  acceptStep (peerDiscoveryHandler order args) (fun _ none => none.elim) args.printProgress
    "Error handling peer discovery request; retrying\n"

end LeoCoin
