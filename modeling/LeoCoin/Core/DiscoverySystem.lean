import LeoCoin.Core.AcceptLoop
import LeoCoin.Core.PeerDiscoveryThread
import LeoCoin.Theory.Receipt

/-!
# Discovery System

The bootstrap server and any number of clients.

The thread of a client is a loop around an attempt. It keeps the code of the
last attempt, whatever that was, sleeps without a look at what comes of it, and
goes on until it is asked to stop. It announces its exit on its only way out.

The server handles one connection after the other. A client waits for it, or
for the network, only within an attempt, so an attempt is two steps here: the
client sends its request, and later it receives what there is and goes on. The
server may handle the connection in between, and other clients may do anything
in between. What arrives at either end of a connection begins what the other end
sends, however it is cut. Requests may also come from elsewhere, and from
clients that have given up by then; these are any bytes at all.

A server that does not come back from a request is blocked, as is a client that
does not come back from an attempt.

The requests that the server has handled are kept in the state. They are there
to state what holds, and no step looks at them.

## Main definitions

* `DiscoverPeersLoop`, `DiscoveryClient`: The thread of a client.
* `discoverPeersStart`, `discoverPeersRound`: Its loop.
* `DiscoveryParties`: The server and the clients.
* `DiscoverySystem`, `DiscoverySystem.Starts`: The state of the system.
* `DiscoveryEvent`, `discoveryStep`: Its steps.
-/

namespace LeoCoin

/-- What the thread of a client has. -/
structure DiscoverPeersLoop where
  peerInfoList : List PeerInfo
  returnCode : Except ReturnCode Unit
  printed : List String

/-- At the head of the loop, in an attempt, in an attempt that does not come
    back, or returned. A client that has returned has set `exit_ready` and
    signalled it. In an attempt the server may have replied already. -/
inductive DiscoveryClient where
  | looping (s : DiscoverPeersLoop)
  | discovering (s : DiscoverPeersLoop) (attempt : DiscoveryAttempt) (reply : Option (List UInt8))
  | blocked (s : DiscoverPeersLoop)
  | returned (s : DiscoverPeersLoop)

def DiscoveryClient.loop : DiscoveryClient → DiscoverPeersLoop
  | .looping s => s
  | .discovering s _ _ => s
  | .blocked s => s
  | .returned s => s

/-- The test of the loop, and the request for the return code if it ends. -/
structure LoopTest where
  shouldStop : Bool
  alloc : Allocator

/-- The test of the loop and what follows it. The pointer to the return code is
    not checked before the code is written through it. -/
def discoverPeersTest (args : DiscoverPeersArgs) (test : LoopTest) (s : DiscoverPeersLoop) :
    Option DiscoveryClient :=
  if ¬ test.shouldStop then some (.looping s)
  else if test.alloc.grants 0 sizeofReturnCode then
    let line := if args.printProgress then ["Stopping peer discovery.\n"] else []
    some (.returned { s with printed := s.printed ++ line })
  else none

/-- The function up to the loop. -/
def discoverPeersStart (args : DiscoverPeersArgs) (test : LoopTest)
    (peerInfoList : List PeerInfo) : Option DiscoveryClient :=
  discoverPeersTest args test ⟨peerInfoList, .ok (), []⟩

/-- The body of the loop. -/
def discoverPeersRound (order : ByteOrder) (args : DiscoverPeersArgs) (test : LoopTest)
    (attempt : DiscoveryAttempt) (s : DiscoverPeersLoop) : Option DiscoveryClient :=
  match discoverPeersOnce order args s.peerInfoList attempt with
  | none => none
  | some discovered =>
    let s :=
      { s with
        peerInfoList := discovered.peerInfoList
        printed := s.printed ++ discovered.printed }
    match discovered.ending with
    | .error .blocked => some (.blocked s)
    -- The client goes on after an attempt that failed.
    | .error (.failed code) =>
      let line := if args.printProgress then ["Error in peer discovery; retrying\n"] else []
      discoverPeersTest args test
        { s with returnCode := .error code, printed := s.printed ++ line }
    | .ok () => discoverPeersTest args test { s with returnCode := .ok () }

/-- The hosts and the arguments of the server and of the clients. -/
structure DiscoveryParties (ι : Type) where
  serverOrder : ByteOrder
  bootstrap : BootstrapArgs
  clientOrder : ι → ByteOrder
  args : ι → DiscoverPeersArgs

structure DiscoverySystem (ι : Type) where
  /-- The table of the server. -/
  peerInfoList : List PeerRecord
  /-- Whether the server is in a request that does not come back. -/
  serverBlocked : Bool
  /-- The requests that the server has handled. -/
  served : List PeerRequest
  clients : ι → DiscoveryClient

/-- The server knows nobody, and the clients have just started. -/
structure DiscoverySystem.Starts {ι : Type} (p : DiscoveryParties ι) (initial : ι → List PeerInfo)
    (s : DiscoverySystem ι) : Prop where
  peerInfoList : s.peerInfoList = []
  serverBlocked : s.serverBlocked = false
  served : s.served = []
  clients : ∀ i, ∃ test, discoverPeersStart (p.args i) test (initial i) = some (s.clients i)

inductive DiscoveryEvent (ι : Type) where
  /-- A client connects and sends its request. What the attempt says of its
      arrivals is not used. -/
  | connect (i : ι) (attempt : DiscoveryAttempt)
  /-- The server handles the connection of a client. -/
  | serve (i : ι) (request : PeerRequest)
  /-- The server handles a connection from elsewhere. -/
  | serveOther (request : PeerRequest)
  /-- A client receives what there is, and goes on. -/
  | finish (i : ι) (arrivals : List Arrival) (test : LoopTest)

section Step

variable {ι : Type} (p : DiscoveryParties ι)

/-- What a client sends in an attempt. -/
def sentToServer (i : ι) (attempt : DiscoveryAttempt) : List UInt8 :=
  (requestRegistration (p.clientOrder i) (p.args i) attempt).2.1

/-- The server handles a request, and `clients` have what it sent. -/
def serveRequest (s : DiscoverySystem ι) (request : PeerRequest)
    (clients : List UInt8 → ι → DiscoveryClient) : Option (DiscoverySystem ι) :=
  if s.serverBlocked then none
  else
    (handleOnePeerDiscoveryRequest p.serverOrder p.bootstrap s.peerInfoList request).map
      fun handled =>
        { peerInfoList := handled.peerInfoList
          serverBlocked := match handled.ending with
            | .error .blocked => true
            | _ => false
          served := s.served ++ [request]
          clients := clients handled.sent }

def discoveryStep [DecidableEq ι] (s : DiscoverySystem ι) :
    DiscoveryEvent ι → Option (DiscoverySystem ι)
  | .connect i attempt =>
    match s.clients i with
    | .looping client =>
      some { s with clients := Function.update s.clients i (.discovering client attempt none) }
    | _ => none
  | .serve i request =>
    match s.clients i with
    | .discovering client attempt none =>
      -- The connection may break off, but it does not make anything up.
      if content request.arrivals <+: sentToServer p i attempt then
        serveRequest p s request fun sent =>
          Function.update s.clients i (.discovering client attempt (some sent))
      else none
    | _ => none
  | .serveOther request => serveRequest p s request fun _ => s.clients
  | .finish i arrivals test =>
    match s.clients i with
    | .discovering client attempt reply =>
      -- Without a reply nothing arrives.
      if content arrivals <+: reply.getD [] then
        (discoverPeersRound (p.clientOrder i) (p.args i) test
          { attempt with arrivals := arrivals } client).map fun client =>
            { s with clients := Function.update s.clients i client }
      else none
    | _ => none

end Step

end LeoCoin
