import Mathlib.Data.List.Sort
import FirebaseLogin.TransitionSystem

/-!
# The Persistent Connection

`FPersistentConnection.m`, with what it uses of `FConnection.m` and `FIRRetryHelper.m`: the
connection of the database client to the server, which outlives the network connections below
it. The writes, reads and listens of the client are kept until the server has answered them; a
request goes out under a number, and its answer calls the block that was kept under that number.
When a connection is lost the blocks are dropped, and at the next one the listens are sent again
and the writes in the order of their issue.

All of it runs on one dispatch queue, so that the client is a state machine whose events are the
calls of the client, the timers and what comes from the network. An assertion of the source that
fails, an exception that it throws, and a request on a connection that is not open, is `none`. An
event that finds nothing to do leaves the state as it is. The blocks that are called are recorded
in `called` with their status; what they do is not modelled here. The delays of the retries and
the gathering of statistics are left out.
-/

namespace FirebaseLogin

/-- `ConnectionState`. -/
inductive ConnectionState where
  | disconnected
  | gettingToken
  | connecting
  | authenticating
  | connected
deriving DecidableEq, Repr

/-- The states of an `FConnection` that is not closed. -/
inductive Realtime where
  | connecting
  | connected
deriving DecidableEq, Repr

/-- The reasons for which the connection is interrupted. -/
inductive InterruptReason where
  | waitingForOpen
  | repoInterrupt
  | serverKill
deriving DecidableEq, Repr

/-- The status of an answer without an error. -/
def kFWPResponseForActionStatusOk : String := "ok"

/-- The status of a read that timed out. -/
def kFWPResponseForActionStatusFailed : String := "failed"

/-- The status of a write that was purged. -/
def kFErrorWriteCanceled : String := "write_canceled"

/-- The status of a transaction that was sent on a connection that is lost. -/
def kFTransactionDisconnect : String := "disconnect"

/-- A write; one with a hash is a transaction. -/
structure FOutstandingPut (ρ : Type) where
  request : ρ
  hash : Option String
  sent : Bool
deriving DecidableEq

/-- A read. -/
structure FOutstandingGet (ρ : Type) where
  request : ρ
  sent : Bool
deriving DecidableEq

/-- A request. The ones of a write, a read, a listen or an action at a disconnect carry the
number of the object that waits for the answer. -/
inductive Request (κ ρ : Type) where
  | stats
  | auth (restoreStateAfterComplete : Bool)
  | unauth
  | listen (query : κ) (id : Nat)
  | unlisten (query : κ)
  | put (index : Nat) (request : ρ)
  | get (index : Nat) (request : ρ)
  | onDisconnect (id : Nat) (request : ρ)
deriving DecidableEq

/-- A block waits for the answer. -/
def Request.hasCallback {κ ρ : Type} : Request κ ρ → Bool
  | unauth | unlisten _ => false
  | _ => true

/-- The request is a listen, whose answer is counted. -/
def Request.isListen {κ ρ : Type} : Request κ ρ → Bool
  | listen _ _ => true
  | _ => false

/-- What the connection asks of a query: whether its parameters are the default ones, and whether
it takes all the data at its path. -/
class FQuerySpec (κ : Type) where
  isDefault : κ → Bool
  loadsAllData : κ → Bool

/-- What `listen:` and `removeListen:` assert of a query: one that is complete is the default
one. -/
def FQuerySpec.isListenable {κ : Type} [FQuerySpec κ] (query : κ) : Bool :=
  FQuerySpec.isDefault query || !FQuerySpec.loadsAllData query

/-- A block of the client that was called. -/
inductive Callback (κ : Type) where
  | put (index : Nat)
  | get (index : Nat)
  | listen (query : κ) (id : Nat)
  | onDisconnect (id : Nat)
deriving DecidableEq

/-- The state. A query stands in `listens` with the number of its listen, `fetches` are the
attempts to fetch a token that are under way, `getTimers` the reads with a timeout, and `sent`
the requests on the network connection. -/
structure FPersistentConnection (κ ρ : Type) where
  connectionState : ConnectionState
  realtime : Option Realtime
  firstConnection : Bool
  authToken : Option String
  forceTokenRefreshes : Bool
  interruptReasons : List InterruptReason
  scheduledRetry : Option Bool
  currentFetchTokenAttempt : Nat
  fetches : List Nat
  listens : List (κ × Nat)
  listenCounter : Nat
  outstandingPuts : List (Nat × FOutstandingPut ρ)
  putCounter : Nat
  outstandingGets : List (Nat × FOutstandingGet ρ)
  getCounter : Nat
  getTimers : List Nat
  onDisconnectQueue : List (Nat × ρ)
  onDisconnectCounter : Nat
  requestNumber : Nat
  requestCBHash : List (Nat × Request κ ρ)
  unackedListensCount : Nat
  putsToAck : List (Nat × String)
  sent : List (Nat × Request κ ρ)
  called : List (Callback κ × String)

namespace FPersistentConnection

variable {κ ρ : Type} [DecidableEq κ] [FQuerySpec κ]

/-- `initWithRepoInfo:`, which waits for `open`. The counters start at `0`, those of the source at
`1`, which the results do not depend on; and the number of a request, a 32-bit integer in the
source, is not bounded here. -/
def initial : FPersistentConnection κ ρ where
  connectionState := .disconnected
  realtime := none
  firstConnection := true
  authToken := none
  forceTokenRefreshes := false
  interruptReasons := [.waitingForOpen]
  scheduledRetry := none
  currentFetchTokenAttempt := 0
  fetches := []
  listens := []
  listenCounter := 0
  outstandingPuts := []
  putCounter := 0
  outstandingGets := []
  getCounter := 0
  getTimers := []
  onDisconnectQueue := []
  onDisconnectCounter := 0
  requestNumber := 0
  requestCBHash := []
  unackedListensCount := 0
  putsToAck := []
  sent := []
  called := []

/-! ### The state of the connection -/

/-- `connected`: requests are sent. -/
def isConnected (s : FPersistentConnection κ ρ) : Bool :=
  s.connectionState = .authenticating ∨ s.connectionState = .connected

/-- `canSendWrites`. -/
def canSendWrites (s : FPersistentConnection κ ρ) : Bool := s.connectionState = .connected

/-- `canSendReads`. -/
def canSendReads (s : FPersistentConnection κ ρ) : Bool := s.connectionState = .connected

/-- `shouldReconnect`: nothing interrupts the connection. -/
def shouldReconnect (s : FPersistentConnection κ ρ) : Bool := s.interruptReasons.isEmpty

/-- `tryScheduleReconnect`. A retry that was scheduled before is canceled. -/
def tryScheduleReconnect (s : FPersistentConnection κ ρ) : Option (FPersistentConnection κ ρ) :=
  if s.shouldReconnect then
    if s.connectionState = .disconnected then
      some { s with
        forceTokenRefreshes := false
        scheduledRetry := some s.forceTokenRefreshes }
    else none
  else some s

/-- A transaction that was sent is not sent again. -/
def cancelSentTransactions (s : FPersistentConnection κ ρ) : FPersistentConnection κ ρ :=
  let isCancelled := fun p : Nat × FOutstandingPut ρ => p.2.hash.isSome && p.2.sent
  { s with
    outstandingPuts := s.outstandingPuts.filter fun p => !isCancelled p
    called := s.called ++ (s.outstandingPuts.filter isCancelled).map fun p =>
      (.put p.1, kFTransactionDisconnect) }

/-- `onDisconnect:withReason:`. -/
def onDisconnect (s : FPersistentConnection κ ρ) : Option (FPersistentConnection κ ρ) :=
  let s := { s with connectionState := .disconnected, realtime := none, sent := [] }
  let s := s.cancelSentTransactions
  let s := { s with requestCBHash := [], unackedListensCount := 0 }
  if s.shouldReconnect then s.tryScheduleReconnect else some s

/-- `close` of the network connection, which calls `onDisconnect:withReason:` at once. -/
def closeRealtime (s : FPersistentConnection κ ρ) : Option (FPersistentConnection κ ρ) :=
  if s.realtime.isSome then s.onDisconnect else some s

/-- `interruptForReason:`, which closes the network connection or gives up the attempt at one. -/
def interruptForReason (reason : InterruptReason) (s : FPersistentConnection κ ρ) :
    Option (FPersistentConnection κ ρ) :=
  let s := { s with interruptReasons := s.interruptReasons.insert reason }
  if s.realtime.isSome then s.closeRealtime
  else some { s with scheduledRetry := none, connectionState := .disconnected }

/-- `resumeForReason:`. -/
def resumeForReason (reason : InterruptReason) (s : FPersistentConnection κ ρ) :
    Option (FPersistentConnection κ ρ) :=
  let s := { s with interruptReasons := s.interruptReasons.filter fun r => r ≠ reason }
  if s.shouldReconnect && s.connectionState = .disconnected then s.tryScheduleReconnect
  else some s

/-- The block of a retry. -/
def retryFires (s : FPersistentConnection κ ρ) : Option (FPersistentConnection κ ρ) :=
  match s.scheduledRetry with
  | none => some s
  | some _ =>
      let s := { s with scheduledRetry := none }
      if s.connectionState = .disconnected then
        some { s with
          connectionState := .gettingToken
          currentFetchTokenAttempt := s.currentFetchTokenAttempt + 1
          fetches := (s.currentFetchTokenAttempt + 1) :: s.fetches }
      else none

/-- `openNetworkConnectionWithContext:`. -/
def openNetworkConnectionWithContext (authToken : Option String)
    (s : FPersistentConnection κ ρ) : Option (FPersistentConnection κ ρ) :=
  if s.connectionState = .gettingToken then
    some { s with
      authToken := authToken, connectionState := .connecting, realtime := some .connecting }
  else none

/-- The callback of `fetchContextForcingRefresh:`; without a context there was an error. -/
def contextFetched (attempt : Nat) (context : Option (Option String))
    (s : FPersistentConnection κ ρ) : Option (FPersistentConnection κ ρ) :=
  if attempt ∈ s.fetches then
    let s := { s with fetches := s.fetches.erase attempt }
    if attempt = s.currentFetchTokenAttempt then
      match context with
      | none => { s with connectionState := .disconnected }.tryScheduleReconnect
      | some authToken =>
          if s.connectionState = .gettingToken then s.openNetworkConnectionWithContext authToken
          else if s.connectionState = .disconnected then some s
          else none
    else some s
  else some s

/-- `enteringForeground`, and the callback of the network's reachability. -/
def enteringForeground (s : FPersistentConnection κ ρ) : Option (FPersistentConnection κ ρ) :=
  if s.connectionState = .disconnected then s.tryScheduleReconnect else some s

/-! ### Requests -/

/-- `sendAction:body:sensitive:callback:` with `sendRequest:` of the network connection, which has
to be open. -/
def sendAction (request : Request κ ρ) (s : FPersistentConnection κ ρ) :
    Option (FPersistentConnection κ ρ) :=
  if s.realtime = some .connected then
    some { s with
      requestNumber := s.requestNumber + 1
      sent := s.sent ++ [(s.requestNumber, request)]
      requestCBHash := s.requestCBHash ++
        if request.hasCallback then [(s.requestNumber, request)] else [] }
  else none

/-- `sendListen:`. -/
def sendListen (listen : κ × Nat) (s : FPersistentConnection κ ρ) :
    Option (FPersistentConnection κ ρ) :=
  (s.sendAction (.listen listen.1 listen.2)).map fun s =>
    { s with unackedListensCount := s.unackedListensCount + 1 }

/-- The writes with the one of an index marked as sent. -/
def putSent (index : Nat) (puts : List (Nat × FOutstandingPut ρ)) :
    List (Nat × FOutstandingPut ρ) :=
  puts.map fun p => if p.1 = index then (p.1, { p.2 with sent := true }) else p

/-- The reads with the one of an index marked as sent. -/
def getSent (index : Nat) (gets : List (Nat × FOutstandingGet ρ)) :
    List (Nat × FOutstandingGet ρ) :=
  gets.map fun p => if p.1 = index then (p.1, { p.2 with sent := true }) else p

/-- `sendPut:`. -/
def sendPut (index : Nat) (s : FPersistentConnection κ ρ) :
    Option (FPersistentConnection κ ρ) :=
  if s.canSendWrites then
    match s.outstandingPuts.lookup index with
    | none => none
    | some put =>
        { s with outstandingPuts := putSent index s.outstandingPuts }.sendAction
          (.put index put.request)
  else none

/-- `sendGet:`. A read that was sent on any connection is not sent again. -/
def sendGet (index : Nat) (s : FPersistentConnection κ ρ) :
    Option (FPersistentConnection κ ρ) :=
  if s.canSendReads then
    match s.outstandingGets.lookup index with
    | none => none
    | some get =>
        if get.sent then some s
        else
          { s with outstandingGets := getSent index s.outstandingGets }.sendAction
            (.get index get.request)
  else none

/-- The restoring of the writes, in the order of their indices. -/
def restorePuts (s : FPersistentConnection κ ρ) : Option (FPersistentConnection κ ρ) :=
  let putKeys := (s.outstandingPuts.map Prod.fst).insertionSort (· ≤ ·)
  putKeys.foldlM (fun s index =>
    if (s.outstandingPuts.lookup index).isSome then s.sendPut index else some s) s

/-- The restoring of the reads, in the order of their indices. -/
def restoreGets (s : FPersistentConnection κ ρ) : Option (FPersistentConnection κ ρ) :=
  let getKeys := (s.outstandingGets.map Prod.fst).insertionSort (· ≤ ·)
  getKeys.foldlM (fun s index =>
    if (s.outstandingGets.lookup index).isSome then s.sendGet index else some s) s

/-- `restoreState`: the listens, the writes, the reads, and the queued actions at a disconnect. -/
def restoreState (s : FPersistentConnection κ ρ) : Option (FPersistentConnection κ ρ) :=
  if s.connectionState = .connected then do
    let s ← s.listens.foldlM (fun s listen => s.sendListen listen) s
    let s ← s.restorePuts
    let s ← s.restoreGets
    let s ← s.onDisconnectQueue.foldlM (fun s o => s.sendAction (.onDisconnect o.1 o.2)) s
    some { s with onDisconnectQueue := [] }
  else none

/-- `sendAuthAndRestoreStateAfterComplete:`, with a token while connected. -/
def sendAuthAndRestoreStateAfterComplete (restoreStateAfterComplete : Bool)
    (s : FPersistentConnection κ ρ) : Option (FPersistentConnection κ ρ) :=
  if s.isConnected && s.authToken.isSome then s.sendAction (.auth restoreStateAfterComplete)
  else none

/-- `restoreAuth`: without a token the state is restored at once. -/
def restoreAuth (s : FPersistentConnection κ ρ) : Option (FPersistentConnection κ ρ) :=
  if s.connectionState = .connecting then
    if s.authToken = none then { s with connectionState := .connected }.restoreState
    else
      { s with connectionState := .authenticating }.sendAuthAndRestoreStateAfterComplete true
  else none

/-- `sendConnectStats`. -/
def sendConnectStats (s : FPersistentConnection κ ρ) : Option (FPersistentConnection κ ρ) :=
  s.sendAction .stats

/-- `onReady:atTime:sessionID:`, once the network connection has shaken hands. -/
def onReady (s : FPersistentConnection κ ρ) : Option (FPersistentConnection κ ρ) :=
  if s.realtime = some .connecting then
    let s := { s with realtime := some .connected }
    (if s.firstConnection then s.sendConnectStats else some s).bind fun s =>
      s.restoreAuth.map fun s => { s with firstConnection := false }
  else some s

/-! ### Calls of the client -/

/-- `listen:tagId:hash:onComplete:`, which is not to be called twice for a query, nor for a
complete query that is not the default one. -/
def listen (query : κ) (s : FPersistentConnection κ ρ) : Option (FPersistentConnection κ ρ) :=
  if (s.listens.lookup query).isSome then none
  else if !FQuerySpec.isListenable query then none
  else
    let outstanding := (query, s.listenCounter)
    let s := { s with
      listens := s.listens ++ [outstanding], listenCounter := s.listenCounter + 1 }
    if s.isConnected then s.sendListen outstanding else some s

/-- `removeListen:`, with the assertion of `listen:` on the query. -/
def removeListen (query : κ) (s : FPersistentConnection κ ρ) :
    Option (FPersistentConnection κ ρ) :=
  if FQuerySpec.isListenable query then
    some { s with listens := s.listens.filter fun l => l.1 ≠ query }
  else none

/-- `unlisten:tagId:`, which tells the server when there was a listen. -/
def unlisten (query : κ) (s : FPersistentConnection κ ρ) : Option (FPersistentConnection κ ρ) :=
  (s.removeListen query).bind fun t =>
    if (s.listens.lookup query).isSome && t.isConnected then t.sendAction (.unlisten query)
    else some t

/-- `putInternal:forAction:forPath:withHash:withCallback:`. -/
def putInternal (request : ρ) (hash : Option String) (s : FPersistentConnection κ ρ) :
    Option (FPersistentConnection κ ρ) :=
  let index := s.putCounter
  let put : FOutstandingPut ρ := { request, hash, sent := false }
  let s := { s with
    putCounter := s.putCounter + 1, outstandingPuts := s.outstandingPuts ++ [(index, put)] }
  if s.canSendWrites then s.sendPut index else some s

/-- `getDataAtPath:withParams:withCallback:`; a read that has to wait for a connection has a
timeout. -/
def getDataAtPath (request : ρ) (s : FPersistentConnection κ ρ) :
    Option (FPersistentConnection κ ρ) :=
  let index := s.getCounter
  let get : FOutstandingGet ρ := { request, sent := false }
  let s := { s with
    getCounter := s.getCounter + 1, outstandingGets := s.outstandingGets ++ [(index, get)] }
  if !s.isConnected then some { s with getTimers := index :: s.getTimers }
  else if s.canSendReads then s.sendGet index
  else some s

/-- The block of a read's timeout. -/
def getTimesOut (index : Nat) (s : FPersistentConnection κ ρ) : FPersistentConnection κ ρ :=
  if index ∈ s.getTimers then
    let s := { s with getTimers := s.getTimers.erase index }
    match s.outstandingGets.lookup index with
    | none => s
    | some get =>
        if get.sent then s
        else { s with
          called := s.called ++ [(.get index, kFWPResponseForActionStatusFailed)]
          outstandingGets := s.outstandingGets.filter fun p => p.1 ≠ index }
  else s

/-- The actions at a disconnect, which differ in what they send. -/
def onDisconnectAction (request : ρ) (s : FPersistentConnection κ ρ) :
    Option (FPersistentConnection κ ρ) :=
  let id := s.onDisconnectCounter
  let s := { s with onDisconnectCounter := s.onDisconnectCounter + 1 }
  if s.canSendWrites then s.sendAction (.onDisconnect id request)
  else some { s with onDisconnectQueue := s.onDisconnectQueue ++ [(id, request)] }

/-- `refreshAuthToken:`. -/
def refreshAuthToken (token : Option String) (s : FPersistentConnection κ ρ) :
    Option (FPersistentConnection κ ρ) :=
  let s := { s with authToken := token }
  if s.isConnected then
    if token.isSome then s.sendAuthAndRestoreStateAfterComplete false else s.sendAction .unauth
  else some s

/-- `ackPuts`: the answers that were held back are passed on. -/
def ackPuts (s : FPersistentConnection κ ρ) : FPersistentConnection κ ρ :=
  { s with
    called := s.called ++ s.putsToAck.map fun p => (.put p.1, p.2)
    putsToAck := [] }

/-- `purgeOutstandingWrites`. -/
def purgeOutstandingWrites (s : FPersistentConnection κ ρ) : FPersistentConnection κ ρ :=
  let s := s.ackPuts
  let keys := (s.outstandingPuts.map Prod.fst).insertionSort (· ≤ ·)
  { s with
    called := s.called ++ (keys.map fun key => (.put key, kFErrorWriteCanceled)) ++
      s.onDisconnectQueue.map fun o => (.onDisconnect o.1, kFErrorWriteCanceled)
    outstandingPuts := []
    onDisconnectQueue := [] }

/-! ### Messages of the server -/

/-- What the block of a listen does unless the listen was removed in the meantime. -/
def listenAnswered (status : String) (query : κ) (id : Nat) (s : FPersistentConnection κ ρ) :
    Option (FPersistentConnection κ ρ) :=
  if s.listens.lookup query = some id then
    (if status ≠ kFWPResponseForActionStatusOk then s.removeListen query else some s).map
      fun s => { s with called := s.called ++ [(.listen query id, status)] }
  else some s

/-- The block that waits for the answer of a request. -/
def onResponse (status : String) (s : FPersistentConnection κ ρ) :
    Request κ ρ → Option (FPersistentConnection κ ρ)
  | .auth restoreStateAfterComplete =>
      let s := { s with connectionState := .connected }
      if status = kFWPResponseForActionStatusOk then
        if restoreStateAfterComplete then s.restoreState else some s
      else { s with authToken := none, forceTokenRefreshes := true }.closeRealtime
  | .put index _ =>
      if (s.outstandingPuts.lookup index).isSome then
        let s := { s with outstandingPuts := s.outstandingPuts.filter fun p => p.1 ≠ index }
        if s.unackedListensCount = 0 then
          some { s with called := s.called ++ [(.put index, status)] }
        else some { s with putsToAck := s.putsToAck ++ [(index, status)] }
      else some s
  | .get index _ =>
      if (s.outstandingGets.lookup index).isSome then
        some { s with
          outstandingGets := s.outstandingGets.filter fun p => p.1 ≠ index
          called := s.called ++ [(.get index, status)] }
      else some s
  | .listen query id =>
      (s.listenAnswered status query id).bind fun s =>
        -- the count is unsigned, and must not be decremented at zero
        if s.unackedListensCount = 0 then none
        else
          let s := { s with unackedListensCount := s.unackedListensCount - 1 }
          some (if s.unackedListensCount = 0 then s.ackPuts else s)
  | .onDisconnect id _ => some { s with called := s.called ++ [(.onDisconnect id, status)] }
  | .stats | .unauth | .unlisten _ => some s

/-- `onDataMessage:withMessage:`, on an answer. -/
def onDataMessage (rn : Nat) (status : String) (s : FPersistentConnection κ ρ) :
    Option (FPersistentConnection κ ρ) :=
  match s.requestCBHash.lookup rn with
  | none => some s
  | some request =>
      { s with requestCBHash := s.requestCBHash.filter fun p => p.1 ≠ rn }.onResponse status request

/-- `onDataMessage:withMessage:`, on a message with an error, which it throws as an exception. -/
def onServerError (s : FPersistentConnection κ ρ) : Option (FPersistentConnection κ ρ) :=
  if s.realtime = some .connected then none else some s

/-- `onAuthRevokedWithStatus:andReason:`. -/
def onAuthRevoked (s : FPersistentConnection κ ρ) : Option (FPersistentConnection κ ρ) :=
  { s with authToken := none, forceTokenRefreshes := true }.closeRealtime

/-- `onListenRevoked:`, on the queries at the path. -/
def onListenRevoked (isAtPath : κ → Bool) (s : FPersistentConnection κ ρ) :
    FPersistentConnection κ ρ :=
  { s with
    listens := s.listens.filter fun l => !isAtPath l.1
    called := s.called ++ (s.listens.filter fun l => isAtPath l.1).map fun l =>
      (.listen l.1 l.2, "permission_denied") }

/-! ### Events -/

/-- The calls of the client, the timers, and what comes from the network. -/
inductive Event (κ ρ : Type) where
  | listen (query : κ)
  | unlisten (query : κ)
  | putData (request : ρ) (hash : Option String)
  | getData (request : ρ)
  | getTimesOut (index : Nat)
  | onDisconnectAction (request : ρ)
  | refreshAuthToken (token : Option String)
  | purgeOutstandingWrites
  | interrupt (reason : InterruptReason)
  | resume (reason : InterruptReason)
  | enteringForeground
  | retryFires
  | contextFetched (attempt : Nat) (context : Option (Option String))
  | ready
  | response (rn : Nat) (status : String)
  | serverError
  | authRevoked
  | listenRevoked (isAtPath : κ → Bool)
  | connectionLost
  | killed

/-- One event. -/
def handle (s : FPersistentConnection κ ρ) : Event κ ρ → Option (FPersistentConnection κ ρ)
  | .listen query => s.listen query
  | .unlisten query => s.unlisten query
  | .putData request hash => s.putInternal request hash
  | .getData request => s.getDataAtPath request
  | .getTimesOut index => some (s.getTimesOut index)
  | .onDisconnectAction request => s.onDisconnectAction request
  | .refreshAuthToken token => s.refreshAuthToken token
  | .purgeOutstandingWrites => some s.purgeOutstandingWrites
  | .interrupt reason => s.interruptForReason reason
  | .resume reason => s.resumeForReason reason
  | .enteringForeground => s.enteringForeground
  | .retryFires => s.retryFires
  | .contextFetched attempt context => s.contextFetched attempt context
  | .ready => s.onReady
  | .response rn status => s.onDataMessage rn status
  | .serverError => s.onServerError
  | .authRevoked => if s.realtime = some .connected then s.onAuthRevoked else some s
  | .listenRevoked isAtPath =>
      some (if s.realtime = some .connected then s.onListenRevoked isAtPath else s)
  | .connectionLost => s.closeRealtime
  | .killed => if s.realtime.isSome then s.interruptForReason .serverKill else some s

/-- The connection as a transition system. -/
def system (κ ρ : Type) [DecidableEq κ] [FQuerySpec κ] :
    TransitionSystem (FPersistentConnection κ ρ) (Event κ ρ) where
  Init s := s = initial
  step := handle

end FPersistentConnection

end FirebaseLogin
