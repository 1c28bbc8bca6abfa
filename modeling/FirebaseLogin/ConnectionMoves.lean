import FirebaseLogin.ConnectionInvariant

/-!
# The Moves of the Connection

What an event can do to the requests of the persistent connection, said once. `Core` keeps of the
state what the requests depend on, and `Move` lists the changes of it. The results about whole
runs are then proved from the list and not from the functions of the source.

## Main results

* `handle_move`: every event is a move.
-/

namespace FirebaseLogin

/-- How far a connection is open. -/
inductive Phase where
  | closed
  | authenticating
  | connected
deriving DecidableEq

/-- How far the connection is open in a state. -/
def ConnectionState.phase : ConnectionState → Phase
  | .disconnected | .gettingToken | .connecting => .closed
  | .authenticating => .authenticating
  | .connected => .connected

/-- Neither a write nor a read, nor a request whose answer changes more than the state of the
connection. -/
def Request.isPlain {κ ρ : Type} : Request κ ρ → Bool
  | stats | unauth | unlisten _ | onDisconnect _ _ => true
  | auth restoreStateAfterComplete => !restoreStateAfterComplete
  | listen _ _ | put _ _ | get _ _ => false

namespace FPersistentConnection

/-- What the requests depend on, and the writes that were called back. The blocks are those of
`requestCBHash`. -/
structure Core (κ ρ : Type) where
  phase : Phase
  listens : List (κ × Nat)
  puts : List (Nat × FOutstandingPut ρ)
  gets : List (Nat × FOutstandingGet ρ)
  putCounter : Nat
  putsToAck : List (Nat × String)
  acked : List (Nat × String)
  requestNumber : Nat
  sent : List (Nat × Request κ ρ)
  blocks : List (Nat × Request κ ρ)

/-- What an event is to the requests. -/
inductive Kind (ρ : Type) where
  | own
  | listen
  | put (request : ρ) (hash : Option String)
  | purge
  | answer (rn : Nat) (status : String)
deriving DecidableEq

variable {κ ρ : Type}

/-- What each event is to the requests. -/
def Event.kind : Event κ ρ → Kind ρ
  | .listen _ => .listen
  | .putData request hash => .put request hash
  | .purgeOutstandingWrites => .purge
  | .response rn status => .answer rn status
  | _ => .own

/-- The write whose block is called, with the status. -/
def putCall? (c : Callback κ × String) : Option (Nat × String) :=
  c.1.putIndex.map fun index => (index, c.2)

/-- What the requests depend on in a state. -/
def core (s : FPersistentConnection κ ρ) : Core κ ρ where
  phase := s.connectionState.phase
  listens := s.listens
  puts := s.outstandingPuts
  gets := s.outstandingGets
  putCounter := s.putCounter
  putsToAck := s.putsToAck
  acked := s.called.filterMap putCall?
  requestNumber := s.requestNumber
  sent := s.sent
  blocks := s.requestCBHash

namespace Core

/-- The requests go out under the next numbers, and their blocks are kept. -/
def sendAll (rs : List (Request κ ρ)) (c : Core κ ρ) : Core κ ρ :=
  { c with
    requestNumber := c.requestNumber + rs.length
    sent := c.sent ++ numbered c.requestNumber rs
    blocks := c.blocks ++ (numbered c.requestNumber rs).filter fun p => p.2.hasCallback }

/-- Requests that go out in two parts. -/
theorem sendAll_append (rs rs' : List (Request κ ρ)) (c : Core κ ρ) :
    sendAll (rs ++ rs') c = sendAll rs' (sendAll rs c) := by
  simp [sendAll, numbered_append, Nat.add_assoc]

/-- A block that is kept after requests went out was kept before, or is of one of them. -/
theorem mem_blocks_sendAll {rs : List (Request κ ρ)} {c : Core κ ρ} {p : Nat × Request κ ρ}
    (h : p ∈ (sendAll rs c).blocks) : p ∈ c.blocks ∨ p.2 ∈ rs := by
  rcases List.mem_append.mp h with h | h
  · exact .inl h
  · exact .inr (mem_numbered (List.mem_of_mem_filter h)).2.2

/-- The listens, the writes and the reads, and other requests after them. -/
def restoring (rs : List (Request κ ρ)) (c : Core κ ρ) : List (Request κ ρ) :=
  (c.listens.map fun l => .listen l.1 l.2) ++ putRequests c.puts ++ getRequests c.gets ++ rs

/-- The connection is restored. -/
def restored (rs : List (Request κ ρ)) (c : Core κ ρ) : Core κ ρ :=
  sendAll (c.restoring rs)
    { c with
      phase := .connected
      puts := allPutsSent c.puts
      gets := allGetsSent c.gets }

/-- One more write. -/
def issued (i : Nat) (put : FOutstandingPut ρ) (c : Core κ ρ) : Core κ ρ :=
  { c with puts := c.puts ++ [(i, put)], putCounter := c.putCounter + 1 }

/-- One more read. -/
def asked (i : Nat) (get : FOutstandingGet ρ) (c : Core κ ρ) : Core κ ρ :=
  { c with gets := c.gets ++ [(i, get)] }

/-- The connection is lost. -/
def lost (c : Core κ ρ) : Core κ ρ :=
  { c with
    phase := .closed
    puts := c.puts.filter fun p => !(p.2.hash.isSome && p.2.sent)
    acked := c.acked ++ (c.puts.filter fun p => p.2.hash.isSome && p.2.sent).map fun p =>
      (p.1, kFTransactionDisconnect)
    sent := []
    blocks := [] }

/-- The block of a request is taken out. -/
def answered (rn : Nat) (c : Core κ ρ) : Core κ ρ :=
  { c with blocks := c.blocks.filter fun p => p.1 ≠ rn }

end Core

/-- The changes that an event can make. -/
inductive Move (c : Core κ ρ) : Kind ρ → Core κ ρ → Prop
  | keep (ls : List (κ × Nat)) (hls : ls ⊆ c.listens) :
      Move c .own { c with listens := ls }
  | send (ls : List (κ × Nat)) (rs : List (Request κ ρ))
      (hphase : c.phase ≠ .closed) (hls : ls ⊆ c.listens) (hrs : ∀ r ∈ rs, r.isPlain = true) :
      Move c .own ({ c with listens := ls }.sendAll rs)
  | listenLater (l : κ × Nat) :
      Move c .listen { c with listens := c.listens ++ [l] }
  | listenNow (l : κ × Nat) (hphase : c.phase ≠ .closed) :
      Move c .listen ({ c with listens := c.listens ++ [l] }.sendAll [.listen l.1 l.2])
  | putLater (request : ρ) (hash : Option String) (hphase : c.phase ≠ .connected) :
      Move c (.put request hash) (c.issued c.putCounter ⟨request, hash, false⟩)
  | putNow (request : ρ) (hash : Option String) (hphase : c.phase = .connected) :
      Move c (.put request hash)
        ((c.issued c.putCounter ⟨request, hash, true⟩).sendAll [.put c.putCounter request])
  | getLater (i : Nat) (request : ρ) (hnew : i ∉ c.gets.map Prod.fst) :
      Move c .own (c.asked i ⟨request, false⟩)
  | getNow (i : Nat) (request : ρ) (hphase : c.phase ≠ .closed)
      (hnew : i ∉ c.gets.map Prod.fst) :
      Move c .own ((c.asked i ⟨request, true⟩).sendAll [.get i request])
  | getTimesOut (i : Nat) (get : FOutstandingGet ρ)
      (hget : c.gets.lookup i = some get) (hsent : get.sent = false) :
      Move c .own { c with gets := c.gets.filter fun p => p.1 ≠ i }
  | purge (acked : List (Nat × String)) :
      Move c .purge { c with puts := [], putsToAck := [], acked := acked }
  | lose : Move c .own c.lost
  | authenticate (rs : List (Request κ ρ)) (hphase : c.phase = .closed)
      (hrs : ∀ r ∈ rs, r = .stats) :
      Move c .own ({ c with phase := .authenticating }.sendAll (rs ++ [Request.auth true]))
  | ready (rs rs' : List (Request κ ρ)) (hphase : c.phase = .closed)
      (hrs : ∀ r ∈ rs, r = .stats) (hrs' : ∀ r ∈ rs', r.isPlain = true) :
      Move c .own (({ c with phase := .connected }.sendAll rs).restored rs')
  | ignored (rn : Nat) {status : String} (hrn : c.blocks.lookup rn = none) :
      Move c (.answer rn status) c
  | plainAnswered (rn : Nat) {status : String} (request : Request κ ρ)
      (hrn : c.blocks.lookup rn = some request) (hplain : request.isPlain = true)
      (hauth : request ≠ .auth false) : Move c (.answer rn status) (c.answered rn)
  | authAnswered (rn : Nat) {status : String} (hrn : c.blocks.lookup rn = some (.auth false)) :
      Move c (.answer rn status) { c.answered rn with phase := .connected }
  | authRestores (rn : Nat) {status : String} (rs : List (Request κ ρ))
      (hrn : c.blocks.lookup rn = some (.auth true)) (hrs : ∀ r ∈ rs, r.isPlain = true) :
      Move c (.answer rn status) ((c.answered rn).restored rs)
  | authRejected (rn : Nat) {status : String} (restoreStateAfterComplete : Bool)
      (hrn : c.blocks.lookup rn = some (.auth restoreStateAfterComplete)) :
      Move c (.answer rn status) c.lost
  | putGone (rn i : Nat) (request : ρ) {status : String}
      (hrn : c.blocks.lookup rn = some (.put i request))
      (hgone : i ∉ c.puts.map Prod.fst) : Move c (.answer rn status) (c.answered rn)
  | putAnswered (rn i : Nat) (request : ρ) (status : String)
      (hrn : c.blocks.lookup rn = some (.put i request))
      (hlisten : ∀ p ∈ c.blocks, p.2.isListen = false) :
      Move c (.answer rn status) { c.answered rn with
        puts := c.puts.filter fun p => p.1 ≠ i
        acked := c.acked ++ [(i, status)] }
  | putHeld (rn i : Nat) (request : ρ) (status : String)
      (hrn : c.blocks.lookup rn = some (.put i request))
      (hlisten : ∃ p ∈ c.blocks, p.2.isListen = true) :
      Move c (.answer rn status) { c.answered rn with
        puts := c.puts.filter fun p => p.1 ≠ i
        putsToAck := c.putsToAck ++ [(i, status)] }
  | getAnswered (rn i : Nat) (request : ρ) {status : String}
      (hrn : c.blocks.lookup rn = some (.get i request)) :
      Move c (.answer rn status) { c.answered rn with gets := c.gets.filter fun p => p.1 ≠ i }
  | listenAnswered (rn : Nat) {status : String} (query : κ) (id : Nat) (ls : List (κ × Nat))
      (hrn : c.blocks.lookup rn = some (.listen query id)) (hls : ls ⊆ c.listens)
      (hlisten : ∃ p ∈ (c.answered rn).blocks, p.2.isListen = true) :
      Move c (.answer rn status) { c.answered rn with listens := ls }
  | listensAnswered (rn : Nat) {status : String} (query : κ) (id : Nat) (ls : List (κ × Nat))
      (hrn : c.blocks.lookup rn = some (.listen query id)) (hls : ls ⊆ c.listens) :
      Move c (.answer rn status) { c.answered rn with
        listens := ls
        putsToAck := []
        acked := c.acked ++ c.putsToAck }

/-! ### Every event is a move -/

section Moves

variable {s s' : FPersistentConnection κ ρ}

/-- What the requests depend on stays. -/
theorem Move.same {c c' : Core κ ρ} (h : c' = c) : Move c .own c' :=
  h ▸ Move.keep c.listens (List.Subset.refl _)

/-- A state without an open connection is in the closed phase. -/
theorem phase_of_linkOf {state : ConnectionState} (h : linkOf state ≠ some .connected) :
    state.phase = .closed := by
  cases state with
  | disconnected | gettingToken | connecting => rfl
  | authenticating | connected => exact absurd rfl h

/-- While connected the phase is not closed. -/
theorem phase_ne_closed (h : s.isConnected = true) : s.core.phase ≠ .closed := by
  rw [isConnected, decide_eq_true_eq] at h
  rcases h with h | h
  · simp [core, h, ConnectionState.phase]
  · simp [core, h, ConnectionState.phase]

/-- The phase is connected when writes can be sent. -/
theorem phase_eq_connected_iff : s.core.phase = .connected ↔ s.canSendWrites = true := by
  cases h : s.connectionState with
  | disconnected | gettingToken | connecting | authenticating | connected =>
      simp [core, h, canSendWrites, ConnectionState.phase]

/-- Requests, as the core sees them. -/
@[simp]
theorem core_sendAll (rs : List (Request κ ρ)) (s : FPersistentConnection κ ρ) :
    (sendAll rs s).core = s.core.sendAll rs := rfl

/-- A scheduled retry does not concern the requests. -/
@[simp]
theorem core_scheduled (s : FPersistentConnection κ ρ) : s.scheduled.core = s.core := by
  rw [scheduled]
  split
  · rfl
  · rfl

/-- The writes of blocks that are called. -/
theorem filterMap_putCall? {α : Type} (l : List α) (index : α → Nat) (status : α → String) :
    (l.map fun a => ((.put (index a), status a) : Callback κ × String)).filterMap putCall? =
      l.map fun a => (index a, status a) := by
  rw [List.filterMap_map, ← List.filterMap_eq_map]
  rfl

/-- The writes that were called back, by their indices. -/
theorem map_fst_acked (s : FPersistentConnection κ ρ) :
    s.core.acked.map Prod.fst = s.called.filterMap fun c => c.1.putIndex := by
  rw [core, List.map_filterMap]
  refine List.filterMap_congr fun c _ => ?_
  rw [putCall?, Option.map_map]
  exact Option.map_id'

/-- A move, with the writes that were called back in other words. -/
theorem Move.ackedEq {c c' : Core κ ρ} {k : Kind ρ} (h : Move c k c') {acked : List (Nat × String)}
    (hacked : acked = c'.acked) : Move c k { c' with acked := acked } := by
  subst hacked
  exact h

/-- The loss of a connection, as the core sees it. -/
theorem core_lost (s : FPersistentConnection κ ρ) : s.lost.core = s.core.lost := by
  rw [lost, core_scheduled, core, Core.lost, cancelSentTransactions]
  simp only [List.filterMap_append, filterMap_putCall?]
  rfl

/-- The restoring of a connection, as the core sees it. -/
theorem core_restored (hstate : s.connectionState = .connected) :
    s.restored.core =
      s.core.restored (s.onDisconnectQueue.map fun o => .onDisconnect o.1 o.2) := by
  simp [restored, restoreRequests, Core.restored, Core.restoring, Core.sendAll, core, sendAll,
    hstate, ConnectionState.phase]

/-- The queued actions at a disconnect are plain requests. -/
theorem isPlain_onDisconnects (os : List (Nat × ρ)) :
    ∀ r ∈ os.map fun o => (.onDisconnect o.1 o.2 : Request κ ρ), r.isPlain = true := by
  intro r hr
  obtain ⟨o, -, rfl⟩ := List.mem_map.mp hr
  rfl

/-- The scheduling of a retry does not concern the requests. -/
theorem tryScheduleReconnect_move (h : s.tryScheduleReconnect = some s') :
    s'.core = s.core := by
  rw [tryScheduleReconnect] at h
  split at h
  · split at h
    · obtain rfl := Option.some.inj h
      rfl
    · cases h
  · rw [Option.some.inj h]

/-- Closing the network connection loses it, or finds none. -/
theorem closeRealtime_move (h : s.closeRealtime = some s') : Move s.core .own s'.core := by
  rw [closeRealtime] at h
  split at h
  · rw [onDisconnect_eq] at h
    rw [← Option.some.inj h, core_lost]
    exact Move.lose
  · exact Move.same (congrArg core (Option.some.inj h).symm)

variable [FQuerySpec κ]

/-- An interruption loses the connection, or finds none. -/
theorem interruptForReason_move (hw : Wired s) {reason : InterruptReason}
    (h : s.interruptForReason reason = some s') : Move s.core .own s'.core := by
  rw [interruptForReason] at h
  dsimp only at h
  split at h
  · have hmove := closeRealtime_move h
    exact hmove
  · rename_i hnone
    have hclosed : s.connectionState.phase = .closed := by
      refine phase_of_linkOf fun hlink => hnone ?_
      rw [show s.realtime = some .connected from hw.link.trans hlink]
      rfl
    rw [← Option.some.inj h]
    exact Move.same (congrArg (fun p => { s.core with phase := p }) hclosed.symm)

omit [FQuerySpec κ] in
/-- Two states of the closed phase are the same to the requests. -/
theorem core_of_closed {state : ConnectionState} (h : state.phase = .closed)
    (hs : s.connectionState.phase = .closed) :
    { s with connectionState := state }.core = s.core :=
  congrArg (fun p => { s.core with phase := p }) (h.trans hs.symm)

/-- Without an open network connection the phase is closed. -/
theorem Wired.phase_of_realtime (hw : Wired s) (h : s.realtime ≠ some .connected) :
    s.connectionState.phase = .closed :=
  phase_of_linkOf fun hlink => h (hw.link.trans hlink)

omit [FQuerySpec κ] in
/-- A retry does not concern the requests. -/
theorem retryFires_move (h : s.retryFires = some s') : Move s.core .own s'.core := by
  rw [retryFires] at h
  split at h
  · exact Move.same (congrArg core (Option.some.inj h).symm)
  · dsimp only at h
    split at h
    · rename_i hstate
      rw [← Option.some.inj h]
      exact Move.same (core_of_closed (s := s) rfl (congrArg ConnectionState.phase hstate))
    · cases h

/-- A fetched token does not concern the requests. -/
theorem contextFetched_move (hw : Wired s) {attempt : Nat} {context : Option (Option String)}
    (h : s.contextFetched attempt context = some s') : Move s.core .own s'.core := by
  rw [contextFetched] at h
  split at h
  · rename_i hmem
    dsimp only at h
    split at h
    · rename_i hcurrent
      have hclosed : s.connectionState.phase = .closed := by
        rcases hw.fetching (hcurrent ▸ hmem) with hstate | hstate
        · rw [hstate, ConnectionState.phase]
        · rw [hstate, ConnectionState.phase]
      cases context with
      | none =>
          refine Move.same ((tryScheduleReconnect_move h).trans ?_)
          exact core_of_closed (s := s) rfl hclosed
      | some authToken =>
          dsimp only at h
          split at h
          · rename_i hstate
            rw [openNetworkConnectionWithContext, if_pos hstate] at h
            rw [← Option.some.inj h]
            exact Move.same (core_of_closed (s := s) rfl hclosed)
          · split at h
            · rw [← Option.some.inj h]
              exact Move.same rfl
            · cases h
    · rw [← Option.some.inj h]
      exact Move.same rfl
  · exact Move.same (congrArg core (Option.some.inj h).symm)

/-- A connection that has shaken hands authenticates, or is restored at once. -/
theorem onReady_move (hw : Wired s) (h : s.onReady = some s') : Move s.core .own s'.core := by
  by_cases hlink : s.realtime = some .connecting
  · have hclosed : s.core.phase = .closed :=
      hw.phase_of_realtime (by rw [hlink]; decide)
    have hstats : ∀ r ∈ (if s.firstConnection then [.stats] else [] : List (Request κ ρ)),
        r = .stats := by
      split
      · simp
      · simp
    rw [onReady_eq hw hlink] at h
    rw [← Option.some.inj h]
    split
    · rw [core_restored rfl]
      exact Move.ready _ _ hclosed hstats (isPlain_onDisconnects _)
    · have hsend := Move.authenticate (c := s.core) _ hclosed hstats
      rwa [Core.sendAll_append] at hsend
  · rw [onReady, if_neg hlink] at h
    exact Move.same (congrArg core (Option.some.inj h).symm)

/-! ### Calls of the client -/

/-- A write is sent at once or kept for later. -/
theorem putInternal_move (hw : Wired s) {request : ρ} {hash : Option String}
    (h : s.putInternal request hash = some s') : Move s.core (.put request hash) s'.core := by
  rw [putInternal_eq hw] at h
  rw [← Option.some.inj h]
  split
  · rename_i hcan
    exact Move.putNow request hash (phase_eq_connected_iff.mpr hcan)
  · rename_i hcan
    exact Move.putLater request hash (fun hphase => hcan (phase_eq_connected_iff.mp hphase))

/-- A read is sent at once or kept for later. -/
theorem getDataAtPath_move (hw : Wired s) {request : ρ}
    (h : s.getDataAtPath request = some s') : Move s.core .own s'.core := by
  have hnew := notMem_keys_of_lt hw.gets_lt
  rw [getDataAtPath_eq hw] at h
  rw [← Option.some.inj h]
  split
  · rename_i hcan
    exact Move.getNow s.getCounter request
      (phase_ne_closed (isConnected_of_canSendWrites hcan)) hnew
  · split
    · exact Move.getLater s.getCounter request hnew
    · exact Move.getLater s.getCounter request hnew

omit [FQuerySpec κ] in
/-- A timeout takes out a read that was not sent. -/
theorem getTimesOut_move (index : Nat) : Move s.core .own (s.getTimesOut index).core := by
  rw [getTimesOut]
  split
  · dsimp only
    split
    · exact Move.same rfl
    · rename_i get hget
      split
      · exact Move.same rfl
      · rename_i hsent
        have hmove := Move.getTimesOut (c := s.core) index get hget (Bool.not_eq_true _ ▸ hsent)
        exact hmove.ackedEq (by simp [core, putCall?, Callback.putIndex])
  · exact Move.same rfl

omit [FQuerySpec κ] in
/-- A request whose answer changes little. -/
theorem sendAction_move (hlink : s.realtime = some .connected) (hphase : s.core.phase ≠ .closed)
    {request : Request κ ρ} (hlisten : request.isListen = false)
    (hplain : request.isPlain = true) (h : s.sendAction request = some s') :
    Move s.core .own s'.core := by
  rw [sendAction_eq hlink hlisten] at h
  rw [← Option.some.inj h]
  exact Move.send s.listens [request] hphase (List.Subset.refl _) (by simpa using hplain)

/-- An action at a disconnect is sent at once or queued. -/
theorem onDisconnectAction_move (hw : Wired s) {request : ρ}
    (h : s.onDisconnectAction request = some s') : Move s.core .own s'.core := by
  rw [onDisconnectAction] at h
  dsimp only at h
  split at h
  · rename_i hcan
    have hconn := isConnected_of_canSendWrites hcan
    exact sendAction_move (s := { s with onDisconnectCounter := s.onDisconnectCounter + 1 })
      (hw.realtime_of_isConnected (s := s) hconn) (phase_ne_closed (s := s) hconn) rfl rfl h
  · rw [← Option.some.inj h]
    exact Move.same rfl

/-- A new token sends at most a plain request. -/
theorem refreshAuthToken_move (hw : Wired s) {token : Option String}
    (h : s.refreshAuthToken token = some s') : Move s.core .own s'.core := by
  rw [refreshAuthToken] at h
  split at h
  · rename_i hconn
    have hlink := hw.realtime_of_isConnected (s := s) hconn
    have hphase := phase_ne_closed (s := s) hconn
    split at h
    · rw [sendAuthAndRestoreStateAfterComplete] at h
      split at h
      · exact sendAction_move (s := { s with authToken := token }) hlink hphase rfl rfl h
      · cases h
    · exact sendAction_move (s := { s with authToken := token }) hlink hphase rfl rfl h
  · rw [← Option.some.inj h]
    exact Move.same rfl

/-- A key that is not there is not taken out. -/
theorem filter_ne_of_lookup {α : Type} {l : List (Nat × α)} {i : Nat}
    (h : ¬ (l.lookup i).isSome = true) : (l.filter fun p => p.1 ≠ i) = l := by
  rw [List.filter_eq_self]
  intro p hp
  have hne := List.lookup_eq_none_iff.mp (Option.not_isSome_iff_eq_none.mp h) p hp
  exact decide_eq_true fun heq => bne_iff_ne.mp hne heq.symm

section Listens

variable [DecidableEq κ]

/-- A listen is sent at once or kept for later. -/
theorem listen_move (hw : Wired s) {query : κ} (h : s.listen query = some s') :
    Move s.core .listen s'.core := by
  rw [listen] at h
  split at h
  · cases h
  · split at h
    · cases h
    · dsimp only at h
      split at h
      · rename_i hconn
        rw [sendListen_eq (by exact hw.realtime_of_isConnected (s := s) hconn)] at h
        rw [← Option.some.inj h]
        exact Move.listenNow (query, s.listenCounter) (phase_ne_closed (s := s) hconn)
      · rw [← Option.some.inj h]
        exact Move.listenLater (query, s.listenCounter)

/-- The end of a listen leaves fewer listens, and may tell the server. -/
theorem unlisten_move (hw : Wired s) {query : κ} (h : s.unlisten query = some s') :
    Move s.core .own s'.core := by
  have hls : (s.listens.filter fun l => l.1 ≠ query) ⊆ s.core.listens :=
    List.filter_subset_self _
  rw [unlisten, removeListen] at h
  split at h
  · rw [Option.bind_some] at h
    split at h
    · rename_i hconn
      rw [Bool.and_eq_true] at hconn
      rw [sendAction_eq (by exact hw.realtime_of_isConnected (s := s) hconn.2) rfl] at h
      rw [← Option.some.inj h]
      exact Move.send _ [.unlisten query] (phase_ne_closed (s := s) hconn.2) hls
        (by simp [Request.isPlain])
    · rw [← Option.some.inj h]
      exact Move.keep _ hls
  · cases h

/-! ### Answers of the server -/

/-- The answer of a listen, which may be the last one awaited. -/
theorem onListenResponse_move (hw : Wired s) {rn : Nat} {status : String} {query : κ} {id : Nat}
    (hrn : s.requestCBHash.lookup rn = some (.listen query id))
    (h : { s with requestCBHash := s.requestCBHash.filter fun p => p.1 ≠ rn }.onResponse status
      (.listen query id) = some s') : Move s.core (.answer rn status) s'.core := by
  obtain ⟨ls, cs, heq, hsub, hputs, -⟩ := listenAnswered_eq
    (s := { s with requestCBHash := s.requestCBHash.filter fun p => p.1 ≠ rn })
    hw.listenable status query id
  have hcs : (s.called ++ cs).filterMap putCall? = s.called.filterMap putCall? := by
    have hnone : cs.filterMap putCall? = [] := by
      rw [List.filterMap_eq_nil_iff] at hputs ⊢
      intro c hc
      rw [putCall?, hputs c hc]
      rfl
    rw [List.filterMap_append, hnone, List.append_nil]
  have hcount := countP_remove hw.numbers hrn
  rw [onResponse, heq, Option.bind_some] at h
  split at h
  · cases h
  · rw [← Option.some.inj h]
    split
    · have hmove : Move s.core (.answer rn status) _ :=
        .listensAnswered rn query id ls hrn hsub
      refine hmove.ackedEq ?_
      simp only [ackPuts, List.filterMap_append, hcs, filterMap_putCall?, List.map_id']
      rfl
    · rename_i hunacked
      have hlisten : ∃ p ∈ (s.core.answered rn).blocks, p.2.isListen = true := by
        have hpos : 0 < (s.core.answered rn).blocks.countP fun p => p.2.isListen := by
          rw [hw.count, hcount] at hunacked
          exact Nat.pos_of_ne_zero hunacked
        exact List.countP_pos_iff.mp hpos
      have hmove : Move s.core (.answer rn status) _ :=
        .listenAnswered rn query id ls hrn hsub hlisten
      exact hmove.ackedEq hcs

/-- The answer of a write is passed on, held back, or comes too late. -/
theorem onPutResponse_move (hw : Wired s) {rn : Nat} {status : String} {index : Nat} {request : ρ}
    (hrn : s.requestCBHash.lookup rn = some (.put index request))
    (h : { s with requestCBHash := s.requestCBHash.filter fun p => p.1 ≠ rn }.onResponse status
      (.put index request) = some s') : Move s.core (.answer rn status) s'.core := by
  rw [onResponse] at h
  split at h
  · dsimp only at h
    split at h
    · rename_i hcount
      have hlisten : ∀ p ∈ s.core.blocks, p.2.isListen = false := by
        rw [hw.count, List.countP_eq_zero] at hcount
        intro p hp
        exact Bool.not_eq_true _ ▸ hcount p hp
      have hmove := Move.putAnswered (c := s.core) rn index request status hrn hlisten
      rw [← Option.some.inj h]
      exact hmove.ackedEq (by simp [core, putCall?, Callback.putIndex])
    · rename_i hcount
      have hlisten : ∃ p ∈ s.core.blocks, p.2.isListen = true := by
        rw [hw.count] at hcount
        exact List.countP_pos_iff.mp (Nat.pos_of_ne_zero hcount)
      rw [← Option.some.inj h]
      exact Move.putHeld rn index request status hrn hlisten
  · rename_i hgone
    -- the write was purged
    rw [← Option.some.inj h]
    refine Move.putGone rn index request hrn fun hmem => hgone ?_
    obtain ⟨p, hp, rfl⟩ := List.mem_map.mp hmem
    rw [← Option.ne_none_iff_isSome]
    intro hnone
    have hne := List.lookup_eq_none_iff.mp hnone p hp
    simp at hne

/-- Every answer of the server is a move. -/
theorem onDataMessage_move (hw : Wired s) {rn : Nat} {status : String}
    (h : s.onDataMessage rn status = some s') : Move s.core (.answer rn status) s'.core := by
  rw [onDataMessage] at h
  split at h
  · rename_i hrn
    rw [← Option.some.inj h]
    exact Move.ignored rn hrn
  · rename_i request hrn
    cases request with
    | listen query id => exact onListenResponse_move hw hrn h
    | put index request => exact onPutResponse_move hw hrn h
    | get index request =>
        have hmove : Move s.core (.answer rn status) _ := .getAnswered rn index request hrn
        rw [onResponse] at h
        split at h
        · rw [← Option.some.inj h]
          exact hmove.ackedEq (by simp [core, Core.answered, putCall?, Callback.putIndex])
        · rename_i hgone
          rw [filter_ne_of_lookup (l := s.core.gets) (by exact hgone)] at hmove
          rw [← Option.some.inj h]
          exact hmove
    | auth restoreStateAfterComplete =>
        have hlink : s.realtime = some .connected := by
          refine hw.idle fun heq => ?_
          rw [heq] at hrn
          cases hrn
        rw [onResponse] at h
        dsimp only at h
        split at h
        · cases restoreStateAfterComplete with
          | true =>
              rw [if_pos rfl, restoreState_eq (by exact hlink) rfl (by exact hw.puts)
                (by exact hw.gets)] at h
              rw [← Option.some.inj h, core_restored rfl]
              exact Move.authRestores rn _ hrn (isPlain_onDisconnects _)
          | false =>
              rw [if_neg Bool.false_ne_true] at h
              rw [← Option.some.inj h]
              exact Move.authAnswered rn hrn
        · rw [closeRealtime, if_pos (by rw [hlink]; rfl), onDisconnect_eq] at h
          rw [← Option.some.inj h, core_lost]
          exact Move.authRejected rn _ hrn
    | stats | unauth | unlisten query =>
        rw [onResponse] at h
        rw [← Option.some.inj h]
        exact Move.plainAnswered rn _ hrn rfl (by simp)
    | onDisconnect id request =>
        have hmove : Move s.core (.answer rn status) _ := .plainAnswered rn _ hrn rfl (by simp)
        rw [onResponse] at h
        rw [← Option.some.inj h]
        exact hmove.ackedEq (by simp [core, Core.answered, putCall?, Callback.putIndex])

/-- **Every event is a move.** -/
theorem handle_move (hw : Wired s) {e : Event κ ρ} (h : s.handle e = some s') :
    Move s.core e.kind s'.core := by
  cases e with
  | listen query => exact listen_move hw h
  | unlisten query => exact unlisten_move hw h
  | putData request hash => exact putInternal_move hw h
  | getData request => exact getDataAtPath_move hw h
  | getTimesOut index => exact Option.some.inj h ▸ getTimesOut_move index
  | onDisconnectAction request => exact onDisconnectAction_move hw h
  | refreshAuthToken token => exact refreshAuthToken_move hw h
  | purgeOutstandingWrites => exact Option.some.inj h ▸ Move.purge _
  | interrupt reason => exact interruptForReason_move hw h
  | resume reason =>
      rw [handle, resumeForReason] at h
      dsimp only at h
      split at h
      · have hcore := tryScheduleReconnect_move h
        exact Move.same hcore
      · exact Option.some.inj h ▸ Move.same rfl
  | enteringForeground =>
      rw [handle, enteringForeground] at h
      split at h
      · exact Move.same (tryScheduleReconnect_move h)
      · exact Option.some.inj h ▸ Move.same rfl
  | retryFires => exact retryFires_move h
  | contextFetched attempt context => exact contextFetched_move hw h
  | ready => exact onReady_move hw h
  | response rn status => exact onDataMessage_move hw h
  | serverError =>
      rw [handle, onServerError] at h
      split at h
      · cases h
      · exact Option.some.inj h ▸ Move.same rfl
  | authRevoked =>
      rw [handle] at h
      split at h
      · rw [onAuthRevoked] at h
        have hmove := closeRealtime_move h
        exact hmove
      · exact Option.some.inj h ▸ Move.same rfl
  | listenRevoked isAtPath =>
      rw [handle] at h
      rw [← Option.some.inj h]
      split
      · have hmove := Move.keep (c := s.core) (s.listens.filter fun l => !isAtPath l.1)
          (List.filter_subset_self _)
        exact hmove.ackedEq (by simp [onListenRevoked, core, putCall?, Callback.putIndex])
      · exact Move.same rfl
  | connectionLost => exact closeRealtime_move h
  | killed =>
      rw [handle] at h
      split at h
      · exact interruptForReason_move hw h
      · exact Option.some.inj h ▸ Move.same rfl

end Listens

end Moves

end FPersistentConnection

end FirebaseLogin
