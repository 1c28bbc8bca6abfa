import FirebaseLogin.Ledger
import FirebaseLogin.PersistentConnection

/-!
# What the Connection Keeps

The invariant of the persistent connection, and that none of its assertions fails.

Every event changes the state in one of a few ways: requests go out (`sendAll`), the network
connection is given up (`disconnected`), or a few fields change. For each function of the source
an equation says which, so that an invariant is checked against these ways and not against the
functions.

## Main results

* `restoreState_eq`: what is sent again when a connection is restored.
* `handle_wired`: **no assertion fails**, and the invariant is kept.
-/

namespace FirebaseLogin

/-- The index of a write whose block was called. -/
def Callback.putIndex {κ : Type} : Callback κ → Option Nat
  | .put index => some index
  | _ => none

/-- The index of a read whose block was called. -/
def Callback.getIndex {κ : Type} : Callback κ → Option Nat
  | .get index => some index
  | _ => none

namespace FPersistentConnection

variable {κ ρ : Type}

/-! ### Requests -/

/-- Requests under consecutive numbers. -/
def numbered (n : Nat) : List (Request κ ρ) → List (Nat × Request κ ρ)
  | [] => []
  | r :: rs => (n, r) :: numbered (n + 1) rs

/-- The state after a list of requests. -/
def sendAll (rs : List (Request κ ρ)) (s : FPersistentConnection κ ρ) :
    FPersistentConnection κ ρ :=
  { s with
    requestNumber := s.requestNumber + rs.length
    sent := s.sent ++ numbered s.requestNumber rs
    requestCBHash := s.requestCBHash ++
      (numbered s.requestNumber rs).filter fun p => p.2.hasCallback
    unackedListensCount := s.unackedListensCount + rs.countP Request.isListen }

/-- The numbers of requests in two parts. -/
theorem numbered_append (n : Nat) (rs rs' : List (Request κ ρ)) :
    numbered n (rs ++ rs') = numbered n rs ++ numbered (n + rs.length) rs' := by
  induction rs generalizing n with
  | nil => simp [numbered]
  | cons r rs ih => simp [numbered, ih, Nat.add_assoc, Nat.add_comm 1]

/-- Numbered requests are the requests. -/
theorem map_snd_numbered (n : Nat) (rs : List (Request κ ρ)) :
    (numbered n rs).map Prod.snd = rs := by
  induction rs generalizing n with
  | nil => rfl
  | cons r rs ih => rw [numbered, List.map_cons, ih]

/-- A numbered request has one of the next numbers. -/
theorem mem_numbered {n : Nat} {rs : List (Request κ ρ)} {p : Nat × Request κ ρ}
    (h : p ∈ numbered n rs) : n ≤ p.1 ∧ p.1 < n + rs.length ∧ p.2 ∈ rs := by
  induction rs generalizing n with
  | nil => cases h
  | cons r rs ih =>
      rcases List.mem_cons.mp h with rfl | h
      · simp
      · obtain ⟨hle, hlt, hmem⟩ := ih h
        simp only [List.length_cons, List.mem_cons, hmem, or_true, and_true]
        omega

/-- The numbers ascend. -/
theorem pairwise_numbered (n : Nat) (rs : List (Request κ ρ)) :
    (numbered n rs).Pairwise fun p q => p.1 < q.1 := by
  induction rs generalizing n with
  | nil => exact List.Pairwise.nil
  | cons r rs ih =>
      refine List.pairwise_cons.mpr ⟨?_, ih (n + 1)⟩
      intro p hp
      exact (mem_numbered hp).1

/-- No request changes nothing. -/
@[simp]
theorem sendAll_nil (s : FPersistentConnection κ ρ) : sendAll [] s = s := by
  simp [sendAll, numbered]

/-- Requests that go out in two parts. -/
theorem sendAll_append (rs rs' : List (Request κ ρ)) (s : FPersistentConnection κ ρ) :
    sendAll (rs ++ rs') s = sendAll rs' (sendAll rs s) := by
  simp [sendAll, numbered_append, Nat.add_assoc]

/-- Requests go out one after the other. -/
theorem sendAll_cons (r : Request κ ρ) (rs : List (Request κ ρ))
    (s : FPersistentConnection κ ρ) : sendAll (r :: rs) s = sendAll rs (sendAll [r] s) :=
  sendAll_append [r] rs s

section Sending

variable {s : FPersistentConnection κ ρ} (h : s.realtime = some .connected)
include h

/-- A request that is not a listen goes out on an open connection. -/
theorem sendAction_eq {request : Request κ ρ} (hlisten : request.isListen = false) :
    s.sendAction request = some (sendAll [request] s) := by
  rw [sendAction, if_pos h]
  cases hcallback : request.hasCallback with
  | true | false => simp [sendAll, numbered, hcallback, hlisten]

/-- A listen goes out on an open connection. -/
theorem sendListen_eq (l : κ × Nat) : s.sendListen l = some (sendAll [.listen l.1 l.2] s) := by
  rw [sendListen, sendAction, if_pos h]
  simp [sendAll, numbered, Request.hasCallback, Request.isListen]

/-- Listens go out one after the other. -/
theorem sendListens_eq (ls : List (κ × Nat)) :
    ls.foldlM (fun s listen => s.sendListen listen) s =
      some (sendAll (ls.map fun l => .listen l.1 l.2) s) := by
  induction ls generalizing s with
  | nil => simp
  | cons l ls ih =>
      rw [List.foldlM_cons, sendListen_eq h, List.map_cons, sendAll_cons _ (ls.map _)]
      exact ih (s := sendAll _ s) h

/-- Queued actions at a disconnect go out one after the other. -/
theorem sendOnDisconnects_eq (os : List (Nat × ρ)) :
    os.foldlM (fun s o => s.sendAction (.onDisconnect o.1 o.2)) s =
      some (sendAll (os.map fun o => .onDisconnect o.1 o.2) s) := by
  induction os generalizing s with
  | nil => simp
  | cons o os ih =>
      rw [List.foldlM_cons, sendAction_eq h rfl, List.map_cons, sendAll_cons _ (os.map _)]
      exact ih (s := sendAll _ s) h

end Sending

/-! ### The writes and reads that are sent again -/

/-- The writes, all of them sent. -/
def allPutsSent (puts : List (Nat × FOutstandingPut ρ)) : List (Nat × FOutstandingPut ρ) :=
  puts.map fun p => (p.1, { p.2 with sent := true })

/-- The reads, all of them sent. -/
def allGetsSent (gets : List (Nat × FOutstandingGet ρ)) : List (Nat × FOutstandingGet ρ) :=
  gets.map fun p => (p.1, { p.2 with sent := true })

/-- The requests of the writes. -/
def putRequests (puts : List (Nat × FOutstandingPut ρ)) : List (Request κ ρ) :=
  puts.map fun p => .put p.1 p.2.request

/-- The requests of the reads that were not sent before. -/
def getRequests (gets : List (Nat × FOutstandingGet ρ)) : List (Request κ ρ) :=
  (gets.filter fun p => !p.2.sent).map fun p => .get p.1 p.2.request

/-- The writes keep their indices when they are marked as sent. -/
@[simp]
theorem keys_allPutsSent (puts : List (Nat × FOutstandingPut ρ)) :
    (allPutsSent puts).map Prod.fst = puts.map Prod.fst := by
  rw [allPutsSent, List.map_map]
  rfl

/-- The reads keep their indices when they are marked as sent. -/
@[simp]
theorem keys_allGetsSent (gets : List (Nat × FOutstandingGet ρ)) :
    (allGetsSent gets).map Prod.fst = gets.map Prod.fst := by
  rw [allGetsSent, List.map_map]
  rfl

/-- A key after others that are not it is looked up where it stands. -/
theorem lookup_append_cons {α : Type} {l r : List (Nat × α)} {i : Nat} {a : α}
    (h : i ∉ l.map Prod.fst) : (l ++ (i, a) :: r).lookup i = some a := by
  induction l with
  | nil => simp
  | cons p l ih =>
      rw [List.map_cons, List.mem_cons, not_or] at h
      rw [List.cons_append, List.lookup_cons, beq_eq_false_iff_ne.mpr h.1]
      exact ih h.2

/-- A key that stands in the middle stands neither before nor after. -/
theorem notMem_of_nodup_keys {α : Type} {l r : List (Nat × α)} {i : Nat} {a : α}
    (h : ((l ++ (i, a) :: r).map Prod.fst).Nodup) : i ∉ l.map Prod.fst ∧ i ∉ r.map Prod.fst := by
  rw [List.map_append, List.map_cons, List.nodup_append', List.nodup_cons] at h
  exact ⟨fun hi => h.2.2 hi List.mem_cons_self, h.2.1.1⟩

/-- Where the mark on a write goes. -/
theorem putSent_append_cons {l r : List (Nat × FOutstandingPut ρ)} {i : Nat}
    {p : FOutstandingPut ρ} (hl : i ∉ l.map Prod.fst) (hr : i ∉ r.map Prod.fst) :
    putSent i (l ++ (i, p) :: r) = l ++ (i, { p with sent := true }) :: r := by
  have hkeep : ∀ l : List (Nat × FOutstandingPut ρ), i ∉ l.map Prod.fst →
      putSent i l = l := by
    intro l hl
    refine (List.map_congr_left ?_).trans (List.map_id l)
    intro q hq
    have hne : q.1 ≠ i := fun heq => hl (heq ▸ List.mem_map_of_mem hq)
    simp [hne]
  have hsplit : putSent i (l ++ (i, p) :: r) =
      putSent i l ++ (i, { p with sent := true }) :: putSent i r := by
    simp [putSent]
  rw [hsplit, hkeep l hl, hkeep r hr]

/-- Where the mark on a read goes. -/
theorem getSent_append_cons {l r : List (Nat × FOutstandingGet ρ)} {i : Nat}
    {p : FOutstandingGet ρ} (hl : i ∉ l.map Prod.fst) (hr : i ∉ r.map Prod.fst) :
    getSent i (l ++ (i, p) :: r) = l ++ (i, { p with sent := true }) :: r := by
  have hkeep : ∀ l : List (Nat × FOutstandingGet ρ), i ∉ l.map Prod.fst →
      getSent i l = l := by
    intro l hl
    refine (List.map_congr_left ?_).trans (List.map_id l)
    intro q hq
    have hne : q.1 ≠ i := fun heq => hl (heq ▸ List.mem_map_of_mem hq)
    simp [hne]
  have hsplit : getSent i (l ++ (i, p) :: r) =
      getSent i l ++ (i, { p with sent := true }) :: getSent i r := by
    simp [getSent]
  rw [hsplit, hkeep l hl, hkeep r hr]

/-- The writes are sent again in their order. -/
theorem restorePuts_from {s : FPersistentConnection κ ρ} (h : s.realtime = some .connected)
    (hstate : s.connectionState = .connected) (l r : List (Nat × FOutstandingPut ρ))
    (hputs : s.outstandingPuts = l ++ r)
    (hkeys : ((l ++ r).map Prod.fst).Nodup) :
    (r.map Prod.fst).foldlM (fun s index =>
        if (s.outstandingPuts.lookup index).isSome then s.sendPut index else some s) s =
      some (sendAll (putRequests r) { s with outstandingPuts := l ++ allPutsSent r }) := by
  induction r generalizing s l with
  | nil =>
      have hsame : { s with outstandingPuts := l ++ allPutsSent [] } = s := by
        rw [allPutsSent, List.map_nil, ← hputs]
      simp [putRequests, hsame]
  | cons p r ih =>
      obtain ⟨i, p⟩ := p
      obtain ⟨hl, hr⟩ := notMem_of_nodup_keys hkeys
      have hlookup : s.outstandingPuts.lookup i = some p := by
        rw [hputs, lookup_append_cons hl]
      have hsend : s.sendPut i = some (sendAll [.put i p.request]
          { s with outstandingPuts := l ++ (i, { p with sent := true }) :: r }) := by
        rw [sendPut, if_pos (by simp [canSendWrites, hstate]), hlookup]
        simp only [hputs, putSent_append_cons hl hr]
        exact sendAction_eq (s := { s with
          outstandingPuts := l ++ (i, { p with sent := true }) :: r }) h rfl
      rw [List.map_cons, List.foldlM_cons, hlookup, if_pos (by rfl), hsend]
      have hih := ih (s := sendAll [.put i p.request]
          { s with outstandingPuts := l ++ (i, { p with sent := true }) :: r }) h hstate
        (l ++ [(i, { p with sent := true })]) (by simp [sendAll]) (by simpa using hkeys)
      refine hih.trans ?_
      simp [putRequests, allPutsSent, sendAll, numbered, Request.hasCallback, Request.isListen,
        Nat.add_assoc, Nat.add_comm 1]

/-- The reads that were not sent before are sent, in their order. -/
theorem restoreGets_from {s : FPersistentConnection κ ρ} (h : s.realtime = some .connected)
    (hstate : s.connectionState = .connected) (l r : List (Nat × FOutstandingGet ρ))
    (hgets : s.outstandingGets = l ++ r)
    (hkeys : ((l ++ r).map Prod.fst).Nodup) :
    (r.map Prod.fst).foldlM (fun s index =>
        if (s.outstandingGets.lookup index).isSome then s.sendGet index else some s) s =
      some (sendAll (getRequests r) { s with outstandingGets := l ++ allGetsSent r }) := by
  induction r generalizing s l with
  | nil =>
      have hsame : { s with outstandingGets := l ++ allGetsSent [] } = s := by
        rw [allGetsSent, List.map_nil, ← hgets]
      simp [getRequests, hsame]
  | cons p r ih =>
      obtain ⟨i, p⟩ := p
      obtain ⟨hl, hr⟩ := notMem_of_nodup_keys hkeys
      have hlookup : s.outstandingGets.lookup i = some p := by
        rw [hgets, lookup_append_cons hl]
      have hget : s.sendGet i = some (sendAll (getRequests [(i, p)])
          { s with outstandingGets := l ++ (i, { p with sent := true }) :: r }) := by
        rw [sendGet, if_pos (by simp [canSendReads, hstate]), hlookup]
        cases hsent : p.sent with
        | true =>
            have hsame :
                { s with outstandingGets := l ++ (i, { p with sent := true }) :: r } = s := by
              rw [← hsent, ← hgets]
            simp [hsame, getRequests, hsent]
        | false =>
            have hrequest : (getRequests [(i, p)] : List (Request κ ρ)) = [.get i p.request] := by
              simp [getRequests, hsent]
            rw [hrequest]
            simp only [hgets, hsent, getSent_append_cons hl hr, Bool.false_eq_true, if_false]
            exact sendAction_eq (s := { s with
              outstandingGets := l ++ (i, { p with sent := true }) :: r }) h rfl
      rw [List.map_cons, List.foldlM_cons, hlookup, if_pos (by rfl), hget]
      have hih := ih (s := sendAll (getRequests [(i, p)])
          { s with outstandingGets := l ++ (i, { p with sent := true }) :: r }) h hstate
        (l ++ [(i, { p with sent := true })]) (by simp [sendAll]) (by simpa using hkeys)
      have happend : (getRequests ((i, p) :: r) : List (Request κ ρ)) =
          getRequests [(i, p)] ++ getRequests r := by
        rw [getRequests, getRequests, getRequests, ← List.map_append, ← List.filter_append]
        rfl
      refine hih.trans ?_
      rw [happend, sendAll_append]
      simp [allGetsSent, sendAll]

/-- What is sent when a connection is restored. -/
def restoreRequests (s : FPersistentConnection κ ρ) : List (Request κ ρ) :=
  (s.listens.map fun l => .listen l.1 l.2) ++ putRequests s.outstandingPuts ++
    getRequests s.outstandingGets ++ s.onDisconnectQueue.map fun o => .onDisconnect o.1 o.2

/-- The state after a connection is restored. -/
def restored (s : FPersistentConnection κ ρ) : FPersistentConnection κ ρ :=
  sendAll s.restoreRequests { s with
    outstandingPuts := allPutsSent s.outstandingPuts
    outstandingGets := allGetsSent s.outstandingGets
    onDisconnectQueue := [] }

/-- Indices that ascend are sorted. -/
theorem insertionSort_keys {α : Type} {l : List (Nat × α)}
    (h : (l.map Prod.fst).Pairwise (· < ·)) :
    (l.map Prod.fst).insertionSort (· ≤ ·) = l.map Prod.fst :=
  (h.imp Nat.le_of_lt).insertionSort_eq

/-- Numbers that ascend are different. -/
theorem nodup_of_ascending {l : List Nat} (h : l.Pairwise (· < ·)) : l.Nodup :=
  h.imp fun hlt => Nat.ne_of_lt hlt

section Restoring

variable {s : FPersistentConnection κ ρ} (h : s.realtime = some .connected)
  (hstate : s.connectionState = .connected)
include h hstate

/-- The writes are sent again in the order of their indices. -/
theorem restorePuts_eq (hputs : (s.outstandingPuts.map Prod.fst).Pairwise (· < ·)) :
    s.restorePuts = some (sendAll (putRequests s.outstandingPuts)
      { s with outstandingPuts := allPutsSent s.outstandingPuts }) := by
  rw [restorePuts, insertionSort_keys hputs]
  exact restorePuts_from h hstate [] s.outstandingPuts rfl (nodup_of_ascending hputs)

/-- The reads that were not sent before are sent. -/
theorem restoreGets_eq (hgets : (s.outstandingGets.map Prod.fst).Pairwise (· < ·)) :
    s.restoreGets = some (sendAll (getRequests s.outstandingGets)
      { s with outstandingGets := allGetsSent s.outstandingGets }) := by
  rw [restoreGets, insertionSort_keys hgets]
  exact restoreGets_from h hstate [] s.outstandingGets rfl (nodup_of_ascending hgets)

/-- **The restoring of a connection**: the listens, the writes and the reads in the order of their
indices, and the actions at a disconnect. -/
theorem restoreState_eq (hputs : (s.outstandingPuts.map Prod.fst).Pairwise (· < ·))
    (hgets : (s.outstandingGets.map Prod.fst).Pairwise (· < ·)) :
    s.restoreState = some s.restored := by
  rw [restoreState, if_pos hstate, sendListens_eq h]
  -- the state after each of the four loops
  let s₁ := sendAll (s.listens.map fun l => .listen l.1 l.2) s
  let s₂ := sendAll (putRequests s.outstandingPuts)
    { s₁ with outstandingPuts := allPutsSent s.outstandingPuts }
  let s₃ := sendAll (getRequests s.outstandingGets)
    { s₂ with outstandingGets := allGetsSent s.outstandingGets }
  have h₁ : s₁.restorePuts = some s₂ := restorePuts_eq (s := s₁) h hstate hputs
  have h₂ : s₂.restoreGets = some s₃ := restoreGets_eq (s := s₂) h hstate hgets
  have h₃ := sendOnDisconnects_eq (s := s₃) h s.onDisconnectQueue
  have hchain : (do
      let s ← some s₁
      let s ← s.restorePuts
      let s ← s.restoreGets
      let s ← s.onDisconnectQueue.foldlM (fun s o => s.sendAction (.onDisconnect o.1 o.2)) s
      some { s with onDisconnectQueue := [] }) =
      some { sendAll (s.onDisconnectQueue.map fun o => .onDisconnect o.1 o.2) s₃ with
        onDisconnectQueue := [] } := by
    simp only [Option.bind_eq_bind, Option.bind_some, h₁, h₂]
    exact congrArg (fun o => o.bind fun s => some { s with onDisconnectQueue := [] }) h₃
  refine hchain.trans ?_
  simp only [restored, restoreRequests, sendAll_append]
  simp [sendAll, s₁, s₂, s₃]

end Restoring

/-! ### The invariant -/

/-- The network connection that goes with a state. -/
def linkOf : ConnectionState → Option Realtime
  | .disconnected | .gettingToken => none
  | .connecting => some .connecting
  | .authenticating | .connected => some .connected

variable [FQuerySpec κ]

/-- What every event keeps: the network connection goes with the state, a retry is scheduled only
while disconnected, the latest attempt to fetch a token is under way only while it is awaited or
given up, blocks are kept only for an open connection, the unacknowledged listens are those whose
blocks are kept, indices ascend, and the queries that are listened to pass the assertion on
them. -/
structure Wired (s : FPersistentConnection κ ρ) : Prop where
  link : s.realtime = linkOf s.connectionState
  retry : s.scheduledRetry.isSome = true → s.connectionState = .disconnected
  fetches_le : ∀ a ∈ s.fetches, a ≤ s.currentFetchTokenAttempt
  fetches_nodup : s.fetches.Nodup
  fetching : s.currentFetchTokenAttempt ∈ s.fetches →
    s.connectionState = .gettingToken ∨ s.connectionState = .disconnected
  idle : s.requestCBHash ≠ [] → s.realtime = some .connected
  numbers : (s.requestCBHash.map Prod.fst).Nodup
  numbers_lt : ∀ p ∈ s.requestCBHash, p.1 < s.requestNumber
  count : s.unackedListensCount = s.requestCBHash.countP fun p => p.2.isListen
  puts : (s.outstandingPuts.map Prod.fst).Pairwise (· < ·)
  puts_lt : ∀ p ∈ s.outstandingPuts, p.1 < s.putCounter
  gets : (s.outstandingGets.map Prod.fst).Pairwise (· < ·)
  gets_lt : ∀ p ∈ s.outstandingGets, p.1 < s.getCounter
  listenable : ∀ l ∈ s.listens, FQuerySpec.isListenable l.1 = true

/-- The invariant holds initially. -/
theorem wired_initial : Wired (initial : FPersistentConnection κ ρ) where
  link := rfl
  retry := by simp [initial]
  fetches_le := by simp [initial]
  fetches_nodup := List.nodup_nil
  fetching := by simp [initial]
  idle := fun h => absurd rfl h
  numbers := List.nodup_nil
  numbers_lt := by simp [initial]
  count := rfl
  puts := List.Pairwise.nil
  puts_lt := by simp [initial]
  gets := List.Pairwise.nil
  gets_lt := by simp [initial]
  listenable := by simp [initial]

/-- The account of the writes. -/
def putLedger (s : FPersistentConnection κ ρ) : Ledger where
  issued := s.putCounter
  pending := s.outstandingPuts.map Prod.fst
  waiting := s.putsToAck.map Prod.fst
  done := s.called.filterMap fun c => c.1.putIndex

/-- The account of the reads. -/
def getLedger (s : FPersistentConnection κ ρ) : Ledger where
  issued := s.getCounter
  pending := s.outstandingGets.map Prod.fst
  waiting := []
  done := s.called.filterMap fun c => c.1.getIndex

/-- A state may follow another: it has the invariant, the accounts have moved by steps, and the
blocks that were called stay called. -/
structure Follows (s s' : FPersistentConnection κ ρ) : Prop where
  wired : Wired s'
  puts : s.putLedger.Steps s'.putLedger
  gets : s.getLedger.Steps s'.getLedger
  called : s.called <+: s'.called

/-- A state that follows one that follows. -/
theorem Follows.trans {s s' s'' : FPersistentConnection κ ρ} (h : Follows s s')
    (h' : Follows s' s'') : Follows s s'' :=
  ⟨h'.wired, h.puts.trans h'.puts, h.gets.trans h'.gets, h.called.trans h'.called⟩

/-- A state with the same accounts. -/
theorem Wired.follows {s s' : FPersistentConnection κ ρ} (h : Wired s')
    (hputs : s'.putLedger = s.putLedger) (hgets : s'.getLedger = s.getLedger)
    (hcalled : s.called <+: s'.called) : Follows s s' :=
  ⟨h, hputs ▸ .refl _, hgets ▸ .refl _, hcalled⟩

/-! ### The ways of a step -/

variable {s : FPersistentConnection κ ρ}

/-- Requests keep the invariant. -/
theorem Wired.sendAll (h : Wired s) (hlink : s.realtime = some .connected)
    (rs : List (Request κ ρ)) : Wired (sendAll rs s) := by
  have hlisten : (numbered s.requestNumber rs).countP
      (fun p => p.2.isListen && p.2.hasCallback) = rs.countP Request.isListen := by
    have hmap := List.countP_map (p := fun r : Request κ ρ => r.isListen && r.hasCallback)
      (f := Prod.snd) (l := numbered s.requestNumber rs)
    rw [map_snd_numbered] at hmap
    refine hmap.symm.trans (List.countP_congr fun r _ => ?_)
    cases r with
    | stats | auth | unauth | listen | unlisten | put | get | onDisconnect =>
        simp [Request.isListen, Request.hasCallback]
  refine { h with idle := fun _ => hlink, numbers := ?_, numbers_lt := ?_, count := ?_ }
  · rw [FPersistentConnection.sendAll, List.map_append, List.nodup_append']
    refine ⟨h.numbers, ?_, ?_⟩
    · refine nodup_of_ascending (List.pairwise_map.mpr ?_)
      exact List.Pairwise.filter _ (pairwise_numbered _ _)
    · intro n hn hn'
      obtain ⟨p, hp, rfl⟩ := List.mem_map.mp hn
      obtain ⟨q, hq, heq⟩ := List.mem_map.mp hn'
      have hlt := h.numbers_lt p hp
      have hle := (mem_numbered (List.mem_of_mem_filter hq)).1
      omega
  · intro p hp
    rcases List.mem_append.mp hp with hp | hp
    · exact Nat.lt_of_lt_of_le (h.numbers_lt p hp) (Nat.le_add_right _ _)
    · exact (mem_numbered (List.mem_of_mem_filter hp)).2.1
  · rw [FPersistentConnection.sendAll, List.countP_append, List.countP_filter, hlisten, h.count]

omit [FQuerySpec κ] in
/-- Requests do not concern the account of the writes. -/
@[simp]
theorem putLedger_sendAll (rs : List (Request κ ρ)) (s : FPersistentConnection κ ρ) :
    (sendAll rs s).putLedger = s.putLedger := rfl

omit [FQuerySpec κ] in
/-- Requests do not concern the account of the reads. -/
@[simp]
theorem getLedger_sendAll (rs : List (Request κ ρ)) (s : FPersistentConnection κ ρ) :
    (sendAll rs s).getLedger = s.getLedger := rfl

/-- Requests that follow another change. -/
theorem Follows.sendAll {s' : FPersistentConnection κ ρ} (h : Follows s s')
    (hlink : s'.realtime = some .connected) (rs : List (Request κ ρ)) :
    Follows s (sendAll rs s') :=
  ⟨h.wired.sendAll hlink rs, h.puts, h.gets, h.called⟩

/-- A restored connection has the invariant and the same accounts. -/
theorem Wired.restored (h : Wired s) (hlink : s.realtime = some .connected) :
    Follows s s.restored := by
  have hkeep : Follows s { s with
      outstandingPuts := allPutsSent s.outstandingPuts
      outstandingGets := allGetsSent s.outstandingGets
      onDisconnectQueue := [] } := by
    refine Wired.follows ?_ (by simp [putLedger]) (by simp [getLedger]) List.prefix_rfl
    refine { h with puts := ?_, puts_lt := ?_, gets := ?_, gets_lt := ?_ }
    · rw [keys_allPutsSent]
      exact h.puts
    · intro p hp
      obtain ⟨q, hq, rfl⟩ := List.mem_map.mp hp
      exact h.puts_lt q hq
    · rw [keys_allGetsSent]
      exact h.gets
    · intro p hp
      obtain ⟨q, hq, rfl⟩ := List.mem_map.mp hp
      exact h.gets_lt q hq
  exact hkeep.sendAll hlink _

/-- A connection that can send writes is restored. -/
theorem Wired.restoreState_eq (h : Wired s) (hstate : s.connectionState = .connected) :
    s.restoreState = some s.restored := by
  have hlink := h.link
  rw [hstate] at hlink
  exact FPersistentConnection.restoreState_eq hlink hstate h.puts h.gets

/-- The state with a retry scheduled, unless the connection is interrupted. -/
def scheduled (s : FPersistentConnection κ ρ) : FPersistentConnection κ ρ :=
  if s.shouldReconnect then
    { s with forceTokenRefreshes := false, scheduledRetry := some s.forceTokenRefreshes }
  else s

omit [FQuerySpec κ] in
/-- While disconnected a retry is scheduled. -/
theorem tryScheduleReconnect_eq (h : s.connectionState = .disconnected) :
    s.tryScheduleReconnect = some s.scheduled := by
  rw [tryScheduleReconnect, if_pos h, scheduled]
  split
  · rfl
  · rfl

/-- A scheduled retry keeps the invariant. -/
theorem Wired.scheduled (h : Wired s) (hstate : s.connectionState = .disconnected) :
    Follows s s.scheduled := by
  rw [FPersistentConnection.scheduled]
  split
  · exact Wired.follows { h with retry := fun _ => hstate } rfl rfl List.prefix_rfl
  · exact h.follows rfl rfl List.prefix_rfl

/-- What a filter of entries does to their keys. -/
theorem keys_filter {α : Type} {l : List (Nat × α)} (h : (l.map Prod.fst).Nodup)
    (q : Nat × α → Bool) :
    ∃ p : Nat → Bool, (l.filter q).map Prod.fst = (l.map Prod.fst).filter p ∧
      (l.filter fun e => !q e).map Prod.fst = (l.map Prod.fst).filter fun i => !p i := by
  refine ⟨fun i => (l.lookup i).any fun a => q (i, a), ?_, ?_⟩
  all_goals
    rw [List.filter_map]
    congr 1
    refine List.filter_congr fun e he => ?_
    obtain ⟨l₁, l₂, rfl⟩ := List.append_of_mem he
    obtain ⟨i, a⟩ := e
    simp [lookup_append_cons (notMem_of_nodup_keys h).1]

/-- The state after the network connection is lost. -/
def lost (s : FPersistentConnection κ ρ) : FPersistentConnection κ ρ :=
  scheduled { s.cancelSentTransactions with
    connectionState := .disconnected
    realtime := none
    sent := []
    requestCBHash := []
    unackedListensCount := 0 }

omit [FQuerySpec κ] in
/-- The loss of a connection, in one update. -/
theorem onDisconnect_eq (s : FPersistentConnection κ ρ) : s.onDisconnect = some s.lost := by
  rw [onDisconnect, lost, scheduled]
  dsimp only
  split
  · rename_i hreconnect
    rw [tryScheduleReconnect_eq rfl, scheduled, if_pos hreconnect]
    have hsame : s.cancelSentTransactions.shouldReconnect = true := hreconnect
    rw [if_pos (by exact hsame)]
    rfl
  · rename_i hreconnect
    rw [if_neg (by exact hreconnect)]
    rfl

/-- A lost connection keeps the invariant, and finishes the transactions that were sent. -/
theorem Wired.lost (h : Wired s) : Follows s s.lost := by
  obtain ⟨p, hcancelled, hkept⟩ := keys_filter (nodup_of_ascending h.puts)
    fun p => p.2.hash.isSome && p.2.sent
  have hfollows : Follows s { s.cancelSentTransactions with
      connectionState := .disconnected
      realtime := none
      sent := []
      requestCBHash := []
      unackedListensCount := 0 } := by
    refine ⟨?_, ?_, ?_, List.prefix_append _ _⟩
    · refine { h with
        link := rfl, retry := fun _ => rfl, fetching := fun _ => .inr rfl
        idle := fun h => absurd rfl h, numbers := List.nodup_nil, numbers_lt := by simp
        count := rfl, puts := ?_, puts_lt := ?_ }
      · exact h.puts.sublist (List.filter_sublist.map _)
      · exact fun p hp => h.puts_lt p (List.mem_of_mem_filter hp)
    · have hledger : putLedger { s.cancelSentTransactions with
          connectionState := .disconnected
          realtime := none
          sent := []
          requestCBHash := []
          unackedListensCount := 0 } =
          { s.putLedger with
            pending := s.putLedger.pending.filter fun i => !p i
            done := s.putLedger.done ++ s.putLedger.pending.filter p } := by
        simp only [putLedger, cancelSentTransactions, List.filterMap_append, List.filterMap_map,
          ← hcancelled, ← hkept]
        congr 2
        exact congrFun (List.filterMap_eq_map (f := Prod.fst)) _
      rw [hledger]
      exact .single (.finish _ p)
    · have hledger : getLedger { s.cancelSentTransactions with
          connectionState := .disconnected
          realtime := none
          sent := []
          requestCBHash := []
          unackedListensCount := 0 } = s.getLedger := by
        simp [getLedger, cancelSentTransactions, Callback.getIndex]
      rw [hledger]
      exact .refl _
  exact hfollows.trans (hfollows.wired.scheduled rfl)

/-! ### One step -/

/-- A function of the source runs through its assertions to a state that may follow. -/
def Runs (s : FPersistentConnection κ ρ) (o : Option (FPersistentConnection κ ρ)) : Prop :=
  ∃ s', o = some s' ∧ Follows s s'

/-- A step to a state that follows runs through. -/
theorem Follows.runs {s' : FPersistentConnection κ ρ} (h : Follows s s') : Runs s (some s') :=
  ⟨s', rfl, h⟩

/-- A function that runs after a change. -/
theorem Follows.andThen {s' : FPersistentConnection κ ρ} {o : Option (FPersistentConnection κ ρ)}
    (h : Follows s s') (ho : Runs s' o) : Runs s o := by
  obtain ⟨s'', rfl, hs''⟩ := ho
  exact (h.trans hs'').runs

/-- A change of what the invariant and the accounts do not read. -/
theorem Wired.runs {s' : FPersistentConnection κ ρ} (h : Wired s')
    (hputs : s'.putLedger = s.putLedger) (hgets : s'.getLedger = s.getLedger)
    (hcalled : s'.called = s.called) : Runs s (some s') :=
  Follows.runs (h.follows hputs hgets (hcalled ▸ List.prefix_rfl))

/-- Scheduling a retry runs through while disconnected. -/
theorem Wired.tryScheduleReconnect (h : Wired s) (hstate : s.connectionState = .disconnected) :
    Runs s s.tryScheduleReconnect := by
  rw [tryScheduleReconnect_eq hstate]
  exact (h.scheduled hstate).runs

/-- Closing the network connection runs through. -/
theorem Wired.closeRealtime (h : Wired s) : Runs s s.closeRealtime := by
  rw [FPersistentConnection.closeRealtime]
  split
  · rw [onDisconnect_eq]
    exact h.lost.runs
  · exact h.runs rfl rfl rfl

/-- An interruption runs through. -/
theorem Wired.interruptForReason (h : Wired s) (reason : InterruptReason) :
    Runs s (s.interruptForReason reason) := by
  have hreason : Wired { s with interruptReasons := s.interruptReasons.insert reason } := { h with }
  rw [FPersistentConnection.interruptForReason]
  dsimp only
  split
  · exact Follows.andThen (hreason.follows rfl rfl List.prefix_rfl) hreason.closeRealtime
  · rename_i hnone
    refine Wired.runs ?_ rfl rfl rfl
    exact { h with
      link := Option.not_isSome_iff_eq_none.mp hnone
      retry := fun _ => rfl
      fetching := fun _ => .inr rfl }

/-- The end of an interruption runs through. -/
theorem Wired.resumeForReason (h : Wired s) (reason : InterruptReason) :
    Runs s (s.resumeForReason reason) := by
  have hreason : Wired { s with
    interruptReasons := s.interruptReasons.filter fun r => r ≠ reason } := { h with }
  rw [FPersistentConnection.resumeForReason]
  dsimp only
  split
  · rename_i hstate
    rw [Bool.and_eq_true, decide_eq_true_eq] at hstate
    exact Follows.andThen (hreason.follows rfl rfl List.prefix_rfl)
      (hreason.tryScheduleReconnect hstate.2)
  · exact hreason.runs rfl rfl rfl

/-- Entering the foreground runs through. -/
theorem Wired.enteringForeground (h : Wired s) : Runs s s.enteringForeground := by
  rw [FPersistentConnection.enteringForeground]
  split
  · rename_i hstate
    exact h.tryScheduleReconnect hstate
  · exact h.runs rfl rfl rfl

/-- A retry runs through: it is scheduled only while disconnected. -/
theorem Wired.retryFires (h : Wired s) : Runs s s.retryFires := by
  rw [FPersistentConnection.retryFires]
  split
  · exact h.runs rfl rfl rfl
  · rename_i hretry
    have hstate : s.connectionState = .disconnected := h.retry (by rw [hretry]; rfl)
    rw [if_pos hstate]
    have hnew : s.currentFetchTokenAttempt + 1 ∉ s.fetches := by
      intro hmem
      have hle := h.fetches_le _ hmem
      omega
    refine Wired.runs ?_ rfl rfl rfl
    refine { h with
      link := ?_, retry := by simp, fetches_le := ?_
      fetches_nodup := List.nodup_cons.mpr ⟨hnew, h.fetches_nodup⟩
      fetching := fun _ => .inl rfl }
    · rw [h.link, hstate]
      rfl
    · intro a ha
      rcases List.mem_cons.mp ha with rfl | ha
      · exact Nat.le_refl _
      · exact Nat.le_succ_of_le (h.fetches_le a ha)

/-- A fetched token runs through: the latest attempt is awaited or was given up. -/
theorem Wired.contextFetched (h : Wired s) (attempt : Nat) (context : Option (Option String)) :
    Runs s (s.contextFetched attempt context) := by
  rw [FPersistentConnection.contextFetched]
  split
  · rename_i hmem
    have hfetch : Wired { s with fetches := s.fetches.erase attempt } := { h with
      fetches_le := fun a ha => h.fetches_le a (List.mem_of_mem_erase ha)
      fetches_nodup := h.fetches_nodup.erase _
      fetching := fun ha => h.fetching (List.mem_of_mem_erase ha) }
    dsimp only
    split
    · rename_i hcurrent
      -- the latest attempt is no longer under way
      have hgone : s.currentFetchTokenAttempt ∉ s.fetches.erase attempt := by
        rw [← hcurrent]
        exact List.Nodup.not_mem_erase h.fetches_nodup
      have hstate := h.fetching (hcurrent ▸ hmem)
      cases context with
      | none =>
          have hlink : s.realtime = none := by
            rcases hstate with hstate | hstate
            · rw [h.link, hstate, linkOf]
            · rw [h.link, hstate, linkOf]
          have hwired : Wired { s with
              fetches := s.fetches.erase attempt, connectionState := .disconnected } :=
            { hfetch with
              link := hlink, retry := fun _ => rfl, fetching := fun _ => .inr rfl }
          exact Follows.andThen (hwired.follows rfl rfl List.prefix_rfl)
            (hwired.tryScheduleReconnect rfl)
      | some authToken =>
          dsimp only
          rcases hstate with hstate | hstate
          · rw [if_pos hstate, openNetworkConnectionWithContext, if_pos hstate]
            refine Wired.runs ?_ rfl rfl rfl
            refine { hfetch with
              link := rfl, retry := fun hretry => ?_, fetching := fun hcur => absurd hcur hgone
              idle := fun hne => ?_ }
            · rw [h.retry hretry] at hstate
              cases hstate
            · have hlink := h.link.symm.trans (h.idle hne)
              rw [hstate] at hlink
              cases hlink
          · rw [if_neg (by rw [hstate]; decide), if_pos hstate]
            exact hfetch.runs rfl rfl rfl
    · exact hfetch.runs rfl rfl rfl
  · exact h.runs rfl rfl rfl

/-- While connected the network connection is open. -/
theorem Wired.realtime_of_isConnected (h : Wired s) (hstate : s.isConnected = true) :
    s.realtime = some .connected := by
  rw [isConnected, decide_eq_true_eq] at hstate
  rcases hstate with hstate | hstate
  · rw [h.link, hstate, linkOf]
  · rw [h.link, hstate, linkOf]

omit [FQuerySpec κ] in
/-- Writes can be sent only while connected. -/
theorem isConnected_of_canSendWrites (h : s.canSendWrites = true) : s.isConnected = true := by
  rw [canSendWrites, decide_eq_true_eq] at h
  rw [isConnected, decide_eq_true_eq]
  exact .inr h

/-- A request on a connection that is open. -/
theorem Wired.sendAction (h : Wired s) (hlink : s.realtime = some .connected)
    {request : Request κ ρ} (hlisten : request.isListen = false) :
    Runs s (s.sendAction request) := by
  rw [sendAction_eq hlink hlisten]
  exact (Follows.sendAll (h.follows rfl rfl List.prefix_rfl) hlink _).runs

omit [FQuerySpec κ] in
/-- What an open connection starts with: the restoring, or an authentication. -/
theorem restoreAuth_eq (hlink : s.realtime = some .connected)
    (hstate : s.connectionState = .connecting)
    (hputs : (s.outstandingPuts.map Prod.fst).Pairwise (· < ·))
    (hgets : (s.outstandingGets.map Prod.fst).Pairwise (· < ·)) :
    s.restoreAuth = some (
      if s.authToken = none then restored { s with connectionState := .connected }
      else sendAll [.auth true] { s with connectionState := .authenticating }) := by
  rw [restoreAuth, if_pos hstate]
  split
  · exact restoreState_eq hlink rfl hputs hgets
  · rename_i htoken
    rw [sendAuthAndRestoreStateAfterComplete, if_pos]
    · exact sendAction_eq (s := { s with connectionState := .authenticating }) hlink rfl
    · simp [isConnected, Option.isSome_iff_ne_none, htoken]

/-- A connection that is ready: the state in which its first requests are sent. -/
def opened (state : ConnectionState) (s : FPersistentConnection κ ρ) :
    FPersistentConnection κ ρ :=
  sendAll (if s.firstConnection then [.stats] else [])
    { s with realtime := some .connected, connectionState := state, firstConnection := false }

/-- The whole of `onReady`, in one update. -/
theorem onReady_eq (h : Wired s) (hlink : s.realtime = some .connecting) :
    s.onReady = some (if s.authToken = none then restored (s.opened .connected)
      else sendAll [.auth true] (s.opened .authenticating)) := by
  have hstate : s.connectionState = .connecting := by
    have hlink' := h.link.symm.trans hlink
    cases hs : s.connectionState with
    | connecting => rfl
    | disconnected | gettingToken | authenticating | connected => simp [hs, linkOf] at hlink'
  have hstats : (if s.firstConnection = true then
      { s with realtime := some .connected }.sendConnectStats
      else some { s with realtime := some .connected }) =
      some (sendAll (if s.firstConnection then [.stats] else [])
        { s with realtime := some .connected }) := by
    split
    · exact sendAction_eq (s := { s with realtime := some .connected }) rfl rfl
    · rw [sendAll_nil]
  have hauth := restoreAuth_eq (s := sendAll (if s.firstConnection then [.stats] else [])
    { s with realtime := some .connected }) rfl hstate h.puts h.gets
  rw [onReady, if_pos hlink]
  dsimp only
  rw [hstats, Option.bind_some, hauth, Option.map_some]
  by_cases htoken : s.authToken = none
  · rw [if_pos htoken, if_pos (by exact htoken)]
    rfl
  · rw [if_neg htoken, if_neg (by exact htoken)]
    rfl

/-- An open connection keeps the invariant. -/
theorem Wired.opened (h : Wired s) (hlink : s.realtime = some .connecting)
    (state : ConnectionState) (hstate : linkOf state = some .connected) :
    Follows s (s.opened state) := by
  have hconnecting : linkOf s.connectionState = some .connecting := h.link.symm.trans hlink
  have hwired : Wired { s with
      realtime := some .connected, connectionState := state, firstConnection := false } := by
    refine { h with link := hstate.symm, retry := ?_, fetching := ?_, idle := fun _ => rfl }
    · intro hretry
      rw [h.retry hretry] at hconnecting
      cases hconnecting
    · intro hfetch
      rcases h.fetching hfetch with hs | hs
      · rw [hs] at hconnecting
        cases hconnecting
      · rw [hs] at hconnecting
        cases hconnecting
  exact Follows.sendAll (s := s) (hwired.follows rfl rfl List.prefix_rfl) rfl _

/-- A connection that has shaken hands runs through. -/
theorem Wired.onReady (h : Wired s) : Runs s s.onReady := by
  by_cases hlink : s.realtime = some .connecting
  · rw [onReady_eq h hlink]
    split
    · have hopened := h.opened hlink .connected rfl
      exact (hopened.trans (hopened.wired.restored rfl)).runs
    · exact ((h.opened hlink .authenticating rfl).sendAll rfl _).runs
  · rw [FPersistentConnection.onReady, if_neg hlink]
    exact h.runs rfl rfl rfl

/-! ### Calls of the client -/

/-- The state with one more write. -/
def issued (request : ρ) (hash : Option String) (sent : Bool) (s : FPersistentConnection κ ρ) :
    FPersistentConnection κ ρ :=
  { s with
    putCounter := s.putCounter + 1
    outstandingPuts := s.outstandingPuts ++ [(s.putCounter, ⟨request, hash, sent⟩)] }

/-- The next index is not among those given out. -/
theorem notMem_keys_of_lt {α : Type} {l : List (Nat × α)} {n : Nat} (h : ∀ p ∈ l, p.1 < n) :
    n ∉ l.map Prod.fst := by
  intro hn
  obtain ⟨p, hp, rfl⟩ := List.mem_map.mp hn
  exact Nat.lt_irrefl _ (h p hp)

/-- A write, in one update. -/
theorem putInternal_eq (h : Wired s) (request : ρ) (hash : Option String) :
    s.putInternal request hash = some (
      if s.canSendWrites then sendAll [.put s.putCounter request] (s.issued request hash true)
      else s.issued request hash false) := by
  rw [putInternal]
  by_cases hcan : s.canSendWrites = true
  · have hnew := notMem_keys_of_lt h.puts_lt
    have hlink := h.realtime_of_isConnected (isConnected_of_canSendWrites hcan)
    rw [if_pos hcan, if_pos (by exact hcan), sendPut, if_pos (by exact hcan)]
    simp only [lookup_append_cons hnew, putSent_append_cons (r := []) hnew (by simp)]
    exact sendAction_eq (s := s.issued request hash true) hlink rfl
  · rw [if_neg hcan, if_neg (by exact hcan)]
    rfl

/-- One more write moves the account of the writes by a step. -/
theorem Wired.issued (h : Wired s) (request : ρ) (hash : Option String) (sent : Bool) :
    Follows s (s.issued request hash sent) := by
  refine ⟨{ h with puts := ?_, puts_lt := ?_ }, ?_, .refl _, List.prefix_rfl⟩
  · rw [FPersistentConnection.issued, List.map_append, List.pairwise_append]
    refine ⟨h.puts, List.pairwise_singleton _ _, ?_⟩
    intro i hi j hj
    obtain ⟨p, hp, rfl⟩ := List.mem_map.mp hi
    obtain rfl : j = s.putCounter := by simpa using hj
    exact h.puts_lt p hp
  · intro p hp
    rcases List.mem_append.mp hp with hp | hp
    · exact Nat.lt_succ_of_lt (h.puts_lt p hp)
    · obtain rfl := List.mem_singleton.mp hp
      exact Nat.lt_succ_self _
  · have hledger : (s.issued request hash sent).putLedger =
        { s.putLedger with
          issued := s.putLedger.issued + 1
          pending := s.putLedger.pending ++ [s.putLedger.issued] } := by
      simp [putLedger, FPersistentConnection.issued]
    rw [hledger]
    exact .single (.issue _)

/-- A write runs through. -/
theorem Wired.putInternal (h : Wired s) (request : ρ) (hash : Option String) :
    Runs s (s.putInternal request hash) := by
  rw [putInternal_eq h]
  split
  · rename_i hcan
    have hlink := h.realtime_of_isConnected (isConnected_of_canSendWrites hcan)
    exact ((h.issued request hash true).sendAll hlink _).runs
  · exact (h.issued request hash false).runs

/-- The state with one more read. -/
def asked (request : ρ) (sent : Bool) (s : FPersistentConnection κ ρ) :
    FPersistentConnection κ ρ :=
  { s with
    getCounter := s.getCounter + 1
    outstandingGets := s.outstandingGets ++ [(s.getCounter, ⟨request, sent⟩)] }

/-- One more read moves the account of the reads by a step. -/
theorem Wired.asked (h : Wired s) (request : ρ) (sent : Bool) :
    Follows s (s.asked request sent) := by
  refine ⟨{ h with gets := ?_, gets_lt := ?_ }, .refl _, ?_, List.prefix_rfl⟩
  · rw [FPersistentConnection.asked, List.map_append, List.pairwise_append]
    refine ⟨h.gets, List.pairwise_singleton _ _, ?_⟩
    intro i hi j hj
    obtain ⟨p, hp, rfl⟩ := List.mem_map.mp hi
    obtain rfl : j = s.getCounter := by simpa using hj
    exact h.gets_lt p hp
  · intro p hp
    rcases List.mem_append.mp hp with hp | hp
    · exact Nat.lt_succ_of_lt (h.gets_lt p hp)
    · obtain rfl := List.mem_singleton.mp hp
      exact Nat.lt_succ_self _
  · have hledger : (s.asked request sent).getLedger =
        { s.getLedger with
          issued := s.getLedger.issued + 1
          pending := s.getLedger.pending ++ [s.getLedger.issued] } := by
      simp [getLedger, FPersistentConnection.asked]
    rw [hledger]
    exact .single (.issue _)

/-- A read, in one update. -/
theorem getDataAtPath_eq (h : Wired s) (request : ρ) :
    s.getDataAtPath request = some (
      if s.canSendReads then sendAll [.get s.getCounter request] (s.asked request true)
      else if s.isConnected then s.asked request false
      else { s.asked request false with getTimers := s.getCounter :: s.getTimers }) := by
  have hnew := notMem_keys_of_lt h.gets_lt
  rw [getDataAtPath]
  dsimp only
  by_cases hcan : s.canSendReads = true
  · have hconn := isConnected_of_canSendWrites (s := s) hcan
    have hnot : ¬ (!s.isConnected) = true := by simp [hconn]
    rw [if_pos hcan, if_neg (by exact hnot), if_pos (by exact hcan), sendGet,
      if_pos (by exact hcan)]
    simp only [lookup_append_cons hnew, getSent_append_cons (r := []) hnew (by simp),
      Bool.false_eq_true, if_false]
    exact sendAction_eq (s := s.asked request true) (h.realtime_of_isConnected hconn) rfl
  · rw [if_neg hcan]
    by_cases hconn : s.isConnected = true
    · have hnot : ¬ (!s.isConnected) = true := by simp [hconn]
      rw [if_pos hconn, if_neg (by exact hnot), if_neg (by exact hcan)]
      rfl
    · have hnot : (!s.isConnected) = true := by simp [hconn]
      rw [if_neg hconn, if_pos (by exact hnot)]
      rfl

/-- A read runs through. -/
theorem Wired.getDataAtPath (h : Wired s) (request : ρ) : Runs s (s.getDataAtPath request) := by
  rw [getDataAtPath_eq h]
  split
  · rename_i hcan
    have hlink := h.realtime_of_isConnected (isConnected_of_canSendWrites (s := s) hcan)
    exact ((h.asked request true).sendAll hlink _).runs
  split
  · exact (h.asked request false).runs
  · have hasked := h.asked request false
    exact ⟨_, rfl, { hasked.wired with }, hasked.puts, hasked.gets, hasked.called⟩

/-- The indices that remain when one is taken out. -/
theorem keys_remove {α : Type} (i : Nat) (l : List (Nat × α)) :
    (l.filter fun p => decide (p.1 ≠ i)).map Prod.fst =
      (l.map Prod.fst).filter fun j => !(j == i) := by
  rw [List.filter_map]
  congr 1
  refine List.filter_congr fun p _ => ?_
  by_cases hp : p.1 = i
  · simp [hp]
  · simp [hp]

/-- A number that is there once is found once. -/
theorem filter_beq_eq {l : List Nat} {i : Nat} (h : l.Nodup) (hi : i ∈ l) :
    (l.filter fun j => j == i) = [i] := by
  rw [List.filter_beq, List.count_eq_one_of_mem h hi]
  rfl

/-- An index that is found is there. -/
theorem mem_keys_of_lookup {α : Type} {l : List (Nat × α)} {i : Nat}
    (h : (l.lookup i).isSome = true) : i ∈ l.map Prod.fst := by
  obtain ⟨a, ha⟩ := Option.isSome_iff_exists.mp h
  obtain ⟨l₁, l₂, rfl, -⟩ := List.lookup_eq_some_iff.mp ha
  simp

/-- A read is finished. -/
theorem Wired.finishGet (h : Wired s) (index : Nat) (status : String)
    (hindex : (s.outstandingGets.lookup index).isSome = true) :
    Follows s { s with
      outstandingGets := s.outstandingGets.filter fun p => p.1 ≠ index
      called := s.called ++ [(.get index, status)] } := by
  refine ⟨{ h with gets := ?_, gets_lt := ?_ }, ?_, ?_, List.prefix_append _ _⟩
  · exact h.gets.sublist (List.filter_sublist.map _)
  · exact fun p hp => h.gets_lt p (List.mem_of_mem_filter hp)
  · have hledger : putLedger { s with
        outstandingGets := s.outstandingGets.filter fun p => p.1 ≠ index
        called := s.called ++ [(.get index, status)] } = s.putLedger := by
      simp [putLedger, Callback.putIndex]
    rw [hledger]
    exact .refl _
  · have hledger : getLedger { s with
        outstandingGets := s.outstandingGets.filter fun p => p.1 ≠ index
        called := s.called ++ [(.get index, status)] } =
        { s.getLedger with
          pending := s.getLedger.pending.filter fun j => !(j == index)
          done := s.getLedger.done ++ s.getLedger.pending.filter fun j => j == index } := by
      simp only [getLedger, keys_remove, filter_beq_eq (nodup_of_ascending h.gets)
        (mem_keys_of_lookup hindex), List.filterMap_append]
      rfl
    rw [hledger]
    exact .single (.finish _ _)

/-- A timeout runs through. -/
theorem Wired.getTimesOut (h : Wired s) (index : Nat) : Runs s (some (s.getTimesOut index)) := by
  rw [FPersistentConnection.getTimesOut]
  split
  · dsimp only
    split
    · exact Wired.runs { h with } rfl rfl rfl
    · rename_i get hget
      split
      · exact Wired.runs { h with } rfl rfl rfl
      · have htimer : Wired { s with getTimers := s.getTimers.erase index } := { h with }
        have hfinish := htimer.finishGet index kFWPResponseForActionStatusFailed
          (by rw [hget]; rfl)
        exact Follows.andThen (htimer.follows rfl rfl List.prefix_rfl) hfinish.runs
  · exact h.runs rfl rfl rfl

/-- An action at a disconnect runs through. -/
theorem Wired.onDisconnectAction (h : Wired s) (request : ρ) :
    Runs s (s.onDisconnectAction request) := by
  have hcounter : Wired { s with onDisconnectCounter := s.onDisconnectCounter + 1 } := { h with }
  rw [FPersistentConnection.onDisconnectAction]
  dsimp only
  split
  · rename_i hcan
    have hlink := h.realtime_of_isConnected (isConnected_of_canSendWrites (s := s) hcan)
    exact Follows.andThen (hcounter.follows rfl rfl List.prefix_rfl) (hcounter.sendAction hlink rfl)
  · exact Wired.runs { h with } rfl rfl rfl

/-- A new token runs through. -/
theorem Wired.refreshAuthToken (h : Wired s) (token : Option String) :
    Runs s (s.refreshAuthToken token) := by
  have htoken : Wired { s with authToken := token } := { h with }
  rw [FPersistentConnection.refreshAuthToken]
  split
  · rename_i hconn
    have hlink := h.realtime_of_isConnected (s := s) hconn
    split
    · rename_i hsome
      rw [sendAuthAndRestoreStateAfterComplete,
        if_pos (by exact Bool.and_eq_true_iff.mpr ⟨hconn, hsome⟩)]
      exact Follows.andThen (htoken.follows rfl rfl List.prefix_rfl) (htoken.sendAction hlink rfl)
    · exact Follows.andThen (htoken.follows rfl rfl List.prefix_rfl) (htoken.sendAction hlink rfl)
  · exact htoken.runs rfl rfl rfl

/-- The answers that waited are passed on. -/
theorem Wired.ackPuts (h : Wired s) : Follows s s.ackPuts := by
  refine ⟨{ h with }, ?_, ?_, List.prefix_append _ _⟩
  · have hledger : s.ackPuts.putLedger =
        { s.putLedger with waiting := [], done := s.putLedger.done ++ s.putLedger.waiting } := by
      simp only [putLedger, FPersistentConnection.ackPuts, List.filterMap_append,
        List.filterMap_map]
      congr 2
      exact congrFun (List.filterMap_eq_map (f := Prod.fst)) _
    rw [hledger]
    exact .single (.flush _)
  · have hledger : s.ackPuts.getLedger = s.getLedger := by
      simp [getLedger, FPersistentConnection.ackPuts, Callback.getIndex]
    rw [hledger]
    exact .refl _

/-- A purge finishes all the writes of the account. -/
theorem Wired.purgeOutstandingWrites (h : Wired s) : Follows s s.purgeOutstandingWrites := by
  have hack := h.ackPuts
  have hcalled : s.ackPuts.called <+: s.purgeOutstandingWrites.called := by
    rw [FPersistentConnection.purgeOutstandingWrites, List.append_assoc]
    exact List.prefix_append _ _
  refine hack.trans
    ⟨{ hack.wired with puts := List.Pairwise.nil, puts_lt := ?_ }, ?_, ?_, hcalled⟩
  · simp [FPersistentConnection.purgeOutstandingWrites]
  · have hledger : s.purgeOutstandingWrites.putLedger =
        { s.ackPuts.putLedger with
          pending := s.ackPuts.putLedger.pending.filter fun _ => !true
          done :=
            s.ackPuts.putLedger.done ++ s.ackPuts.putLedger.pending.filter fun _ => true } := by
      simp only [putLedger, FPersistentConnection.purgeOutstandingWrites,
        insertionSort_keys hack.wired.puts]
      simp [List.filterMap_map, Function.comp_def, Callback.putIndex]
    rw [hledger]
    exact .single (.finish _ _)
  · have hledger : s.purgeOutstandingWrites.getLedger = s.ackPuts.getLedger := by
      simp [getLedger, FPersistentConnection.purgeOutstandingWrites, Callback.getIndex]
    rw [hledger]
    exact .refl _

/-- The revocation of listens keeps the invariant and the accounts. -/
theorem Wired.onListenRevoked (h : Wired s) (isAtPath : κ → Bool) :
    Follows s (s.onListenRevoked isAtPath) := by
  have hlistens : ∀ l ∈ (s.onListenRevoked isAtPath).listens,
      FQuerySpec.isListenable l.1 = true :=
    fun l hl => h.listenable l (List.mem_of_mem_filter hl)
  refine Wired.follows { h with listenable := hlistens } ?_ ?_ (List.prefix_append _ _)
  · simp [putLedger, FPersistentConnection.onListenRevoked, Callback.putIndex]
  · simp [getLedger, FPersistentConnection.onListenRevoked, Callback.getIndex]

omit [FQuerySpec κ] in
/-- The blocks that are kept without the one of a number. -/
theorem countP_remove {l : List (Nat × Request κ ρ)} {rn : Nat} {request : Request κ ρ}
    (h : (l.map Prod.fst).Nodup) (hlookup : l.lookup rn = some request) :
    l.countP (fun p => p.2.isListen) =
      (l.filter fun p => p.1 ≠ rn).countP (fun p => p.2.isListen) +
        if request.isListen then 1 else 0 := by
  obtain ⟨l₁, l₂, rfl, -⟩ := List.lookup_eq_some_iff.mp hlookup
  obtain ⟨hl₁, hl₂⟩ := notMem_of_nodup_keys h
  have hkeep : ∀ l : List (Nat × Request κ ρ), rn ∉ l.map Prod.fst →
      (l.filter fun p => decide (p.1 ≠ rn)) = l := by
    intro l hl
    rw [List.filter_eq_self]
    intro p hp
    exact decide_eq_true fun heq => hl (heq ▸ List.mem_map_of_mem hp)
  rw [List.filter_append, List.filter_cons_of_neg (by simp), hkeep l₁ hl₁, hkeep l₂ hl₂,
    List.countP_append, List.countP_append, List.countP_cons, Nat.add_assoc]

/-- The state without the block of a request that is not a listen. -/
theorem Wired.answered (h : Wired s) {rn : Nat} {request : Request κ ρ}
    (hlookup : s.requestCBHash.lookup rn = some request) (hlisten : request.isListen = false) :
    Wired { s with requestCBHash := s.requestCBHash.filter fun p => p.1 ≠ rn } := by
  refine { h with idle := ?_, numbers := ?_, numbers_lt := ?_, count := ?_ }
  · exact fun hne => h.idle fun heq => hne (by simp [heq])
  · exact h.numbers.sublist (List.filter_sublist.map _)
  · exact fun p hp => h.numbers_lt p (List.mem_of_mem_filter hp)
  · have hcount := countP_remove h.numbers hlookup
    simp only [hlisten, Bool.false_eq_true, if_false, Nat.add_zero] at hcount
    rw [h.count, hcount]

section Listens

variable [DecidableEq κ]

/-- A listen to a query that is not listened to, and passes the assertion on it. -/
theorem Wired.listen (h : Wired s) {query : κ} (hquery : s.listens.lookup query = none)
    (hlistenable : FQuerySpec.isListenable query = true) : Runs s (s.listen query) := by
  have hlisten : Wired { s with
      listens := s.listens ++ [(query, s.listenCounter)]
      listenCounter := s.listenCounter + 1 } := by
    refine { h with listenable := ?_ }
    intro l hl
    rcases List.mem_append.mp hl with hl | hl
    · exact h.listenable l hl
    · rw [List.mem_singleton.mp hl]
      exact hlistenable
  rw [FPersistentConnection.listen, if_neg (by simp [hquery]), if_neg (by simp [hlistenable])]
  dsimp only
  split
  · rename_i hconn
    have hlink := hlisten.realtime_of_isConnected hconn
    rw [sendListen_eq hlink]
    exact (Follows.sendAll (s := s) (hlisten.follows rfl rfl List.prefix_rfl) hlink _).runs
  · exact hlisten.runs rfl rfl rfl

/-- The end of a listen, which fails on a query that no listen is possible to. -/
theorem removeListen_eq {query : κ} (h : FQuerySpec.isListenable query = true)
    (s : FPersistentConnection κ ρ) :
    s.removeListen query = some { s with listens := s.listens.filter fun l => l.1 ≠ query } :=
  if_pos h

/-- The end of a listen, with what it tells the server. -/
theorem Wired.unlisten (h : Wired s) {query : κ}
    (hlistenable : FQuerySpec.isListenable query = true) : Runs s (s.unlisten query) := by
  have hremove : Wired { s with listens := s.listens.filter fun l => l.1 ≠ query } :=
    { h with listenable := fun l hl => h.listenable l (List.mem_of_mem_filter hl) }
  rw [FPersistentConnection.unlisten, removeListen_eq hlistenable, Option.bind_some]
  split
  · rename_i hconn
    rw [Bool.and_eq_true] at hconn
    exact Follows.andThen (hremove.follows rfl rfl List.prefix_rfl)
      (hremove.sendAction (h.realtime_of_isConnected hconn.2) rfl)
  · exact hremove.runs rfl rfl rfl

/-! ### Answers of the server -/

/-- The block of a write, whose answer is passed on or waits for the listens. -/
theorem Wired.onPutResponse (h : Wired s) (status : String) (index : Nat) (request : ρ) :
    Runs s (s.onResponse status (.put index request)) := by
  rw [onResponse]
  split
  · rename_i hindex
    have hpending : s.putLedger.pending.filter (fun j => j == index) = [index] :=
      filter_beq_eq (nodup_of_ascending h.puts) (mem_keys_of_lookup hindex)
    have hwired : Wired { s with
        outstandingPuts := s.outstandingPuts.filter fun p => p.1 ≠ index } := { h with
      puts := h.puts.sublist (List.filter_sublist.map _)
      puts_lt := fun p hp => h.puts_lt p (List.mem_of_mem_filter hp) }
    dsimp only
    split
    · have hledger : putLedger { s with
          outstandingPuts := s.outstandingPuts.filter fun p => p.1 ≠ index
          called := s.called ++ [(.put index, status)] } =
          { s.putLedger with
            pending := s.putLedger.pending.filter fun j => !(j == index)
            done := s.putLedger.done ++ s.putLedger.pending.filter fun j => j == index } := by
        rw [hpending]
        simp only [putLedger, keys_remove, List.filterMap_append]
        rfl
      have hgets : getLedger { s with
          outstandingPuts := s.outstandingPuts.filter fun p => p.1 ≠ index
          called := s.called ++ [(.put index, status)] } = s.getLedger := by
        simp [getLedger, Callback.getIndex]
      exact ⟨_, rfl, { hwired with }, hledger ▸ .single (.finish _ _), hgets ▸ .refl _,
        List.prefix_append _ _⟩
    · have hledger : putLedger { s with
          outstandingPuts := s.outstandingPuts.filter fun p => p.1 ≠ index
          putsToAck := s.putsToAck ++ [(index, status)] } =
          { s.putLedger with
            pending := s.putLedger.pending.filter fun j => !(j == index)
            waiting := s.putLedger.waiting ++ s.putLedger.pending.filter fun j => j == index } := by
        rw [hpending]
        simp only [putLedger, keys_remove, List.map_append]
        rfl
      exact ⟨_, rfl, { hwired with }, hledger ▸ .single (.hold _ _), .refl _, List.prefix_rfl⟩
  · exact h.runs rfl rfl rfl

/-- What the block of a listen changes: the listens, which become fewer or stay, and what was
called. -/
theorem listenAnswered_eq (h : ∀ l ∈ s.listens, FQuerySpec.isListenable l.1 = true)
    (status : String) (query : κ) (id : Nat) :
    ∃ ls cs, s.listenAnswered status query id =
        some { s with listens := ls, called := s.called ++ cs } ∧ ls ⊆ s.listens ∧
      cs.filterMap (fun c => c.1.putIndex) = [] ∧ cs.filterMap (fun c => c.1.getIndex) = [] := by
  rw [listenAnswered]
  split
  · rename_i hlookup
    have hlistenable : FQuerySpec.isListenable query = true := by
      obtain ⟨l₁, l₂, heq, -⟩ := List.lookup_eq_some_iff.mp hlookup
      exact h (query, id) (by simp [heq])
    split
    · rw [removeListen_eq hlistenable]
      exact ⟨_, _, rfl, List.filter_subset_self _, rfl, rfl⟩
    · exact ⟨_, _, rfl, List.Subset.refl _, rfl, rfl⟩
  · exact ⟨s.listens, [], by rw [List.append_nil], List.Subset.refl _, rfl, rfl⟩

/-- The block of a listen. -/
theorem Wired.onListenResponse (h : Wired s) {rn : Nat} (status : String) {query : κ} {id : Nat}
    (hlookup : s.requestCBHash.lookup rn = some (.listen query id)) :
    Runs s ({ s with requestCBHash := s.requestCBHash.filter fun p => p.1 ≠ rn }.onResponse
      status (.listen query id)) := by
  have hcount : s.unackedListensCount =
      (s.requestCBHash.filter fun p => p.1 ≠ rn).countP (fun p => p.2.isListen) + 1 :=
    h.count.trans (countP_remove h.numbers hlookup)
  obtain ⟨ls, cs, heq, hls, hputs, hgets⟩ := listenAnswered_eq
    (s := { s with requestCBHash := s.requestCBHash.filter fun p => p.1 ≠ rn })
    h.listenable status query id
  have hwired : Wired { s with
      requestCBHash := s.requestCBHash.filter fun p => p.1 ≠ rn
      listens := ls
      called := s.called ++ cs
      unackedListensCount := s.unackedListensCount - 1 } := by
    refine { h with idle := ?_, numbers := ?_, numbers_lt := ?_, count := ?_, listenable := ?_ }
    · exact fun hne => h.idle fun heq => hne (by simp [heq])
    · exact h.numbers.sublist (List.filter_sublist.map _)
    · exact fun p hp => h.numbers_lt p (List.mem_of_mem_filter hp)
    · rw [hcount]
      rfl
    · exact fun l hl => h.listenable l (hls hl)
  have hfollows : Follows s { s with
      requestCBHash := s.requestCBHash.filter fun p => p.1 ≠ rn
      listens := ls
      called := s.called ++ cs
      unackedListensCount := s.unackedListensCount - 1 } := by
    refine hwired.follows ?_ ?_ (List.prefix_append _ _)
    · simp only [putLedger, List.filterMap_append, hputs, List.append_nil]
    · simp only [getLedger, List.filterMap_append, hgets, List.append_nil]
  have hpos : s.unackedListensCount ≠ 0 := by
    rw [hcount]
    exact Nat.succ_ne_zero _
  rw [onResponse, heq, Option.bind_some, if_neg hpos]
  dsimp only
  split
  · exact (hfollows.trans hfollows.wired.ackPuts).runs
  · exact hfollows.runs

/-- The block of an authentication. -/
theorem Wired.onAuthResponse (h : Wired s) (hlink : s.realtime = some .connected)
    (status : String) (restoreStateAfterComplete : Bool) :
    Runs s (s.onResponse status (.auth restoreStateAfterComplete)) := by
  have hstate : linkOf s.connectionState = some .connected := h.link.symm.trans hlink
  have hwired : Wired { s with connectionState := .connected } := by
    refine { h with link := hlink, retry := ?_, fetching := ?_ }
    · intro hretry
      rw [h.retry hretry] at hstate
      cases hstate
    · intro hfetch
      rcases h.fetching hfetch with hs | hs
      · rw [hs] at hstate
        cases hstate
      · rw [hs] at hstate
        cases hstate
  have hfollows : Follows s { s with connectionState := .connected } :=
    hwired.follows rfl rfl List.prefix_rfl
  rw [onResponse]
  dsimp only
  split
  · split
    · rw [hwired.restoreState_eq rfl]
      exact (hfollows.trans (hwired.restored hlink)).runs
    · exact hfollows.runs
  · have hrevoked : Wired { s with
        connectionState := .connected, authToken := none, forceTokenRefreshes := true } :=
      { hwired with }
    exact Follows.andThen (hrevoked.follows rfl rfl List.prefix_rfl) hrevoked.closeRealtime

/-- Every answer of the server runs through. -/
theorem Wired.onDataMessage (h : Wired s) (rn : Nat) (status : String) :
    Runs s (s.onDataMessage rn status) := by
  rw [FPersistentConnection.onDataMessage]
  split
  · exact h.runs rfl rfl rfl
  · rename_i request hlookup
    cases request with
    | listen query id => exact h.onListenResponse status hlookup
    | put index request =>
        have hs := h.answered hlookup rfl
        exact Follows.andThen (hs.follows rfl rfl List.prefix_rfl)
          (hs.onPutResponse status index request)
    | get index request =>
        have hs := h.answered hlookup rfl
        rw [onResponse]
        split
        · rename_i hindex
          exact Follows.andThen (hs.follows rfl rfl List.prefix_rfl)
            (hs.finishGet index status hindex).runs
        · exact hs.runs rfl rfl rfl
    | auth restoreStateAfterComplete =>
        have hs := h.answered hlookup rfl
        have hlink : s.realtime = some .connected := by
          refine h.idle fun heq => ?_
          rw [heq] at hlookup
          cases hlookup
        exact Follows.andThen (hs.follows rfl rfl List.prefix_rfl)
          (hs.onAuthResponse hlink status _)
    | onDisconnect id request =>
        have hs := h.answered hlookup rfl
        refine Follows.runs (Wired.follows { hs with } ?_ ?_ (List.prefix_append _ _))
        · simp [putLedger, Callback.putIndex]
        · simp [getLedger, Callback.getIndex]
    | stats | unauth | unlisten query => exact (h.answered hlookup rfl).runs rfl rfl rfl

/-! ### Every event -/

/-- The events on which the connection fails: a second listen to a query, a call for a complete
query that is not the default one, and an error message of the server. -/
def Fails (s : FPersistentConnection κ ρ) : Event κ ρ → Prop
  | .listen query =>
      (s.listens.lookup query).isSome = true ∨ FQuerySpec.isListenable query = false
  | .unlisten query => FQuerySpec.isListenable query = false
  | .serverError => s.realtime = some .connected
  | _ => False

/-- **No assertion fails** on any other event; the invariant is kept, and the accounts move by
steps. -/
theorem handle_wired (h : Wired s) (e : Event κ ρ) (hok : ¬ Fails s e) :
    Runs s (s.handle e) := by
  cases e with
  | listen query =>
      have hno := not_or.mp hok
      rw [Bool.not_eq_false] at hno
      exact h.listen (Option.not_isSome_iff_eq_none.mp hno.1) hno.2
  | unlisten query =>
      exact h.unlisten (by simpa [Fails] using hok)
  | serverError =>
      rw [handle, onServerError, if_neg (by exact hok)]
      exact h.runs rfl rfl rfl
  | putData request hash => exact h.putInternal request hash
  | getData request => exact h.getDataAtPath request
  | getTimesOut index => exact h.getTimesOut index
  | onDisconnectAction request => exact h.onDisconnectAction request
  | refreshAuthToken token => exact h.refreshAuthToken token
  | purgeOutstandingWrites => exact h.purgeOutstandingWrites.runs
  | interrupt reason => exact h.interruptForReason reason
  | resume reason => exact h.resumeForReason reason
  | enteringForeground => exact h.enteringForeground
  | retryFires => exact h.retryFires
  | contextFetched attempt context => exact h.contextFetched attempt context
  | ready => exact h.onReady
  | response rn status => exact h.onDataMessage rn status
  | authRevoked =>
      rw [handle]
      split
      · have hrevoked : Wired { s with authToken := none, forceTokenRefreshes := true } :=
          { h with }
        exact Follows.andThen (hrevoked.follows rfl rfl List.prefix_rfl) hrevoked.closeRealtime
      · exact h.runs rfl rfl rfl
  | listenRevoked isAtPath =>
      rw [handle]
      split
      · exact (h.onListenRevoked isAtPath).runs
      · exact h.runs rfl rfl rfl
  | connectionLost => exact h.closeRealtime
  | killed =>
      rw [handle]
      split
      · exact h.interruptForReason .serverKill
      · exact h.runs rfl rfl rfl

end Listens

end FPersistentConnection

end FirebaseLogin
