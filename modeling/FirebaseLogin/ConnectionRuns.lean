import FirebaseLogin.ConnectionMoves

/-!
# Runs of the Connection

What holds of the persistent connection in every run, whatever the order of the calls of the
client, the timers, the answers of the server and the losses of the network connection.

## Main results

* `handle_eq_none_iff`: **exactly when an assertion fails or an exception is thrown.**
* `requests_accounted`: every write and every read is outstanding or was called back, once.
* `sent_get_never_called`: a read that was sent on a connection that is lost is never called back.
* `held_put_never_called`: a write whose answer is held back when the connection is lost is never
  called back, unless the client listens again or purges its writes.
-/

namespace FirebaseLogin

namespace FPersistentConnection

variable {κ ρ : Type}

/-! ### Reads whose answer nothing waits for -/

/-- A plain request is no read. -/
theorem ne_get_of_isPlain {r : Request κ ρ} (hr : r.isPlain = true) (i : Nat) (request : ρ) :
    r ≠ .get i request := by
  rintro rfl
  cases hr

/-- A plain request is no listen. -/
theorem isListen_of_isPlain {r : Request κ ρ} (hr : r.isPlain = true) : r.isListen = false := by
  cases r with
  | listen query id => cases hr
  | stats | auth | unauth | unlisten | put | get | onDisconnect => rfl

/-- A read that was sent, and no block waits for its answer. -/
structure Orphaned (i : Nat) (get : FOutstandingGet ρ) (c : Core κ ρ) : Prop where
  mem : (i, get) ∈ c.gets
  sent : get.sent = true
  block : ∀ p ∈ c.blocks, ∀ request, p.2 ≠ .get i request

namespace Orphaned

variable {i : Nat} {get : FOutstandingGet ρ} {c c' : Core κ ρ} (h : Orphaned i get c)
include h

/-- Other requests leave the read as it is. -/
theorem sendAll {rs : List (Request κ ρ)} (hrs : ∀ r ∈ rs, ∀ request, r ≠ .get i request) :
    Orphaned i get (c.sendAll rs) := by
  refine { h with block := ?_ }
  intro p hp
  rcases Core.mem_blocks_sendAll hp with hp | hp
  · exact h.block p hp
  · exact hrs p.2 hp

/-- An answer leaves the read as it is. -/
theorem answered (rn : Nat) : Orphaned i get (c.answered rn) :=
  { h with block := fun p hp => h.block p (List.mem_of_mem_filter hp) }

/-- The read is not sent again with the others. -/
theorem restored (hkeys : (c.gets.map Prod.fst).Nodup) {rs : List (Request κ ρ)}
    (hrs : ∀ r ∈ rs, r.isPlain = true) : Orphaned i get (c.restored rs) := by
  have hsent : Orphaned i get { c with
      phase := .connected, puts := allPutsSent c.puts, gets := allGetsSent c.gets } := by
    refine { h with mem := ?_ }
    have hsame : (i, { get with sent := true }) = (i, get) := by rw [← h.sent]
    exact hsame ▸ List.mem_map_of_mem h.mem
  refine hsent.sendAll ?_
  intro r hr request
  simp only [Core.restoring, List.mem_append, List.mem_map, putRequests, getRequests] at hr
  rcases hr with ((⟨l, -, rfl⟩ | ⟨p, -, rfl⟩) | ⟨p, hp, rfl⟩) | hr
  · simp
  · simp
  · -- a read of this index would be the one that was sent
    rintro heq
    obtain ⟨rfl, -⟩ := Request.get.inj heq
    obtain ⟨hp, hunsent⟩ := List.mem_filter.mp hp
    have hget : p.2 = get := by
      have hpair := List.inj_on_of_nodup_map hkeys hp h.mem rfl
      exact congrArg Prod.snd hpair
    rw [hget, h.sent] at hunsent
    cases hunsent
  · exact ne_get_of_isPlain (hrs r hr) i request

/-- The read stays when another one is taken out. -/
theorem mem_remove {j : Nat} (hne : i ≠ j) : (i, get) ∈ c.gets.filter fun p => p.1 ≠ j :=
  List.mem_filter.mpr ⟨h.mem, decide_eq_true hne⟩

/-- No move answers the read. -/
theorem move (hkeys : (c.gets.map Prod.fst).Nodup) {k : Kind ρ} (hmove : Move c k c') :
    Orphaned i get c' := by
  cases hmove with
  | keep ls => exact { h with }
  | send ls rs hphase hls hrs =>
      have hkeep : Orphaned i get { c with listens := ls } := { h with }
      exact hkeep.sendAll fun r hr => ne_get_of_isPlain (hrs r hr) i
  | listenLater l => exact { h with }
  | listenNow l =>
      have hkeep : Orphaned i get { c with listens := c.listens ++ [l] } := { h with }
      exact hkeep.sendAll (by simp)
  | putLater request hash => exact { h with }
  | putNow request hash =>
      have hkeep : Orphaned i get (c.issued c.putCounter ⟨request, hash, true⟩) := { h with }
      exact hkeep.sendAll (by simp)
  | getLater j request hnew => exact { h with mem := List.mem_append_left _ h.mem }
  | getNow j request hphase hnew =>
      have hkeep : Orphaned i get (c.asked j ⟨request, true⟩) :=
        { h with mem := List.mem_append_left _ h.mem }
      refine hkeep.sendAll ?_
      intro r hr request heq
      obtain rfl := List.mem_singleton.mp hr
      obtain ⟨rfl, -⟩ := Request.get.inj heq
      exact hnew (List.mem_map_of_mem h.mem)
  | getTimesOut j get' hget hunsent =>
      -- the read that times out was not sent
      refine { h with mem := h.mem_remove ?_ }
      rintro rfl
      obtain ⟨l₁, l₂, hsplit, -⟩ := List.lookup_eq_some_iff.mp hget
      have hmem : (i, get') ∈ c.gets := by simp [hsplit]
      have hpair := List.inj_on_of_nodup_map hkeys h.mem hmem rfl
      obtain rfl : get = get' := congrArg Prod.snd hpair
      rw [h.sent] at hunsent
      cases hunsent
  | purge => exact { h with }
  | lose => exact { h with block := by simp [Core.lost] }
  | authenticate rs hphase hrs =>
      have hkeep : Orphaned i get { c with phase := .authenticating } := { h with }
      refine hkeep.sendAll ?_
      intro r hr request
      rcases List.mem_append.mp hr with hr | hr
      · simp [hrs r hr]
      · simp [List.mem_singleton.mp hr]
  | ready rs rs' hphase hrs hrs' =>
      have hkeep : Orphaned i get { c with phase := .connected } := { h with }
      have hstats : ∀ r ∈ rs, ∀ request, r ≠ .get i request := by
        intro r hr request
        simp [hrs r hr]
      have hsend := hkeep.sendAll hstats
      exact hsend.restored hkeys hrs'
  | ignored rn => exact h
  | plainAnswered rn => exact h.answered rn
  | authAnswered rn => exact { h.answered rn with }
  | authRestores rn rs hrn hrs => exact (h.answered rn).restored hkeys hrs
  | authRejected rn => exact { h with block := by simp [Core.lost] }
  | putGone rn => exact h.answered rn
  | putAnswered rn j request => exact { h.answered rn with }
  | putHeld rn j request status => exact { h.answered rn with }
  | getAnswered rn j request hrn =>
      refine { h.answered rn with mem := h.mem_remove ?_ }
      rintro rfl
      obtain ⟨l₁, l₂, hsplit, -⟩ := List.lookup_eq_some_iff.mp hrn
      exact h.block (rn, .get i request) (by simp [hsplit]) request rfl
  | listenAnswered rn query id ls => exact { h.answered rn with }
  | listensAnswered rn query id ls => exact { h.answered rn with }

end Orphaned

/-! ### Writes whose answer is held back -/

/-- The client listens to nothing, and no listen is unanswered: the answers that are held back
wait for nothing. -/
structure Stranded (acks : List (Nat × String)) (c : Core κ ρ) : Prop where
  listens : c.listens = []
  block : ∀ p ∈ c.blocks, p.2.isListen = false
  acks : c.putsToAck = acks

namespace Stranded

variable {acks : List (Nat × String)} {c c' : Core κ ρ} (h : Stranded acks c)
include h

/-- Requests without a listen leave the answers held back. -/
theorem sendAll {rs : List (Request κ ρ)} (hrs : ∀ r ∈ rs, r.isListen = false) :
    Stranded acks (c.sendAll rs) := by
  refine { h with block := ?_ }
  intro p hp
  rcases Core.mem_blocks_sendAll hp with hp | hp
  · exact h.block p hp
  · exact hrs p.2 hp

/-- An answer leaves the answers held back. -/
theorem answered (rn : Nat) : Stranded acks (c.answered rn) :=
  { h with block := fun p hp => h.block p (List.mem_of_mem_filter hp) }

/-- A connection restored without a listen leaves the answers held back. -/
theorem restored {rs : List (Request κ ρ)} (hrs : ∀ r ∈ rs, r.isListen = false) :
    Stranded acks (c.restored rs) := by
  have hkeep : Stranded acks { c with
      phase := .connected, puts := allPutsSent c.puts, gets := allGetsSent c.gets } := { h with }
  refine hkeep.sendAll ?_
  intro r hr
  simp only [Core.restoring, List.mem_append, List.mem_map, putRequests, getRequests,
    h.listens] at hr
  rcases hr with ((⟨l, hl, -⟩ | ⟨p, -, rfl⟩) | ⟨p, -, rfl⟩) | hr
  · cases hl
  · rfl
  · rfl
  · exact hrs r hr

/-- Fewer listens leave the answers held back. -/
theorem subset {ls : List (κ × Nat)} (hls : ls ⊆ c.listens) :
    Stranded acks { c with listens := ls } :=
  { h with listens := List.subset_nil.mp (h.listens ▸ hls) }

/-- No move but a listen and a purge passes the answers on. -/
theorem move {k : Kind ρ} (hlisten : k ≠ .listen) (hpurge : k ≠ .purge) (hmove : Move c k c') :
    Stranded acks c' := by
  have hlookup : ∀ {rn : Nat} {query : κ} {id : Nat},
      c.blocks.lookup rn ≠ some (.listen query id) := by
    intro rn query id hrn
    obtain ⟨l₁, l₂, hsplit, -⟩ := List.lookup_eq_some_iff.mp hrn
    have hblock := h.block (rn, .listen query id) (by simp [hsplit])
    cases hblock
  cases hmove with
  | keep ls hls => exact h.subset hls
  | send ls rs hphase hls hrs =>
      exact (h.subset hls).sendAll fun r hr => isListen_of_isPlain (hrs r hr)
  | listenLater | listenNow => exact absurd rfl hlisten
  | putLater request hash => exact { h with }
  | putNow request hash =>
      have hkeep : Stranded acks (c.issued c.putCounter ⟨request, hash, true⟩) := { h with }
      exact hkeep.sendAll (by simp [Request.isListen])
  | getLater i request => exact { h with }
  | getNow i request =>
      have hkeep : Stranded acks (c.asked i ⟨request, true⟩) := { h with }
      exact hkeep.sendAll (by simp [Request.isListen])
  | getTimesOut i get => exact { h with }
  | purge => exact absurd rfl hpurge
  | lose => exact { h with block := by simp [Core.lost] }
  | authenticate rs hphase hrs =>
      have hkeep : Stranded acks { c with phase := .authenticating } := { h with }
      refine hkeep.sendAll ?_
      intro r hr
      rcases List.mem_append.mp hr with hr | hr
      · rw [hrs r hr]
        rfl
      · rw [List.mem_singleton.mp hr]
        rfl
  | ready rs rs' hphase hrs hrs' =>
      have hkeep : Stranded acks { c with phase := .connected } := { h with }
      have hstats : ∀ r ∈ rs, r.isListen = false := by
        intro r hr
        rw [hrs r hr]
        rfl
      have hsend := hkeep.sendAll hstats
      exact hsend.restored fun r hr => isListen_of_isPlain (hrs' r hr)
  | ignored rn => exact h
  | plainAnswered rn => exact h.answered rn
  | authAnswered rn => exact { h.answered rn with }
  | authRestores rn rs hrn hrs =>
      exact (h.answered rn).restored fun r hr => isListen_of_isPlain (hrs r hr)
  | authRejected rn => exact { h with block := by simp [Core.lost] }
  | putGone rn => exact h.answered rn
  | putAnswered rn i request => exact { h.answered rn with }
  | putHeld rn i request status hrn hlistens =>
      obtain ⟨p, hp, hislisten⟩ := hlistens
      rw [h.block p hp] at hislisten
      cases hislisten
  | getAnswered rn i request => exact { h.answered rn with }
  | listenAnswered rn query id ls hrn => exact absurd hrn hlookup
  | listensAnswered rn query id ls hrn => exact absurd hrn hlookup

end Stranded

/-! ### Every run -/

section Runs

variable [FQuerySpec κ] {s s' : FPersistentConnection κ ρ}

/-- Without an open connection no block waits for an answer. -/
theorem Wired.blocks_of_realtime (hw : Wired s) (h : s.realtime ≠ some .connected) :
    s.requestCBHash = [] := by
  by_contra hne
  exact h (hw.idle hne)

omit [FQuerySpec κ] in
/-- A write is finished when its block was called. -/
theorem mem_done_iff {index : Nat} :
    index ∈ s.putLedger.done ↔ ∃ status, (.put index, status) ∈ s.called := by
  constructor
  · intro hmem
    obtain ⟨⟨c, status⟩, hc, hindex⟩ := List.mem_filterMap.mp hmem
    cases c with
    | put i =>
        obtain rfl : i = index := Option.some.inj hindex
        exact ⟨status, hc⟩
    | get | listen | onDisconnect => cases hindex
  · rintro ⟨status, hc⟩
    exact List.mem_filterMap.mpr ⟨_, hc, rfl⟩

variable [DecidableEq κ]

/-- The connection does fail on the events of `Fails`. -/
theorem handle_of_fails {e : Event κ ρ} (h : Fails s e) : s.handle e = none := by
  cases e with
  | listen query =>
      rw [handle, listen]
      rcases h with hsecond | hquery
      · rw [if_pos hsecond]
      · rw [if_pos (by simp [hquery] : (!FQuerySpec.isListenable query) = true), ite_self]
  | unlisten query =>
      have hquery : FQuerySpec.isListenable query = false := h
      rw [handle, unlisten, removeListen, if_neg (by simp [hquery]), Option.bind_none]
  | serverError => exact if_pos h
  | putData | getData | getTimesOut | onDisconnectAction | refreshAuthToken
  | purgeOutstandingWrites | interrupt | resume | enteringForeground | retryFires
  | contextFetched | ready | response | authRevoked | listenRevoked | connectionLost | killed =>
      exact h.elim

/-- A step keeps the invariant, and moves the accounts. -/
theorem step_follows (hw : Wired s) {e : Event κ ρ} (h : (system κ ρ).step s e = some s') :
    Follows s s' := by
  have hok : ¬ Fails s e := by
    intro hfails
    rw [show (system κ ρ).step s e = none from handle_of_fails hfails] at h
    cases h
  obtain ⟨u, hu, hfollows⟩ := handle_wired hw e hok
  obtain rfl : u = s' := Option.some.inj (hu.symm.trans h)
  exact hfollows

/-- The invariant and the accounts in every state of a run. -/
theorem reachable_follows (r : (system κ ρ).Reachable s) : Follows initial s := by
  refine r.invariant ?_ ?_
  · rintro s rfl
    exact wired_initial.follows rfl rfl List.prefix_rfl
  · intro t e u ht hstep
    exact ht.trans (step_follows ht.wired hstep)

/-- The state after events that run through. -/
def after (s : FPersistentConnection κ ρ) (es : List (Event κ ρ)) : FPersistentConnection κ ρ :=
  ((system κ ρ).exec s es).getD s

/-- Events that run through lead to `after`. -/
theorem exec_after (es : List (Event κ ρ)) (h : ((system κ ρ).exec s es).isSome = true) :
    (system κ ρ).exec s es = some (s.after es) := by
  obtain ⟨u, hu⟩ := Option.isSome_iff_exists.mp h
  rw [after, hu, Option.getD_some]

/-- The state after events that run through from the start is one of a run. -/
theorem reachable_after (es : List (Event κ ρ))
    (h : ((system κ ρ).exec initial es).isSome = true) :
    (system κ ρ).Reachable (initial.after es) :=
  .of_exec rfl (exec_after es h)

/-- The queries of the concrete runs. Query `0` takes all the data at its path, in another order
than the default one. -/
instance : FQuerySpec Nat where
  isDefault query := query != 0
  loadsAllData _ := true

/-- A client opens its connection without a token, and again after it was lost. -/
def openings : Nat → List (Event Nat String)
  | 0 => [.resume .waitingForOpen, .retryFires, .contextFetched 1 (some none), .ready]
  | n + 1 => [.retryFires, .contextFetched (n + 2) (some none), .ready]

/-- **The assertions and exceptions.** In a state of a run the handler of an event fails exactly
when a query is listened to a second time, when a query that is listened to or unlistened is
complete and not the default one, and when the server sends an error message over the open
connection. -/
theorem handle_eq_none_iff (r : (system κ ρ).Reachable s) (e : Event κ ρ) :
    s.handle e = none ↔
      (∃ query, e = .listen query ∧ ((s.listens.lookup query).isSome = true ∨
        (FQuerySpec.isDefault query = false ∧ FQuerySpec.loadsAllData query = true))) ∨
      (∃ query, e = .unlisten query ∧
        FQuerySpec.isDefault query = false ∧ FQuerySpec.loadsAllData query = true) ∨
      (e = .serverError ∧ s.realtime = some .connected) := by
  have hquery : ∀ query : κ, FQuerySpec.isListenable query = false ↔
      FQuerySpec.isDefault query = false ∧ FQuerySpec.loadsAllData query = true := by
    intro query
    rw [FQuerySpec.isListenable, Bool.or_eq_false_iff, Bool.not_eq_false']
  have hfails : s.handle e = none ↔ Fails s e := by
    refine ⟨fun hnone => ?_, handle_of_fails⟩
    by_contra hok
    obtain ⟨u, hu, -⟩ := handle_wired (reachable_follows r).wired e hok
    rw [hnone] at hu
    cases hu
  rw [hfails]
  cases e with
  | listen query => simp [Fails, hquery]
  | unlisten query => simp [Fails, hquery]
  | serverError => simp [Fails]
  | putData | getData | getTimesOut | onDisconnectAction | refreshAuthToken
  | purgeOutstandingWrites | interrupt | resume | enteringForeground | retryFires
  | contextFetched | ready | response | authRevoked | listenRevoked | connectionLost | killed =>
      simp [Fails]

/-- The four ways to fail, on an open connection that listens to query `7`. -/
theorem handle_eq_none_iff_openConnection :
    let s := initial.after (openings 0 ++ [.listen 7])
    s.handle (.listen 7) = none ∧ s.handle (.listen 0) = none ∧
      s.handle (.unlisten 0) = none ∧ s.handle .serverError = none ∧
      (s.handle (.listen 8)).isSome = true := by
  intro s
  have r : (system Nat String).Reachable s := reachable_after _ rfl
  refine ⟨(handle_eq_none_iff r _).mpr (.inl ⟨7, rfl, .inl rfl⟩),
    (handle_eq_none_iff r _).mpr (.inl ⟨0, rfl, .inr ⟨rfl, rfl⟩⟩),
    (handle_eq_none_iff r _).mpr (.inr (.inl ⟨0, rfl, rfl, rfl⟩)),
    (handle_eq_none_iff r _).mpr (.inr (.inr ⟨rfl, rfl⟩)), ?_⟩
  rw [Option.isSome_iff_ne_none, ne_eq, handle_eq_none_iff r]
  rintro (⟨query, hquery, hfails⟩ | ⟨query, hquery, -⟩ | ⟨hquery, -⟩)
  · cases hquery
    rcases hfails with h | h
    · exact absurd h (by decide)
    · exact absurd h.1 (by decide)
  · cases hquery
  · cases hquery

/-- The account of the writes balances in every state of a run. -/
theorem putLedger_accounted (r : (system κ ρ).Reachable s) : s.putLedger.Accounted :=
  (reachable_follows r).puts.accounted Ledger.accounted_empty

/-- The account of the reads balances in every state of a run. -/
theorem getLedger_accounted (r : (system κ ρ).Reachable s) : s.getLedger.Accounted :=
  (reachable_follows r).gets.accounted Ledger.accounted_empty

omit [FQuerySpec κ] in
/-- How often the block of a write was called, counted in two ways. -/
theorem count_putIndex (index : Nat) (cs : List (Callback κ × String)) :
    (cs.filterMap fun c => c.1.putIndex).count index = cs.countP fun c => c.1 = .put index := by
  rw [List.count_filterMap]
  refine List.countP_congr fun c _ => ?_
  cases hc : c.1 with
  | put i => simp [Callback.putIndex]
  | get | listen | onDisconnect => simp [Callback.putIndex]

omit [FQuerySpec κ] in
/-- How often the block of a read was called, counted in two ways. -/
theorem count_getIndex (index : Nat) (cs : List (Callback κ × String)) :
    (cs.filterMap fun c => c.1.getIndex).count index = cs.countP fun c => c.1 = .get index := by
  rw [List.count_filterMap]
  refine List.countP_congr fun c _ => ?_
  cases hc : c.1 with
  | get i => simp [Callback.getIndex]
  | put | listen | onDisconnect => simp [Callback.getIndex]

/-- **No write and no read is lost or called back twice.** In a state of a run every write that
was issued is outstanding, or its answer is held back, or its block was called, and this once;
and every read is outstanding or its block was called, once. -/
theorem requests_accounted (r : (system κ ρ).Reachable s) (index : Nat) :
    ((s.outstandingPuts.map Prod.fst).count index + (s.putsToAck.map Prod.fst).count index +
        s.called.countP fun c => c.1 = .put index) = (if index < s.putCounter then 1 else 0) ∧
      ((s.outstandingGets.map Prod.fst).count index +
        s.called.countP fun c => c.1 = .get index) = (if index < s.getCounter then 1 else 0) := by
  have hputs := (putLedger_accounted r).count_eq index
  have hgets := (getLedger_accounted r).count_eq index
  simp only [putLedger, getLedger, count_putIndex, count_getIndex, List.count_nil,
    Nat.add_zero] at hputs hgets
  exact ⟨hputs, hgets⟩

/-- A write whose answer comes before that of a listen, then a loss and the end of the listen. -/
def heldPut : List (Event Nat String) :=
  openings 0 ++ [.listen 7, .putData "a" none, .response 2 "ok", .connectionLost, .unlisten 7]

/-- The one write is accounted for once, its answer being held back. -/
theorem requests_accounted_heldPut :
    (initial.after heldPut).putCounter = 1 ∧
      ((initial.after heldPut).outstandingPuts.map Prod.fst).count 0 +
        ((initial.after heldPut).putsToAck.map Prod.fst).count 0 +
        ((initial.after heldPut).called.countP fun c => c.1 = .put 0) = 1 :=
  ⟨rfl, (requests_accounted (reachable_after heldPut rfl) 0).1⟩

/-- **Reads that were sent before.** While the connection is not open, a read that was sent on an
earlier one and is still outstanding stays so in every continuation, and its block is never
called. -/
theorem sent_get_never_called (r : (system κ ρ).Reachable s)
    (hclosed : s.realtime ≠ some .connected) {index : Nat} {get : FOutstandingGet ρ}
    (hget : (index, get) ∈ s.outstandingGets) (hsent : get.sent = true)
    {h : List (FPersistentConnection κ ρ × Event κ ρ)} (run : (system κ ρ).Run s h s') :
    (index, get) ∈ s'.outstandingGets ∧ ∀ status, (.get index, status) ∉ s'.called := by
  have horphan : Orphaned index get s.core := by
    refine ⟨hget, hsent, ?_⟩
    have hblocks : s.core.blocks = [] := (reachable_follows r).wired.blocks_of_realtime hclosed
    simp [hblocks]
  have hinv : Wired s' ∧ Orphaned index get s'.core := by
    refine run.invariant_of_step (I := fun s => Wired s ∧ Orphaned index get s.core)
      ⟨(reachable_follows r).wired, horphan⟩ ?_
    rintro t e u ⟨hw, ht⟩ hstep
    exact ⟨(step_follows hw hstep).wired,
      ht.move (nodup_of_ascending hw.gets) (handle_move hw hstep)⟩
  refine ⟨hinv.2.mem, fun status hmem => ?_⟩
  have hdone : index ∈ s'.getLedger.done := List.mem_filterMap.mpr ⟨_, hmem, rfl⟩
  have hpending : index ∈ s'.getLedger.pending := List.mem_map_of_mem hinv.2.mem
  exact (getLedger_accounted (r.trans run)).notMem_done (.inl hpending) hdone

/-- A read that was sent, then a loss. -/
def lostRead : List (Event Nat String) := openings 0 ++ [.getData "a", .connectionLost]

/-- Another read on the next connection, which is answered. -/
def nextRead : List (Event Nat String) := openings 1 ++ [.getData "b", .response 2 "ok"]

/-- The read that was lost stays outstanding, while a later one is answered. -/
theorem sent_get_never_called_lostRead :
    ((initial.after lostRead).after nextRead).called = [(.get 1, "ok")] ∧
      (0, ⟨"a", true⟩) ∈ ((initial.after lostRead).after nextRead).outstandingGets := by
  refine ⟨rfl, ?_⟩
  exact (sent_get_never_called (reachable_after lostRead rfl) (by decide)
    List.mem_cons_self rfl (.of_exec (exec_after nextRead rfl))).1

/-- **Writes whose answers are held back.** An answer that waits for a listen when the connection
is lost stays held back, unless the client listens again or purges its writes: if it listens to
nothing the block is never called, while every write that is issued later and is no longer
outstanding has been called back. -/
theorem held_put_never_called (r : (system κ ρ).Reachable s)
    (hclosed : s.realtime ≠ some .connected) (hlistens : s.listens = [])
    {h : List (FPersistentConnection κ ρ × Event κ ρ)} (run : (system κ ρ).Run s h s')
    (hok : ∀ p ∈ h, p.2.kind ≠ .listen ∧ p.2.kind ≠ .purge) :
    s'.putsToAck = s.putsToAck ∧
      (∀ p ∈ s.putsToAck, ∀ status, (.put p.1, status) ∉ s'.called) ∧
      ∀ index, s.putCounter ≤ index → index < s'.putCounter →
        index ∈ s'.outstandingPuts.map Prod.fst ∨ ∃ status, (.put index, status) ∈ s'.called := by
  have hstranded : Stranded s.putsToAck s.core := by
    refine ⟨hlistens, ?_, rfl⟩
    have hblocks : s.core.blocks = [] := (reachable_follows r).wired.blocks_of_realtime hclosed
    simp [hblocks]
  have hinv : Wired s' ∧ Stranded s.putsToAck s'.core := by
    refine run.invariant (C := fun _ e => e.kind ≠ .listen ∧ e.kind ≠ .purge)
      (I := fun t => Wired t ∧ Stranded s.putsToAck t.core) hok
      ⟨(reachable_follows r).wired, hstranded⟩ ?_
    rintro t e u ⟨hlisten, hpurge⟩ ⟨hw, ht⟩ hstep
    exact ⟨(step_follows hw hstep).wired, ht.move hlisten hpurge (handle_move hw hstep)⟩
  have hacks : s'.putsToAck = s.putsToAck := hinv.2.acks
  have haccount := putLedger_accounted (r.trans run)
  refine ⟨hacks, ?_, ?_⟩
  · intro p hp status hmem
    have hwaiting : p.1 ∈ s'.putLedger.waiting := List.mem_map_of_mem (hacks ▸ hp)
    exact haccount.notMem_done (.inr hwaiting) (mem_done_iff.mpr ⟨status, hmem⟩)
  · intro index hle hlt
    rcases (haccount.lt_issued_iff index).mp hlt with hpending | hwaiting | hmem
    · exact .inl hpending
    · -- the answers held back are those of the writes before
      have hold : index ∈ s.putLedger.waiting := by
        rw [putLedger, ← hacks]
        exact hwaiting
      have hbefore := ((putLedger_accounted r).lt_issued_iff index).mpr (.inr (.inl hold))
      exact absurd hbefore (Nat.not_lt.mpr hle)
    · exact .inr (mem_done_iff.mp hmem)

/-- Another write on the next connection, which is answered. -/
def nextPut : List (Event Nat String) := openings 1 ++ [.putData "b" none, .response 3 "ok"]

/-- The answer stays held back, while a later write is answered. -/
theorem held_put_never_called_heldPut :
    ((initial.after heldPut).after nextPut).called = [(.put 1, "ok")] ∧
      ((initial.after heldPut).after nextPut).putsToAck = [(0, "ok")] := by
  have hexec := exec_after (s := initial.after heldPut) nextPut rfl
  have hok : ∀ p ∈ (system Nat String).history (initial.after heldPut) nextPut,
      p.2.kind ≠ .listen ∧ p.2.kind ≠ .purge := by
    intro p hp
    have hmem : p.2 ∈ nextPut :=
      TransitionSystem.map_snd_history hexec ▸ List.mem_map_of_mem hp
    have hall : ∀ e ∈ nextPut, e.kind ≠ .listen ∧ e.kind ≠ .purge := by decide
    exact hall p.2 hmem
  exact ⟨rfl, (held_put_never_called (reachable_after heldPut rfl) (by decide) rfl
    (.of_exec hexec) hok).1⟩

end Runs

end FPersistentConnection

end FirebaseLogin
