import FirebaseLogin.ConnectionRuns
import FirebaseLogin.Overwrites

/-!
# The Delivery of Writes

The persistent connection together with a server. The server is not part of the source; what is
assumed of it is that it serves the requests of a network connection in their order and answers
them in this order, and that it forgets them when the connection is lost. The loss may come
between any two steps, so that a write may have been served without the client knowing: it is sent
again on the next connection with all that were issued after it.

The writes are plain ones, no transactions, and the client does not purge them. A write is any
function of the data that overwrites.

## Main results

* `outstanding_suffice`: **with the outstanding writes done again, the data is that of all writes
  in the order of their issue**, at every moment of every run.
-/

namespace FirebaseLogin

open FPersistentConnection

variable {κ ρ δ : Type}

/-- The index and the request of a write. -/
def Request.write? : Request κ ρ → Option (Nat × ρ)
  | put index request => some (index, request)
  | _ => none

/-- Whether an authentication restores the state. -/
def Request.authFlag? : Request κ ρ → Option Bool
  | auth restoreStateAfterComplete => some restoreStateAfterComplete
  | _ => none

namespace FPersistentConnection

/-- The event is one that the delivery of writes covers. -/
def Kind.isCovered : Kind ρ → Bool
  | .own | .listen => true
  | .put _ hash => hash.isNone
  | .purge | .answer _ _ => false

/-- The write that an event issues. -/
def Kind.writes : Kind ρ → List ρ
  | .put request _ => [request]
  | _ => []

end FPersistentConnection

/-- The client, how many requests of its network connection the server has served and how many
of the answers were delivered, the data of the server, and the writes that were issued. -/
structure Delivery (κ ρ δ : Type) where
  client : FPersistentConnection κ ρ
  served : Nat
  delivered : Nat
  data : δ
  issued : List ρ

namespace Delivery

/-- What happens to the client and the server. -/
inductive Action (κ ρ : Type) where
  | client (e : Event κ ρ)
  | serve
  | deliver (status : String)

/-- The requests of a network connection end with it. -/
def settle (s : Delivery κ ρ δ) : Delivery κ ρ δ :=
  if s.client.realtime = some .connected then s else { s with served := 0, delivered := 0 }

variable [DecidableEq κ] [FQuerySpec κ]

/-- A covered event of the client. -/
def clientStep (e : Event κ ρ) (s : Delivery κ ρ δ) : Option (Delivery κ ρ δ) :=
  if e.kind.isCovered then
    (s.client.handle e).map fun c =>
      settle { s with client := c, issued := s.issued ++ e.kind.writes }
  else none

/-- The server serves the next request. -/
def serve (apply : δ → ρ → δ) (s : Delivery κ ρ δ) : Option (Delivery κ ρ δ) :=
  s.client.sent[s.served]?.map fun p =>
    { s with
      served := s.served + 1
      data := (p.2.write?.map fun w => apply s.data w.2).getD s.data }

/-- The next answer is delivered. -/
def deliver (status : String) (s : Delivery κ ρ δ) : Option (Delivery κ ρ δ) :=
  if s.delivered < s.served then
    s.client.sent[s.delivered]?.bind fun p =>
      (s.client.handle (.response p.1 status)).map fun c =>
        settle { s with client := c, delivered := s.delivered + 1 }
  else none

/-- The client and the server as a transition system, with the data the server starts from. -/
def system (κ : Type) [DecidableEq κ] [FQuerySpec κ] (apply : δ → ρ → δ) (d₀ : δ) :
    TransitionSystem (Delivery κ ρ δ) (Action κ ρ) where
  Init s := s = ⟨initial, 0, 0, d₀, []⟩
  step s
    | .client e => s.clientStep e
    | .serve => s.serve apply
    | .deliver status => s.deliver status

end Delivery

/-! ### The requests of a network connection -/

namespace FPersistentConnection

variable {c c' : Core κ ρ} {n m : Nat}

namespace Core

/-- The requests from a position on. -/
def requestsFrom (n : Nat) (c : Core κ ρ) : List (Request κ ρ) := (c.sent.drop n).map Prod.snd

/-- The requests of the outstanding writes. -/
def pending (c : Core κ ρ) : List ρ := c.puts.map fun p => p.2.request

/-- The writes that the server will be sent or has not served yet. -/
def toServe (n : Nat) (c : Core κ ρ) : List ρ :=
  if c.phase = .connected then ((c.requestsFrom n).filterMap Request.write?).map Prod.snd
  else c.pending

/-- Requests that go out come after those not yet handled. -/
theorem requestsFrom_sendAll (rs : List (Request κ ρ)) (h : n ≤ c.sent.length) :
    (c.sendAll rs).requestsFrom n = c.requestsFrom n ++ rs := by
  rw [requestsFrom, sendAll, List.drop_append_of_le_length h, List.map_append, map_snd_numbered,
    requestsFrom]

/-- The next request that is not yet handled. -/
theorem requestsFrom_eq_cons {p : Nat × Request κ ρ} (h : c.sent[n]? = some p) :
    c.requestsFrom n = p.2 :: c.requestsFrom (n + 1) := by
  obtain ⟨hlt, hp⟩ := List.getElem?_eq_some_iff.mp h
  rw [requestsFrom, List.drop_eq_getElem_cons hlt, List.map_cons, hp, requestsFrom]

end Core

/-- The positions of the server, and the blocks that wait for answers: those of the requests that
are not answered. -/
structure Queued (c : Core κ ρ) (n m : Nat) : Prop where
  le : m ≤ n
  served_le : n ≤ c.sent.length
  numbers : (c.sent.map Prod.fst).Nodup
  numbers_lt : ∀ p ∈ c.sent, p.1 < c.requestNumber
  blocks : c.blocks = (c.sent.drop m).filter fun p => p.2.hasCallback

/-- A new connection has no requests. -/
theorem Queued.nil (hsent : c.sent = []) (hblocks : c.blocks = []) : Queued c 0 0 where
  le := Nat.le_refl 0
  served_le := Nat.zero_le _
  numbers := by simp [hsent]
  numbers_lt := by simp [hsent]
  blocks := by simp [hsent, hblocks]

namespace Queued

variable (h : Queued c n m)
include h

/-- Requests that go out keep the queue. -/
theorem sendAll (rs : List (Request κ ρ)) : Queued (c.sendAll rs) n m := by
  have hm : m ≤ c.sent.length := Nat.le_trans h.le h.served_le
  refine { le := h.le, served_le := ?_, numbers := ?_, numbers_lt := ?_, blocks := ?_ }
  · rw [Core.sendAll, List.length_append]
    exact Nat.le_add_right_of_le h.served_le
  · rw [Core.sendAll, List.map_append, List.nodup_append']
    refine ⟨h.numbers, ?_, ?_⟩
    · exact nodup_of_ascending (List.pairwise_map.mpr (pairwise_numbered _ _))
    · intro i hi hi'
      obtain ⟨p, hp, rfl⟩ := List.mem_map.mp hi
      obtain ⟨q, hq, heq⟩ := List.mem_map.mp hi'
      have hlt := h.numbers_lt p hp
      have hle := (mem_numbered hq).1
      omega
  · intro p hp
    rcases List.mem_append.mp hp with hp | hp
    · exact Nat.lt_of_lt_of_le (h.numbers_lt p hp) (Nat.le_add_right _ _)
    · exact (mem_numbered hp).2.1
  · rw [Core.sendAll, List.drop_append_of_le_length hm, List.filter_append, ← h.blocks]

/-- The next answer, and that no later request has its number. -/
theorem drop_eq_cons {p : Nat × Request κ ρ} (hp : c.sent[m]? = some p) :
    c.sent.drop m = p :: c.sent.drop (m + 1) ∧ ∀ q ∈ c.sent.drop (m + 1), q.1 ≠ p.1 := by
  obtain ⟨hlt, hget⟩ := List.getElem?_eq_some_iff.mp hp
  have hdrop : c.sent.drop m = p :: c.sent.drop (m + 1) := by
    rw [List.drop_eq_getElem_cons hlt, hget]
  have hkeys : ((c.sent.drop m).map Prod.fst).Nodup :=
    h.numbers.sublist ((List.drop_sublist m c.sent).map _)
  rw [hdrop, List.map_cons, List.nodup_cons] at hkeys
  exact ⟨hdrop, fun q hq heq => hkeys.1 (heq ▸ List.mem_map_of_mem hq)⟩

/-- The block under the number of the next answer. -/
theorem lookup {p : Nat × Request κ ρ} (hp : c.sent[m]? = some p) :
    c.blocks.lookup p.1 = if p.2.hasCallback then some p.2 else none := by
  obtain ⟨hdrop, hne⟩ := h.drop_eq_cons hp
  rw [h.blocks, hdrop]
  cases hcallback : p.2.hasCallback with
  | true =>
      rw [List.filter_cons_of_pos (by exact hcallback), List.lookup_cons, beq_self_eq_true,
        if_pos rfl]
  | false =>
      rw [List.filter_cons_of_neg (by simp [hcallback]), if_neg Bool.false_ne_true,
        List.lookup_eq_none_iff]
      intro q hq
      exact bne_iff_ne.mpr (hne q (List.mem_of_mem_filter hq)).symm

/-- An answer to the next request keeps the queue. -/
theorem answered {p : Nat × Request κ ρ} (hp : c.sent[m]? = some p) (hlt : m < n) :
    Queued (c.answered p.1) n (m + 1) := by
  obtain ⟨hdrop, hne⟩ := h.drop_eq_cons hp
  refine { h with le := hlt, blocks := ?_ }
  have hrest : ((c.sent.drop (m + 1)).filter fun q => decide (q.1 ≠ p.1)) =
      c.sent.drop (m + 1) := by
    rw [List.filter_eq_self]
    exact fun q hq => decide_eq_true (hne q hq)
  rw [Core.answered, h.blocks, hdrop, List.filter_comm, List.filter_cons_of_neg (by simp), hrest]

/-- The next answer when no block waits for it. -/
theorem skipped {p : Nat × Request κ ρ} (hp : c.sent[m]? = some p) (hlt : m < n)
    (hcallback : p.2.hasCallback = false) : Queued c n (m + 1) := by
  obtain ⟨hdrop, -⟩ := h.drop_eq_cons hp
  refine { h with le := hlt, blocks := ?_ }
  rw [h.blocks, hdrop, List.filter_cons_of_neg (by simp [hcallback])]

end Queued

/-- What is known of the requests in each phase. -/
structure Phased (c : Core κ ρ) (m : Nat) : Prop where
  plain : ∀ p ∈ c.puts, p.2.hash = none
  closed : c.phase = .closed → c.sent = []
  authenticating : c.phase = .authenticating →
    (c.requestsFrom 0).filterMap Request.write? = [] ∧
      ∃ fs, (c.requestsFrom m).filterMap Request.authFlag? = true :: fs ∧ true ∉ fs
  connected : c.phase = .connected →
    true ∉ (c.requestsFrom m).filterMap Request.authFlag? ∧
      (c.requestsFrom m).filterMap Request.write? = c.puts.map fun p => (p.1, p.2.request)

/-- What is known of a connection to the server. -/
structure Tracked (c : Core κ ρ) (n m : Nat) : Prop where
  queued : Queued c n m
  phased : Phased c m

/-! ### Requests without writes -/

/-- Plain requests write nothing. -/
theorem write?_of_isPlain {rs : List (Request κ ρ)} (h : ∀ r ∈ rs, r.isPlain = true) :
    rs.filterMap Request.write? = [] := by
  rw [List.filterMap_eq_nil_iff]
  intro r hr
  have hplain := h r hr
  cases r with
  | put => cases hplain
  | stats | auth | unauth | listen | unlisten | get | onDisconnect => rfl

/-- Plain requests restore nothing. -/
theorem authFlag?_of_isPlain {rs : List (Request κ ρ)} (h : ∀ r ∈ rs, r.isPlain = true) :
    true ∉ rs.filterMap Request.authFlag? := by
  intro hmem
  obtain ⟨r, hr, hflag⟩ := List.mem_filterMap.mp hmem
  have hplain := h r hr
  cases r with
  | auth restoreStateAfterComplete =>
      obtain rfl : restoreStateAfterComplete = true := Option.some.inj hflag
      cases hplain
  | stats | unauth | listen | unlisten | put | get | onDisconnect => cases hflag

/-- The statistics restore nothing. -/
theorem authFlag?_of_stats {rs : List (Request κ ρ)} (h : ∀ r ∈ rs, r = .stats) :
    rs.filterMap Request.authFlag? = [] := by
  rw [List.filterMap_eq_nil_iff]
  intro r hr
  rw [h r hr]
  rfl

/-- The statistics are plain requests. -/
theorem isPlain_of_stats {rs : List (Request κ ρ)} (h : ∀ r ∈ rs, r = .stats) :
    ∀ r ∈ rs, r.isPlain = true := by
  intro r hr
  rw [h r hr]
  rfl

/-- The requests that restore a connection hold its writes, in their order. -/
theorem write?_restoring (c : Core κ ρ) {rs : List (Request κ ρ)}
    (hrs : ∀ r ∈ rs, r.isPlain = true) :
    (c.restoring rs).filterMap Request.write? = c.puts.map fun p => (p.1, p.2.request) := by
  have hlistens : (c.listens.map fun l => (.listen l.1 l.2 : Request κ ρ)).filterMap
      Request.write? = [] := by
    rw [List.filterMap_map, List.filterMap_eq_nil_iff]
    exact fun l _ => rfl
  have hputs : (putRequests c.puts : List (Request κ ρ)).filterMap Request.write? =
      c.puts.map fun p => (p.1, p.2.request) := by
    rw [putRequests, List.filterMap_map, ← List.filterMap_eq_map]
    rfl
  have hgets : (getRequests c.gets : List (Request κ ρ)).filterMap Request.write? = [] := by
    rw [getRequests, List.filterMap_map, List.filterMap_eq_nil_iff]
    exact fun p _ => rfl
  rw [Core.restoring, List.filterMap_append, List.filterMap_append, List.filterMap_append,
    hlistens, hputs, hgets, write?_of_isPlain hrs, List.nil_append, List.append_nil,
    List.append_nil]

/-- What a restored connection sends restores nothing. -/
theorem authFlag?_restoring (c : Core κ ρ) {rs : List (Request κ ρ)}
    (hrs : ∀ r ∈ rs, r.isPlain = true) :
    true ∉ (c.restoring rs).filterMap Request.authFlag? := by
  intro hmem
  obtain ⟨r, hr, hflag⟩ := List.mem_filterMap.mp hmem
  simp only [Core.restoring, List.mem_append, List.mem_map, putRequests, getRequests] at hr
  rcases hr with ((⟨l, -, rfl⟩ | ⟨p, -, rfl⟩) | ⟨p, -, rfl⟩) | hr
  · cases hflag
  · cases hflag
  · cases hflag
  · exact authFlag?_of_isPlain hrs (List.mem_filterMap.mpr ⟨r, hr, hflag⟩)

/-- The requests between two positions come first. -/
theorem Core.requestsFrom_split (c : Core κ ρ) (h : m ≤ n) :
    ∃ rs, c.requestsFrom m = rs ++ c.requestsFrom n := by
  refine ⟨((c.sent.drop m).take (n - m)).map Prod.snd, ?_⟩
  have hdrop : c.sent.drop n = (c.sent.drop m).drop (n - m) := by
    rw [List.drop_drop, Nat.add_sub_cancel' h]
  rw [Core.requestsFrom, Core.requestsFrom, hdrop, ← List.map_append, List.take_append_drop]

/-! ### The outstanding writes and those to serve -/

/-- How an action changes the outstanding writes and those to serve. -/
inductive WriteEffect : List ρ → List ρ × List ρ → List ρ × List ρ → Prop
  | same (ps : List ρ × List ρ) : WriteEffect [] ps ps
  | issue (ps qs : List ρ) (r : ρ) : WriteEffect [r] (ps, qs) (ps ++ [r], qs ++ [r])
  | retire (r : ρ) (ps qs : List ρ) : WriteEffect [] (r :: ps, qs) (ps, qs)
  | resend (ps qs : List ρ) : WriteEffect [] (ps, qs) (ps, ps)

/-- A position in the requests of a connection that may be gone. -/
def Core.position (c : Core κ ρ) (n : Nat) : Nat := if c.phase = .closed then 0 else n

/-- Plain writes stay outstanding when the connection is lost, and none is called back. -/
theorem Core.lost_of_plain (hplain : ∀ p ∈ c.puts, p.2.hash = none) :
    c.lost.puts = c.puts ∧ c.lost.acked = c.acked := by
  have hcancelled : ∀ p ∈ c.puts, (p.2.hash.isSome && p.2.sent) = false := by
    intro p hp
    rw [hplain p hp]
    rfl
  constructor
  · rw [Core.lost, List.filter_eq_self]
    intro p hp
    rw [hcancelled p hp]
    rfl
  · have hnone : (c.puts.filter fun p => p.2.hash.isSome && p.2.sent) = [] := by
      rw [List.filter_eq_nil_iff]
      intro p hp
      rw [hcancelled p hp]
      exact Bool.false_ne_true
    rw [Core.lost, hnone, List.map_nil, List.append_nil]

namespace Tracked

variable (h : Tracked c n m)
include h

/-- The positions are within the requests. -/
theorem le_length : n ≤ c.sent.length ∧ m ≤ c.sent.length :=
  ⟨h.queued.served_le, Nat.le_trans h.queued.le h.queued.served_le⟩

/-- The positions of an open connection stay. -/
theorem position_eq : c.position n = n ∧ c.position m = m := by
  rw [Core.position, Core.position]
  split
  · rename_i hclosed
    have hsent := h.phased.closed hclosed
    have hle := h.le_length
    rw [hsent, List.length_nil] at hle
    omega
  · exact ⟨rfl, rfl⟩

/-- The writes to serve are the last of the outstanding ones. -/
theorem pending_eq : ∃ ps, c.pending = ps ++ c.toServe n := by
  rw [Core.toServe]
  split
  · rename_i hconnected
    obtain ⟨rs, hrs⟩ := c.requestsFrom_split h.queued.le
    have hwrites := (h.phased.connected hconnected).2
    refine ⟨(rs.filterMap Request.write?).map Prod.snd, ?_⟩
    rw [← List.map_append, ← List.filterMap_append, ← hrs, hwrites, List.map_map]
    rfl
  · exact ⟨[], rfl⟩

/-- Requests that are neither writes nor restore the state. -/
theorem send (rs : List (Request κ ρ)) (hphase : c.phase ≠ .closed)
    (hwrites : rs.filterMap Request.write? = [])
    (hflags : true ∉ rs.filterMap Request.authFlag?) :
    Tracked (c.sendAll rs) n m ∧ (c.sendAll rs).toServe n = c.toServe n := by
  obtain ⟨hn, hm⟩ := h.le_length
  refine ⟨⟨h.queued.sendAll rs, { h.phased with
    closed := ?_, authenticating := ?_, connected := ?_ }⟩, ?_⟩
  · exact fun hclosed => absurd hclosed hphase
  · intro hauth
    obtain ⟨hnone, fs, hfs, hfs'⟩ := h.phased.authenticating hauth
    rw [Core.requestsFrom_sendAll rs (Nat.zero_le _), Core.requestsFrom_sendAll rs hm,
      List.filterMap_append, List.filterMap_append, hnone, hwrites, hfs]
    refine ⟨rfl, fs ++ rs.filterMap Request.authFlag?, rfl, ?_⟩
    rw [List.mem_append, not_or]
    exact ⟨hfs', hflags⟩
  · intro hconnected
    obtain ⟨hnone, hputs⟩ := h.phased.connected hconnected
    rw [Core.requestsFrom_sendAll rs hm, List.filterMap_append, List.filterMap_append, hwrites,
      List.append_nil, List.mem_append, not_or]
    exact ⟨⟨hnone, hflags⟩, hputs⟩
  · rw [Core.toServe, Core.toServe, Core.requestsFrom_sendAll rs hn, List.filterMap_append,
      hwrites, List.append_nil]
    rfl

/-- The connection is lost. -/
theorem lost : Tracked c.lost 0 0 ∧ c.lost.pending = c.pending := by
  have hputs := (Core.lost_of_plain h.phased.plain).1
  refine ⟨⟨Queued.nil rfl rfl, ?_⟩, ?_⟩
  · refine { plain := ?_, closed := fun _ => rfl, authenticating := ?_, connected := ?_ }
    · rw [hputs]
      exact h.phased.plain
    · exact fun hauth => by cases hauth
    · exact fun hconnected => by cases hconnected
  · rw [Core.pending, hputs, Core.pending]

end Tracked

/-- The connection is restored, with no writes sent before. -/
theorem Queued.restored (h : Queued c n m) (hplain : ∀ p ∈ c.puts, p.2.hash = none)
    (hwrites : (c.requestsFrom m).filterMap Request.write? = [])
    (hflags : true ∉ (c.requestsFrom m).filterMap Request.authFlag?) {rs : List (Request κ ρ)}
    (hrs : ∀ r ∈ rs, r.isPlain = true) :
    Tracked (c.restored rs) n m ∧ (c.restored rs).pending = c.pending ∧
      (c.restored rs).toServe n = c.pending := by
  have hm : m ≤ c.sent.length := Nat.le_trans h.le h.served_le
  have hfrom : ∀ i ≤ c.sent.length, (c.restored rs).requestsFrom i =
      c.requestsFrom i ++ c.restoring rs :=
    fun i hi => Core.requestsFrom_sendAll (c := { c with
      phase := .connected, puts := allPutsSent c.puts, gets := allGetsSent c.gets }) _ hi
  have hkept : Queued { c with
      phase := .connected, puts := allPutsSent c.puts, gets := allGetsSent c.gets } n m :=
    { h with }
  refine ⟨⟨hkept.sendAll _, ?_⟩, ?_, ?_⟩
  · refine { plain := ?_, closed := ?_, authenticating := ?_, connected := ?_ }
    · intro p hp
      obtain ⟨q, hq, rfl⟩ := List.mem_map.mp hp
      exact hplain q hq
    · exact fun hclosed => by cases hclosed
    · exact fun hauth => by cases hauth
    · intro _
      rw [hfrom m hm, List.filterMap_append, List.filterMap_append, hwrites,
        write?_restoring c hrs, List.mem_append, not_or]
      refine ⟨⟨hflags, authFlag?_restoring c hrs⟩, ?_⟩
      rw [List.nil_append, Core.restored, Core.sendAll, allPutsSent, List.map_map]
      rfl
  · rw [Core.pending, Core.restored, Core.sendAll, allPutsSent, List.map_map, Core.pending]
    rfl
  · obtain ⟨rs', hrs'⟩ := c.requestsFrom_split h.le
    rw [hrs', List.filterMap_append, List.append_eq_nil_iff] at hwrites
    rw [Core.toServe, if_pos (by rfl), hfrom n h.served_le, List.filterMap_append, hwrites.2,
      write?_restoring c hrs, List.nil_append, List.map_map]
    rfl

/-- An action of the client leaves the connection tracked, and has an effect on the writes. -/
structure Steps (c : Core κ ρ) (n : Nat) (ws : List ρ) (c' : Core κ ρ) (n' m' : Nat) : Prop where
  tracked : Tracked c' (c'.position n') (c'.position m')
  effect : WriteEffect ws (c.pending, c.toServe n) (c'.pending, c'.toServe (c'.position n'))

/-- A position of a tracked connection is not changed by its end. -/
theorem Tracked.steps {ws : List ρ} {n' m' : Nat} (h' : Tracked c' n' m')
    (heffect : WriteEffect ws (c.pending, c.toServe n) (c'.pending, c'.toServe n')) :
    Steps c n ws c' n' m' := by
  obtain ⟨hn, hm⟩ := h'.position_eq
  refine ⟨?_, ?_⟩
  · rw [hn, hm]
    exact h'
  · rw [hn]
    exact heffect

/-- A state with the same writes. -/
theorem Tracked.stepsSame {n' m' : Nat} (h' : Tracked c' n' m')
    (hpending : c'.pending = c.pending) (htoServe : c'.toServe n' = c.toServe n) :
    Steps c n [] c' n' m' := by
  refine h'.steps ?_
  rw [hpending, htoServe]
  exact WriteEffect.same _

namespace Tracked

variable (h : Tracked c n m)
include h

/-- A loss keeps what the server has to serve, from the start again. -/
theorem stepsLost (n' m' : Nat) : Steps c n [] c.lost n' m' := by
  obtain ⟨hlost, hpending⟩ := h.lost
  refine ⟨hlost, ?_⟩
  have htoServe : c.lost.toServe (c.lost.position n') = c.pending := hpending
  rw [htoServe, hpending]
  exact WriteEffect.resend _ _

/-- A write that is kept for later is pending last. -/
theorem stepsPutLater (i : Nat) (request : ρ) (hphase : c.phase ≠ .connected) :
    Steps c n [request] (c.issued i ⟨request, none, false⟩) n m := by
  have hissued : Tracked (c.issued i ⟨request, none, false⟩) n m := by
    refine ⟨{ h.queued with }, { h.phased with plain := ?_, connected := ?_ }⟩
    · intro p hp
      rcases List.mem_append.mp hp with hp | hp
      · exact h.phased.plain p hp
      · rw [List.mem_singleton.mp hp]
    · exact fun hconnected => absurd hconnected hphase
  have hpending : (c.issued i ⟨request, none, false⟩).pending = c.pending ++ [request] := by
    simp [Core.pending, Core.issued]
  have htoServe : (c.issued i ⟨request, none, false⟩).toServe n = c.toServe n ++ [request] := by
    rw [Core.toServe, if_neg (by exact hphase), hpending, Core.toServe, if_neg hphase]
  refine hissued.steps ?_
  rw [htoServe, hpending]
  exact WriteEffect.issue _ _ _

/-- A write that is sent at once is pending last. -/
theorem stepsPutNow (i : Nat) (request : ρ) (hphase : c.phase = .connected) :
    Steps c n [request]
      ((c.issued i ⟨request, none, true⟩).sendAll [.put i request]) n m := by
  obtain ⟨hn, hm⟩ := h.le_length
  have hkept : Queued (c.issued i ⟨request, none, true⟩) n m := { h.queued with }
  have hfrom : ∀ k ≤ c.sent.length,
      ((c.issued i ⟨request, none, true⟩).sendAll [.put i request]).requestsFrom k =
        c.requestsFrom k ++ [.put i request] :=
    fun k hk => Core.requestsFrom_sendAll (c := c.issued i ⟨request, none, true⟩) _ hk
  have hissued : Tracked ((c.issued i ⟨request, none, true⟩).sendAll [.put i request]) n m := by
    refine ⟨hkept.sendAll _, ?_⟩
    refine { plain := ?_, closed := ?_, authenticating := ?_, connected := ?_ }
    · intro p hp
      rcases List.mem_append.mp hp with hp | hp
      · exact h.phased.plain p hp
      · rw [List.mem_singleton.mp hp]
    · exact fun hclosed => by cases hphase.symm.trans hclosed
    · exact fun hauth => by cases hphase.symm.trans hauth
    · intro _
      obtain ⟨hflags, hwrites⟩ := h.phased.connected hphase
      rw [hfrom m hm, List.filterMap_append, List.filterMap_append, hwrites]
      refine ⟨?_, ?_⟩
      · simpa [Request.authFlag?] using hflags
      · simp [Request.write?, Core.issued, Core.sendAll]
  have hpending : ((c.issued i ⟨request, none, true⟩).sendAll [.put i request]).pending =
      c.pending ++ [request] := by
    simp [Core.pending, Core.issued, Core.sendAll]
  have htoServe : ((c.issued i ⟨request, none, true⟩).sendAll [.put i request]).toServe n =
      c.toServe n ++ [request] := by
    rw [Core.toServe, if_pos (by exact hphase), hfrom n hn, Core.toServe, if_pos hphase]
    simp [Request.write?]
  refine hissued.steps ?_
  rw [htoServe, hpending]
  exact WriteEffect.issue _ _ _

/-- Nothing is sent on a closed connection. -/
theorem of_closed (hphase : c.phase = .closed) :
    c.sent = [] ∧ c.blocks = [] ∧ n = 0 ∧ m = 0 := by
  have hsent := h.phased.closed hphase
  have hle := h.le_length
  rw [hsent, List.length_nil] at hle
  refine ⟨hsent, ?_, by omega, by omega⟩
  rw [h.queued.blocks, hsent, List.drop_nil, List.filter_nil]

/-- The requests of an authentication write nothing. -/
theorem stepsAuthenticate {rs : List (Request κ ρ)} (hphase : c.phase = .closed)
    (hrs : ∀ r ∈ rs, r = .stats) :
    Steps c n [] ({ c with phase := .authenticating }.sendAll (rs ++ [Request.auth true])) n m := by
  obtain ⟨hsent, -, rfl, rfl⟩ := h.of_closed hphase
  have hqueued : Queued { c with phase := .authenticating } 0 0 := { h.queued with }
  have hfrom : ({ c with phase := .authenticating }.sendAll
      (rs ++ [Request.auth true])).requestsFrom 0 = rs ++ [Request.auth true] := by
    rw [Core.requestsFrom_sendAll _ (Nat.zero_le _), Core.requestsFrom, hsent, List.drop_nil,
      List.map_nil, List.nil_append]
  refine stepsSame ⟨hqueued.sendAll _, ?_⟩ rfl ?_
  · refine { plain := h.phased.plain, closed := ?_, authenticating := ?_, connected := ?_ }
    · exact fun hclosed => by cases hclosed
    · intro _
      rw [hfrom, List.filterMap_append, List.filterMap_append, authFlag?_of_stats hrs,
        write?_of_isPlain (isPlain_of_stats hrs)]
      exact ⟨rfl, [], rfl, List.not_mem_nil⟩
    · exact fun hconnected => by cases hconnected
  · rw [Core.toServe, if_neg (by simp [Core.sendAll]), Core.toServe, if_neg (by simp [hphase])]
    rfl

/-- A connection restored at once has all outstanding writes to serve. -/
theorem stepsReady {rs rs' : List (Request κ ρ)} (hphase : c.phase = .closed)
    (hrs : ∀ r ∈ rs, r = .stats) (hrs' : ∀ r ∈ rs', r.isPlain = true) :
    Steps c n [] (({ c with phase := .connected }.sendAll rs).restored rs') n m := by
  obtain ⟨hsent, -, rfl, rfl⟩ := h.of_closed hphase
  have hqueued : Queued { c with phase := .connected } 0 0 := { h.queued with }
  have hfrom : ({ c with phase := .connected }.sendAll rs).requestsFrom 0 = rs := by
    rw [Core.requestsFrom_sendAll _ (Nat.zero_le _), Core.requestsFrom, hsent, List.drop_nil,
      List.map_nil, List.nil_append]
  have hwrites : (({ c with phase := .connected }.sendAll rs).requestsFrom 0).filterMap
      Request.write? = [] := by
    rw [hfrom]
    exact write?_of_isPlain (isPlain_of_stats hrs)
  have hflags : true ∉ (({ c with phase := .connected }.sendAll rs).requestsFrom 0).filterMap
      Request.authFlag? := by
    rw [hfrom, authFlag?_of_stats hrs]
    exact List.not_mem_nil
  obtain ⟨htracked, hpending, htoServe⟩ :=
    (hqueued.sendAll rs).restored h.phased.plain hwrites hflags hrs'
  refine htracked.stepsSame hpending ?_
  rw [htoServe, Core.toServe, if_neg (by simp [hphase])]
  rfl

/-- The covered events of the client. -/
theorem move {k : Kind ρ} (hk : k.isCovered = true) (hmove : Move c k c') :
    Steps c n k.writes c' n m := by
  cases hmove with
  | keep ls => exact stepsSame ⟨{ h.queued with }, { h.phased with }⟩ rfl rfl
  | send ls rs hphase hls hrs =>
      have hkeep : Tracked { c with listens := ls } n m :=
        ⟨{ h.queued with }, { h.phased with }⟩
      obtain ⟨hsend, htoServe⟩ :=
        hkeep.send rs hphase (write?_of_isPlain hrs) (authFlag?_of_isPlain hrs)
      exact hsend.stepsSame rfl htoServe
  | listenLater l => exact stepsSame ⟨{ h.queued with }, { h.phased with }⟩ rfl rfl
  | listenNow l hphase =>
      have hkeep : Tracked { c with listens := c.listens ++ [l] } n m :=
        ⟨{ h.queued with }, { h.phased with }⟩
      obtain ⟨hsend, htoServe⟩ :=
        hkeep.send [.listen l.1 l.2] hphase rfl List.not_mem_nil
      exact hsend.stepsSame rfl htoServe
  | putLater request hash hphase =>
      obtain rfl : hash = none := Option.isNone_iff_eq_none.mp hk
      exact h.stepsPutLater _ request hphase
  | putNow request hash hphase =>
      obtain rfl : hash = none := Option.isNone_iff_eq_none.mp hk
      exact h.stepsPutNow _ request hphase
  | getLater i request => exact stepsSame ⟨{ h.queued with }, { h.phased with }⟩ rfl rfl
  | getNow i request hphase =>
      have hkeep : Tracked (c.asked i ⟨request, true⟩) n m :=
        ⟨{ h.queued with }, { h.phased with }⟩
      obtain ⟨hsend, htoServe⟩ := hkeep.send [.get i request] hphase rfl List.not_mem_nil
      exact hsend.stepsSame rfl htoServe
  | getTimesOut i get => exact stepsSame ⟨{ h.queued with }, { h.phased with }⟩ rfl rfl
  | purge => cases hk
  | lose => exact h.stepsLost n m
  | authenticate rs hphase hrs => exact h.stepsAuthenticate hphase hrs
  | ready rs rs' hphase hrs hrs' => exact h.stepsReady hphase hrs hrs'
  | ignored | plainAnswered | authAnswered | authRestores | authRejected | putGone | putAnswered
  | putHeld | getAnswered | listenAnswered | listensAnswered => cases hk

/-! ### Answers -/

/-- The phase is not closed while a request is on the connection. -/
theorem phase_ne_closed {k : Nat} {p : Nat × Request κ ρ} (hp : c.sent[k]? = some p) :
    c.phase ≠ .closed := by
  intro hclosed
  rw [h.phased.closed hclosed] at hp
  cases hp

/-- An answer that concerns neither a write nor an authentication. -/
theorem skip {p : Nat × Request κ ρ} (hp : c.sent[m]? = some p)
    (hwrite : p.2.write? = none) (hflag : p.2.authFlag? = none) : Phased c (m + 1) := by
  have hfrom := Core.requestsFrom_eq_cons hp
  refine { h.phased with authenticating := ?_, connected := ?_ }
  · intro hauth
    obtain ⟨hnone, fs, hfs, hfs'⟩ := h.phased.authenticating hauth
    rw [hfrom, List.filterMap_cons_none hflag] at hfs
    exact ⟨hnone, fs, hfs, hfs'⟩
  · intro hconnected
    have hall := h.phased.connected hconnected
    rwa [hfrom, List.filterMap_cons_none hflag, List.filterMap_cons_none hwrite] at hall

/-- An answer to a request that is no write, nor an authentication that restores. -/
theorem answeredSkip {p : Nat × Request κ ρ} (hp : c.sent[m]? = some p) (hlt : m < n)
    (hwrite : p.2.write? = none) (hflag : p.2.authFlag? = none) :
    Tracked (c.answered p.1) n (m + 1) :=
  ⟨h.queued.answered hp hlt, { h.skip hp hwrite hflag with }⟩

/-- The write that is answered is the first of the outstanding ones. -/
theorem puts_eq_cons {p : Nat × Request κ ρ} (hp : c.sent[m]? = some p) {i : Nat} {request : ρ}
    (hput : p.2 = .put i request) (hkeys : (c.puts.map Prod.fst).Nodup) :
    c.phase = .connected ∧ ∃ put puts, c.puts = (i, put) :: puts ∧ put.request = request ∧
      (c.puts.filter fun q => q.1 ≠ i) = puts := by
  have hfrom := Core.requestsFrom_eq_cons hp
  have hwrite : p.2.write? = some (i, request) := by rw [hput, Request.write?]
  have hphase : c.phase = .connected := by
    cases hc : c.phase with
    | closed => exact absurd hc (h.phase_ne_closed hp)
    | connected => rfl
    | authenticating =>
        -- no write is sent while the client authenticates
        obtain ⟨hnone, -⟩ := h.phased.authenticating hc
        obtain ⟨rs, hrs⟩ := c.requestsFrom_split (Nat.zero_le m)
        rw [hrs, hfrom, List.filterMap_append, List.filterMap_cons_some hwrite] at hnone
        simp at hnone
  have hwrites := (h.phased.connected hphase).2
  rw [hfrom, List.filterMap_cons_some hwrite] at hwrites
  obtain ⟨⟨j, put⟩, puts, hputs, hq, -⟩ := List.map_eq_cons_iff.mp hwrites.symm
  obtain ⟨rfl, rfl⟩ := Prod.mk.inj hq
  rw [hputs, List.map_cons, List.nodup_cons] at hkeys
  refine ⟨hphase, put, puts, hputs, rfl, ?_⟩
  rw [hputs, List.filter_cons_of_neg (by simp), List.filter_eq_self]
  intro r hr
  exact decide_eq_true fun heq => hkeys.1 (heq ▸ List.mem_map_of_mem hr)

/-- The answer of a write takes it out of the outstanding ones. -/
theorem stepsPutAnswered {p : Nat × Request κ ρ} (hp : c.sent[m]? = some p) (hlt : m < n)
    {i : Nat} {request : ρ} (hput : p.2 = .put i request)
    (hkeys : (c.puts.map Prod.fst).Nodup) (acks acked : List (Nat × String)) :
    Steps c n [] { c.answered p.1 with
      puts := c.puts.filter fun q => q.1 ≠ i
      putsToAck := acks
      acked := acked } n (m + 1) := by
  obtain ⟨hphase, put, puts, hputs, rfl, hfilter⟩ := h.puts_eq_cons hp hput hkeys
  have hfrom := Core.requestsFrom_eq_cons hp
  have hwrite : p.2.write? = some (i, put.request) := by rw [hput, Request.write?]
  have hflag : p.2.authFlag? = none := by
    rw [hput]
    rfl
  obtain ⟨hflags, hwrites⟩ := h.phased.connected hphase
  rw [hfrom, List.filterMap_cons_none hflag] at hflags
  rw [hfrom, List.filterMap_cons_some hwrite, hputs, List.map_cons] at hwrites
  rw [hfilter]
  refine steps ⟨{ h.queued.answered hp hlt with }, ?_⟩ ?_
  · refine { plain := ?_, closed := ?_, authenticating := ?_, connected := ?_ }
    · exact fun r hr => h.phased.plain r (hputs ▸ List.mem_cons_of_mem _ hr)
    · exact fun hclosed => by cases hphase.symm.trans hclosed
    · exact fun hauth => by cases hphase.symm.trans hauth
    · exact fun _ => ⟨hflags, (List.cons.inj hwrites).2⟩
  · have hpending : c.pending = put.request :: puts.map fun r => r.2.request := by
      rw [Core.pending, hputs, List.map_cons]
    rw [hpending, Core.toServe, Core.toServe, if_pos hphase, if_pos (by exact hphase)]
    exact WriteEffect.retire _ _ _

/-- The answer of the authentication that the client waits for. -/
theorem stepsAuthRestores {p : Nat × Request κ ρ} (hp : c.sent[m]? = some p) (hlt : m < n)
    (hauth : p.2 = .auth true) {rs : List (Request κ ρ)} (hrs : ∀ r ∈ rs, r.isPlain = true) :
    Steps c n [] ((c.answered p.1).restored rs) n (m + 1) := by
  have hfrom := Core.requestsFrom_eq_cons hp
  have hflag : p.2.authFlag? = some true := by rw [hauth, Request.authFlag?]
  have hphase : c.phase = .authenticating := by
    cases hc : c.phase with
    | closed => exact absurd hc (h.phase_ne_closed hp)
    | authenticating => rfl
    | connected =>
        obtain ⟨hflags, -⟩ := h.phased.connected hc
        rw [hfrom, List.filterMap_cons_some hflag] at hflags
        exact absurd List.mem_cons_self hflags
  obtain ⟨hnone, fs, hfs, hfs'⟩ := h.phased.authenticating hphase
  rw [hfrom, List.filterMap_cons_some hflag] at hfs
  obtain ⟨-, rfl⟩ := List.cons.inj hfs
  have hwrites : ((c.answered p.1).requestsFrom (m + 1)).filterMap Request.write? = [] := by
    obtain ⟨rs', hrs'⟩ := c.requestsFrom_split (Nat.zero_le (m + 1))
    rw [hrs', List.filterMap_append, List.append_eq_nil_iff] at hnone
    exact hnone.2
  obtain ⟨htracked, hpending, htoServe⟩ :=
    (h.queued.answered hp hlt).restored h.phased.plain hwrites hfs' hrs
  refine htracked.stepsSame hpending ?_
  rw [htoServe, Core.toServe, if_neg (by simp [hphase])]
  rfl

/-- A later authentication finds the client connected. -/
theorem phase_of_auth {p : Nat × Request κ ρ} (hp : c.sent[m]? = some p)
    (hauth : p.2 = .auth false) : c.phase = .connected := by
  cases hc : c.phase with
  | closed => exact absurd hc (h.phase_ne_closed hp)
  | connected => rfl
  | authenticating =>
      have hflag : p.2.authFlag? = some false := by rw [hauth, Request.authFlag?]
      obtain ⟨-, fs, hfs, -⟩ := h.phased.authenticating hc
      rw [Core.requestsFrom_eq_cons hp, List.filterMap_cons_some hflag] at hfs
      cases hfs

/-- The answer of a later authentication. -/
theorem stepsAuthAnswered {p : Nat × Request κ ρ} (hp : c.sent[m]? = some p) (hlt : m < n)
    (hauth : p.2 = .auth false) :
    Steps c n [] { c.answered p.1 with phase := .connected } n (m + 1) := by
  have hfrom := Core.requestsFrom_eq_cons hp
  have hflag : p.2.authFlag? = some false := by rw [hauth, Request.authFlag?]
  have hwrite : p.2.write? = none := by
    rw [hauth]
    rfl
  have hphase := h.phase_of_auth hp hauth
  obtain ⟨hflags, hwrites⟩ := h.phased.connected hphase
  rw [hfrom, List.filterMap_cons_some hflag, List.mem_cons, not_or] at hflags
  rw [hfrom, List.filterMap_cons_none hwrite] at hwrites
  refine stepsSame ⟨{ h.queued.answered hp hlt with }, ?_⟩ rfl ?_
  · refine { plain := h.phased.plain, closed := ?_, authenticating := ?_, connected := ?_ }
    · exact fun hclosed => by cases hclosed
    · exact fun hauth => by cases hauth
    · exact fun _ => ⟨hflags.2, hwrites⟩
  · rw [Core.toServe, Core.toServe, if_pos hphase, if_pos (by rfl)]
    rfl

/-- The block that is found is the one of the next answer. -/
theorem request_eq {p : Nat × Request κ ρ} (hp : c.sent[m]? = some p) {request : Request κ ρ}
    (hrn : c.blocks.lookup p.1 = some request) : p.2 = request := by
  rw [h.queued.lookup hp] at hrn
  split at hrn
  · exact Option.some.inj hrn
  · cases hrn

/-- The answer of the server to the next request. -/
theorem answer (hkeys : (c.puts.map Prod.fst).Nodup) {p : Nat × Request κ ρ}
    (hp : c.sent[m]? = some p) (hlt : m < n) {status : String}
    (hmove : Move c (.answer p.1 status) c') :
    Steps c n [] c' n (m + 1) := by
  cases hmove with
  | ignored rn hrn =>
      have hcallback : p.2.hasCallback = false := by
        rw [h.queued.lookup hp] at hrn
        split at hrn
        · cases hrn
        · rename_i hcallback
          exact Bool.not_eq_true _ ▸ hcallback
      obtain ⟨hwrite, hflag⟩ : p.2.write? = none ∧ p.2.authFlag? = none := by
        cases hr : p.2 with
        | unauth | unlisten => exact ⟨rfl, rfl⟩
        | stats | auth | listen | put | get | onDisconnect =>
            rw [hr] at hcallback
            cases hcallback
      exact stepsSame ⟨h.queued.skipped hp hlt hcallback, h.skip hp hwrite hflag⟩ rfl rfl
  | plainAnswered rn request hrn hplain hauth =>
      obtain rfl := h.request_eq hp hrn
      obtain ⟨hwrite, hflag⟩ : p.2.write? = none ∧ p.2.authFlag? = none := by
        cases hr : p.2 with
        | stats | unauth | unlisten | onDisconnect => exact ⟨rfl, rfl⟩
        | auth restoreStateAfterComplete =>
            rw [hr] at hplain hauth
            cases restoreStateAfterComplete with
            | true => cases hplain
            | false => exact absurd rfl hauth
        | listen | put | get =>
            rw [hr] at hplain
            cases hplain
      exact stepsSame (h.answeredSkip hp hlt hwrite hflag) rfl rfl
  | authAnswered rn hrn => exact h.stepsAuthAnswered hp hlt (h.request_eq hp hrn)
  | authRestores rn rs hrn hrs => exact h.stepsAuthRestores hp hlt (h.request_eq hp hrn) hrs
  | authRejected rn restoreStateAfterComplete hrn => exact h.stepsLost n (m + 1)
  | putGone rn i request hrn hgone =>
      have hput := h.stepsPutAnswered hp hlt (h.request_eq hp hrn) hkeys c.putsToAck c.acked
      have hsame : (c.puts.filter fun q => q.1 ≠ i) = c.puts := by
        rw [List.filter_eq_self]
        exact fun q hq => decide_eq_true fun heq => hgone (heq ▸ List.mem_map_of_mem hq)
      rwa [hsame] at hput
  | putAnswered rn i request status hrn =>
      exact h.stepsPutAnswered hp hlt (h.request_eq hp hrn) hkeys c.putsToAck _
  | putHeld rn i request status hrn =>
      exact h.stepsPutAnswered hp hlt (h.request_eq hp hrn) hkeys _ c.acked
  | getAnswered rn i request hrn =>
      have hget := h.request_eq hp hrn
      have hskip := h.answeredSkip hp hlt (by rw [hget]; rfl) (by rw [hget]; rfl)
      exact stepsSame ⟨{ hskip.queued with }, { hskip.phased with }⟩ rfl rfl
  | listenAnswered rn query id ls hrn | listensAnswered rn query id ls hrn =>
      have hlisten := h.request_eq hp hrn
      have hskip := h.answeredSkip hp hlt (by rw [hlisten]; rfl) (by rw [hlisten]; rfl)
      exact stepsSame ⟨{ hskip.queued with }, { hskip.phased with }⟩ rfl rfl

end Tracked

end FPersistentConnection

/-! ### Every run -/

namespace Delivery

section Runs

variable [FQuerySpec κ] {ι ν : Type} {apply : δ → ρ → δ} {view : δ → ι → ν} {d₀ : δ}

/-- The outstanding writes are the last of those that were issued, and those to serve bring the
data to where all of them do. -/
structure Sound (apply : δ → ρ → δ) (view : δ → ι → ν) (d₀ : δ) (s : Delivery κ ρ δ) : Prop where
  wired : Wired s.client
  tracked : Tracked s.client.core s.served s.delivered
  issued : ∃ ws, s.issued = ws ++ s.client.core.pending
  data : view ((s.client.core.toServe s.served).foldl apply s.data) =
    view (s.issued.foldl apply d₀)

/-- An effect keeps the account of the writes. -/
theorem sound_of_effect (h : Overwrites apply view) {ws issued : List ρ} {d : δ}
    {ps ps' : List ρ × List ρ} (heffect : WriteEffect ws ps ps') (hsuffix : ∃ xs, ps.1 = xs ++ ps.2)
    (hissued : ∃ vs, issued = vs ++ ps.1)
    (hdata : view (ps.2.foldl apply d) = view (issued.foldl apply d₀)) :
    (∃ vs, issued ++ ws = vs ++ ps'.1) ∧
      view (ps'.2.foldl apply d) = view ((issued ++ ws).foldl apply d₀) := by
  obtain ⟨vs, rfl⟩ := hissued
  cases heffect with
  | same =>
      rw [List.append_nil]
      exact ⟨⟨vs, rfl⟩, hdata⟩
  | issue ps qs r =>
      refine ⟨⟨vs, List.append_assoc _ _ _⟩, ?_⟩
      simp only [List.foldl_append, List.foldl_cons, List.foldl_nil] at hdata ⊢
      exact h.congr r hdata
  | retire r ps qs =>
      rw [List.append_nil]
      exact ⟨⟨vs ++ [r], by simp⟩, hdata⟩
  | resend ps qs =>
      obtain ⟨xs, hxs⟩ := hsuffix
      dsimp only at hxs hdata ⊢
      subst hxs
      rw [List.append_nil]
      refine ⟨⟨vs, rfl⟩, ?_⟩
      rw [← List.append_assoc] at hdata ⊢
      exact h.again hdata

omit [FQuerySpec κ] in
/-- Settling leaves the client as it is. -/
theorem client_settle (s : Delivery κ ρ δ) : s.settle.client = s.client := by
  rw [settle]
  split
  · rfl
  · rfl

omit [FQuerySpec κ] in
/-- Settling leaves the writes that were issued. -/
theorem issued_settle (s : Delivery κ ρ δ) : s.settle.issued = s.issued := by
  rw [settle]
  split
  · rfl
  · rfl

/-- Settling puts the positions where the phase has them. -/
theorem settle_eq (s : Delivery κ ρ δ) (hw : Wired s.client) :
    s.settle = { s with
      served := s.client.core.position s.served
      delivered := s.client.core.position s.delivered } := by
  have hiff : s.client.realtime = some .connected ↔ s.client.core.phase ≠ .closed := by
    rw [hw.link]
    cases hstate : s.client.connectionState with
    | disconnected | gettingToken | connecting | authenticating | connected =>
        simp [core, hstate, linkOf, ConnectionState.phase]
  rw [settle, Core.position, Core.position]
  by_cases hclosed : s.client.core.phase = .closed
  · rw [if_neg (fun hlink => hiff.mp hlink hclosed), if_pos hclosed, if_pos hclosed]
  · rw [if_pos (hiff.mpr hclosed), if_neg hclosed, if_neg hclosed]

/-- The client has taken a step, and the requests of a connection that is gone are forgotten. -/
theorem Sound.settle (hover : Overwrites apply view) {s : Delivery κ ρ δ}
    (h : Sound apply view d₀ s) {c : FPersistentConnection κ ρ} (hw : Wired c) {ws : List ρ}
    {m' : Nat} (hsteps : Steps s.client.core s.served ws c.core s.served m') :
    Sound apply view d₀
      (settle { s with client := c, delivered := m', issued := s.issued ++ ws }) := by
  rw [settle_eq _ hw]
  obtain ⟨hissued, hdata⟩ :=
    sound_of_effect hover hsteps.effect h.tracked.pending_eq h.issued h.data
  exact ⟨hw, hsteps.tracked, hissued, hdata⟩

/-- The server serves the next request. -/
theorem Sound.serve {s s' : Delivery κ ρ δ} (h : Sound apply view d₀ s)
    (hstep : s.serve apply = some s') : Sound apply view d₀ s' := by
  obtain ⟨p, hp, rfl⟩ := Option.map_eq_some_iff.mp hstep
  have hlt : s.served < s.client.core.sent.length := (List.getElem?_eq_some_iff.mp hp).1
  have hfrom := Core.requestsFrom_eq_cons (c := s.client.core) hp
  have hqueued : Queued s.client.core (s.served + 1) s.delivered :=
    { h.tracked.queued with le := Nat.le_succ_of_le h.tracked.queued.le, served_le := hlt }
  refine ⟨h.wired, ⟨hqueued, h.tracked.phased⟩, h.issued, ?_⟩
  refine Eq.trans (congrArg view ?_) h.data
  by_cases hphase : s.client.core.phase = .connected
  · rw [Core.toServe, if_pos hphase, Core.toServe, if_pos hphase, hfrom]
    cases hwrite : p.2.write? with
    | none => simp [List.filterMap_cons_none hwrite]
    | some w => simp [List.filterMap_cons_some hwrite]
  · -- before the connection is restored no write is on it
    have hwrite : p.2.write? = none := by
      cases hc : s.client.core.phase with
      | closed => exact absurd hc (h.tracked.phase_ne_closed hp)
      | connected => exact absurd hc hphase
      | authenticating =>
          obtain ⟨hnone, -⟩ := h.tracked.phased.authenticating hc
          obtain ⟨rs, hrs⟩ := s.client.core.requestsFrom_split (Nat.zero_le s.served)
          rw [hrs, hfrom, List.filterMap_append, List.append_eq_nil_iff] at hnone
          exact List.filterMap_eq_nil_iff.mp hnone.2 p.2 List.mem_cons_self
    rw [Core.toServe, if_neg hphase, Core.toServe, if_neg hphase, hwrite]
    rfl

/-- The outstanding writes bring the data to where all writes do. -/
theorem Sound.pending (hover : Overwrites apply view) {s : Delivery κ ρ δ}
    (h : Sound apply view d₀ s) :
    view (s.client.core.pending.foldl apply s.data) = view (s.issued.foldl apply d₀) := by
  have hresend := sound_of_effect hover (.resend _ _) h.tracked.pending_eq h.issued h.data
  rw [List.append_nil] at hresend
  exact hresend.2

/-- On an open connection no write is outstanding once all requests are answered. -/
theorem Sound.drained {s : Delivery κ ρ δ} (h : Sound apply view d₀ s)
    (hstate : s.client.connectionState = .connected)
    (hall : s.delivered = s.client.sent.length) : s.client.core.puts = [] := by
  have hphase : s.client.core.phase = .connected := congrArg ConnectionState.phase hstate
  have hwrites := (h.tracked.phased.connected hphase).2
  have hdrop : s.client.core.sent.drop s.delivered = [] := by
    rw [hall]
    exact List.drop_length
  rw [Core.requestsFrom, hdrop] at hwrites
  exact List.map_eq_nil_iff.mp hwrites.symm

/-- The invariant holds initially. -/
theorem sound_initial : Sound apply view d₀ (⟨initial, 0, 0, d₀, []⟩ : Delivery κ ρ δ) := by
  refine ⟨wired_initial, ⟨Queued.nil rfl rfl, ?_⟩, ⟨[], rfl⟩, rfl⟩
  refine { plain := ?_, closed := fun _ => rfl, authenticating := ?_, connected := ?_ }
  · exact fun p hp => absurd hp List.not_mem_nil
  · exact fun hauth => by cases hauth
  · exact fun hconnected => by cases hconnected

variable [DecidableEq κ]

/-- What a step of the client is. -/
theorem clientStep_eq_some {s s' : Delivery κ ρ δ} {e : Event κ ρ}
    (h : s.clientStep e = some s') :
    ∃ c, e.kind.isCovered = true ∧ s.client.handle e = some c ∧
      s' = Delivery.settle { s with client := c, issued := s.issued ++ e.kind.writes } := by
  rw [clientStep] at h
  split at h
  · rename_i hcovered
    obtain ⟨c, hc, rfl⟩ := Option.map_eq_some_iff.mp h
    exact ⟨c, hcovered, hc, rfl⟩
  · cases h

/-- What the delivery of an answer is. -/
theorem deliver_eq_some {s s' : Delivery κ ρ δ} {status : String}
    (h : s.deliver status = some s') :
    ∃ p c, s.delivered < s.served ∧ s.client.sent[s.delivered]? = some p ∧
      s.client.handle (.response p.1 status) = some c ∧
      s' = Delivery.settle { s with client := c, delivered := s.delivered + 1 } := by
  rw [deliver] at h
  split at h
  · rename_i hlt
    obtain ⟨p, hp, h⟩ := Option.bind_eq_some_iff.mp h
    obtain ⟨c, hc, rfl⟩ := Option.map_eq_some_iff.mp h
    exact ⟨p, c, hlt, hp, hc, rfl⟩
  · cases h

/-- A step keeps the invariant. -/
theorem Sound.step (hover : Overwrites apply view) {s s' : Delivery κ ρ δ} {a : Action κ ρ}
    (h : Sound apply view d₀ s) (hstep : (system κ apply d₀).step s a = some s') :
    Sound apply view d₀ s' := by
  cases a with
  | client e =>
      obtain ⟨c, hcovered, hc, rfl⟩ := clientStep_eq_some hstep
      have hmove := h.tracked.move hcovered (handle_move h.wired hc)
      exact h.settle hover (step_follows h.wired hc).wired hmove
  | serve => exact h.serve hstep
  | deliver status =>
      obtain ⟨p, c, hlt, hp, hc, rfl⟩ := deliver_eq_some hstep
      have hmove := h.tracked.answer (nodup_of_ascending h.wired.puts) hp hlt
        (handle_move h.wired hc)
      have hfollows := step_follows (e := .response p.1 status) h.wired hc
      have hsettle := h.settle hover hfollows.wired hmove
      rwa [List.append_nil] at hsettle

/-- The invariant holds in every state of a run. -/
theorem sound_of_reachable (hover : Overwrites apply view) {s : Delivery κ ρ δ}
    (r : (system κ apply d₀).Reachable s) : Sound apply view d₀ s := by
  refine r.invariant ?_ ?_
  · rintro s rfl
    exact sound_initial
  · exact fun t a u ht hstep => ht.step hover hstep

/-- **The writes are delivered in the order of their issue.** In every state of a run, however
often the connection was lost, the outstanding writes are the last of those that were issued, and
the data of the server with the outstanding writes done on top is what all the writes make of the
data at the start. -/
theorem outstanding_suffice (hover : Overwrites apply view) {s : Delivery κ ρ δ}
    (r : (system κ apply d₀).Reachable s) :
    (∃ ws, s.issued = ws ++ s.client.outstandingPuts.map fun p => p.2.request) ∧
      view ((s.client.outstandingPuts.map fun p => p.2.request).foldl apply s.data) =
        view (s.issued.foldl apply d₀) :=
  ⟨(sound_of_reachable hover r).issued, (sound_of_reachable hover r).pending hover⟩

end Runs

/-! ### A run with a loss -/

/-- A cell of numbers is set. -/
def setCell (d : Nat → Nat) (w : Nat × Nat) : Nat → Nat := fun i => if i = w.1 then w.2 else d i

/-- Cells that are set overwrite. -/
theorem overwrites_setCell : Overwrites setCell id := by
  intro w i
  by_cases hi : i = w.1
  · exact .inr ⟨w.2, fun d => if_pos hi⟩
  · exact .inl fun d => if_neg hi

/-- Two writes of one cell, of which the first is served before the connection is lost; on the
next connection both are sent and served again. -/
def resentWrites : List (Action Nat (Nat × Nat)) :=
  [.client (.resume .waitingForOpen), .client .retryFires,
    .client (.contextFetched 1 (some none)), .client .ready, .client (.putData (0, 1) none),
    .client (.putData (0, 2) none), .serve, .serve, .client .connectionLost, .client .retryFires,
    .client (.contextFetched 2 (some none)), .client .ready, .serve]

/-- Both writes are outstanding after the loss, on data that already hold the first one. -/
theorem outstanding_suffice_resentWrites :
    ∃ s : Delivery Nat (Nat × Nat) (Nat → Nat), s.issued = [(0, 1), (0, 2)] ∧
      s.client.outstandingPuts.map (fun p => p.2.request) = [(0, 1), (0, 2)] ∧ s.data 0 = 1 ∧
      (s.client.outstandingPuts.map fun p => p.2.request).foldl setCell s.data =
        s.issued.foldl setCell fun _ => 0 := by
  obtain ⟨s, hs⟩ : ∃ s, (system Nat setCell fun _ => 0).exec ⟨initial, 0, 0, fun _ => 0, []⟩
      resentWrites = some s := ⟨_, rfl⟩
  have hsuffice := outstanding_suffice overwrites_setCell (.of_exec rfl hs)
  cases hs
  exact ⟨_, rfl, rfl, rfl, hsuffice.2⟩

end Delivery

end FirebaseLogin
