import FirebaseLogin.WriteDelivery

/-!
# The Order of the Calls

The blocks of the writes, against a server that answers in order. While a listen is unanswered
the connection holds the answers to its writes back; the listens are sent before the writes when
a connection is restored, so that the held answers are called before those of the writes that are
sent again. This needs that the client still listens to something: else the held answers wait
while later writes are called back.

## Main results

* `InOrder.move`, `InOrder.answer`: the order of the writes is kept.
* `puts_called_in_order`: **the blocks of the writes are called in the order of issue**, each of
  them once, in every run in which the client listens to something while an answer is held.
-/

namespace FirebaseLogin

open FPersistentConnection

variable {κ ρ δ : Type}

namespace FPersistentConnection

variable {c c' : Core κ ρ} {n m : Nat}

namespace Core

/-- A listen waits for its answer. -/
def awaitsListen (c : Core κ ρ) : Prop := ∃ p ∈ c.blocks, p.2.isListen = true

/-- The client listens to something while an answer to a write is held back. -/
def Listening (c : Core κ ρ) : Prop := c.putsToAck ≠ [] → c.listens ≠ []

/-- A listen is still awaited after further requests. -/
theorem awaitsListen_sendAll (rs : List (Request κ ρ)) (h : c.awaitsListen) :
    (c.sendAll rs).awaitsListen := by
  obtain ⟨p, hp, hlisten⟩ := h
  exact ⟨p, List.mem_append_left _ hp, hlisten⟩

/-- A listen is sent when the connection is restored. -/
theorem awaitsListen_restored (rs : List (Request κ ρ)) (h : c.listens ≠ []) :
    (c.restored rs).awaitsListen := by
  obtain ⟨l, hl⟩ := List.exists_mem_of_ne_nil _ h
  have hmem : (.listen l.1 l.2 : Request κ ρ) ∈ c.restoring rs := by
    simp only [restoring, List.append_assoc, List.mem_append, List.mem_map]
    exact .inl ⟨l, hl, rfl⟩
  rw [← map_snd_numbered c.requestNumber (c.restoring rs), List.mem_map] at hmem
  obtain ⟨p, hp, hlisten⟩ := hmem
  refine ⟨p, List.mem_append_right _ (List.mem_filter.mpr ⟨hp, ?_⟩), ?_⟩
  · rw [hlisten]
    rfl
  · rw [hlisten]
    rfl

end Core

/-- The answer to another request leaves a listen waiting. -/
theorem Queued.awaitsListen_answered (h : Queued c n m) {p : Nat × Request κ ρ}
    (hp : c.sent[m]? = some p) (hother : p.2.isListen = false) (hlisten : c.awaitsListen) :
    (c.answered p.1).awaitsListen := by
  obtain ⟨q, hq, hlisten⟩ := hlisten
  obtain ⟨hdrop, hne⟩ := h.drop_eq_cons hp
  refine ⟨q, List.mem_filter.mpr ⟨hq, ?_⟩, hlisten⟩
  rw [h.blocks, hdrop] at hq
  rcases List.mem_cons.mp (List.mem_of_mem_filter hq) with rfl | hq
  · rw [hother] at hlisten
    cases hlisten
  · exact decide_eq_true (hne q hq)

/-- The writes that were called back, those whose answers are held and the outstanding ones are
the writes that were issued, in this order; and on an open connection an answer is held only while
a listen waits for its own. -/
structure InOrder (c : Core κ ρ) : Prop where
  order : c.acked.map Prod.fst ++ c.putsToAck.map Prod.fst ++ c.puts.map Prod.fst =
    List.range c.putCounter
  held : c.putsToAck ≠ [] → c.phase = .connected → c.awaitsListen

/-- The order holds initially. -/
theorem inOrder_initial : InOrder (initial : FPersistentConnection κ ρ).core :=
  ⟨rfl, fun hheld => absurd rfl hheld⟩

namespace InOrder

/-- A new write comes last. -/
theorem issued (h : InOrder c) (put : FOutstandingPut ρ) :
    InOrder (c.issued c.putCounter put) := by
  refine ⟨?_, h.held⟩
  simp only [Core.issued, List.map_append, List.map_cons, List.map_nil]
  rw [← List.append_assoc, h.order, List.range_succ]

/-- Requests do not change the order. -/
theorem sendAll (h : InOrder c) (rs : List (Request κ ρ)) : InOrder (c.sendAll rs) :=
  ⟨h.order, fun hheld hphase => Core.awaitsListen_sendAll rs (h.held hheld hphase)⟩

/-- Plain writes stay outstanding when the connection is lost. -/
theorem lost (h : InOrder c) (hplain : ∀ p ∈ c.puts, p.2.hash = none) : InOrder c.lost := by
  obtain ⟨hputs, hacked⟩ := Core.lost_of_plain hplain
  refine ⟨?_, fun _ hphase => by cases hphase⟩
  rw [hputs, hacked]
  exact h.order

/-- The listens are sent first when the connection is restored. -/
theorem restored (horder : c.acked.map Prod.fst ++ c.putsToAck.map Prod.fst ++
      c.puts.map Prod.fst = List.range c.putCounter) (hlistening : c.Listening)
    (rs : List (Request κ ρ)) : InOrder (c.restored rs) := by
  refine ⟨?_, fun hheld _ => Core.awaitsListen_restored rs (hlistening hheld)⟩
  simp only [Core.restored, Core.sendAll, allPutsSent, List.map_map]
  exact horder

/-- The covered events of the client. -/
theorem move (h : InOrder c) (hplain : ∀ p ∈ c.puts, p.2.hash = none) (hlistening : c.Listening)
    {k : Kind ρ} (hk : k.isCovered = true) (hmove : Move c k c') : InOrder c' := by
  cases hmove with
  | keep ls | listenLater l | getLater i request | getTimesOut i get => exact ⟨h.order, h.held⟩
  | send ls rs => exact sendAll (c := { c with listens := ls }) ⟨h.order, h.held⟩ rs
  | listenNow l =>
      exact sendAll (c := { c with listens := c.listens ++ [l] }) ⟨h.order, h.held⟩ _
  | putLater request hash => exact h.issued _
  | putNow request hash => exact (h.issued _).sendAll _
  | getNow i request => exact sendAll (c := c.asked i ⟨request, true⟩) ⟨h.order, h.held⟩ _
  | lose => exact h.lost hplain
  | authenticate rs => exact ⟨h.order, fun _ hphase => by cases hphase⟩
  | ready rs rs' => exact restored (c := Core.sendAll rs _) h.order hlistening rs'
  | purge | ignored | plainAnswered | authAnswered | authRestores | authRejected | putGone
  | putAnswered | putHeld | getAnswered | listenAnswered | listensAnswered => cases hk

/-- The answer of the server to the next request. -/
theorem answer (h : InOrder c) (htracked : Tracked c n m) (hlistening : c.Listening)
    (hkeys : (c.puts.map Prod.fst).Nodup) {p : Nat × Request κ ρ} (hp : c.sent[m]? = some p)
    {status : String} (hmove : Move c (.answer p.1 status) c') : InOrder c' := by
  have hkept : p.2.isListen = false → InOrder (c.answered p.1) := fun hother =>
    ⟨h.order, fun hheld hphase =>
      htracked.queued.awaitsListen_answered hp hother (h.held hheld hphase)⟩
  cases hmove with
  | ignored rn => exact h
  | plainAnswered rn request hrn hplain =>
      obtain rfl := htracked.request_eq hp hrn
      refine hkept ?_
      cases hr : p.2 with
      | listen => rw [hr] at hplain; cases hplain
      | stats | auth | unauth | unlisten | put | get | onDisconnect => rfl
  | authAnswered rn hrn =>
      have hauth := htracked.request_eq hp hrn
      have hphase := htracked.phase_of_auth hp hauth
      have hansw := hkept (by rw [hauth]; rfl)
      exact ⟨hansw.order, fun hheld _ => hansw.held hheld hphase⟩
  | authRestores rn rs => exact restored (c := c.answered p.1) h.order hlistening rs
  | authRejected rn => exact h.lost htracked.phased.plain
  | putGone rn i request hrn =>
      exact hkept (by rw [htracked.request_eq hp hrn]; rfl)
  | putAnswered rn i request status hrn hlisten =>
      obtain ⟨hphase, put, puts, hputs, -, hfilter⟩ :=
        htracked.puts_eq_cons hp (htracked.request_eq hp hrn) hkeys
      -- no listen waits, so that no answer is held
      have hnone : c.putsToAck = [] := by
        by_contra hheld
        obtain ⟨q, hq, hlisten'⟩ := h.held hheld hphase
        rw [hlisten q hq] at hlisten'
        cases hlisten'
      have horder := h.order
      rw [hputs, hnone] at horder
      refine ⟨?_, fun hheld => absurd hnone hheld⟩
      simp only [hfilter, Core.answered, hnone]
      simpa using horder
  | putHeld rn i request status hrn hlisten =>
      have hput := htracked.request_eq hp hrn
      obtain ⟨-, put, puts, hputs, -, hfilter⟩ := htracked.puts_eq_cons hp hput hkeys
      have horder := h.order
      rw [hputs] at horder
      refine ⟨?_, fun _ _ => ?_⟩
      · simp only [hfilter, Core.answered]
        simpa using horder
      · exact htracked.queued.awaitsListen_answered hp (by rw [hput]; rfl) hlisten
  | getAnswered rn i request hrn =>
      have hansw := hkept (by rw [htracked.request_eq hp hrn]; rfl)
      exact ⟨hansw.order, hansw.held⟩
  | listenAnswered rn query id ls hrn hls hlisten => exact ⟨h.order, fun _ _ => hlisten⟩
  | listensAnswered rn query id ls =>
      refine ⟨?_, fun hheld => absurd rfl hheld⟩
      simpa [Core.answered] using h.order

end InOrder

/-- An answer that is delivered, but for a purge. -/
def Kind.Answers (P : String → Prop) : Kind ρ → Prop
  | .own | .listen | .put _ _ => True
  | .purge => False
  | .answer _ status => P status

/-- The writes were answered with a status as those the server sends. -/
def Core.Answered (P : String → Prop) (c : Core κ ρ) : Prop :=
  ∀ p ∈ c.acked ++ c.putsToAck, P p.2

/-- Without transactions every status comes from the server. -/
theorem Core.Answered.move {P : String → Prop} (h : c.Answered P)
    (hplain : ∀ p ∈ c.puts, p.2.hash = none) {k : Kind ρ} (hk : k.Answers P)
    (hmove : Move c k c') : c'.Answered P := by
  have hlost : c.lost.Answered P := by
    intro p hp
    rw [(Core.lost_of_plain hplain).2] at hp
    exact h p hp
  cases hmove with
  | lose | authRejected => exact hlost
  | purge => exact hk.elim
  | putAnswered rn i request status =>
      intro p hp
      simp only [Core.answered, List.append_assoc, List.singleton_append, List.mem_append,
        List.mem_cons] at hp
      rcases hp with hp | rfl | hp
      · exact h p (List.mem_append_left _ hp)
      · exact hk
      · exact h p (List.mem_append_right _ hp)
  | putHeld rn i request status =>
      intro p hp
      simp only [Core.answered, ← List.append_assoc, List.mem_append, List.mem_singleton] at hp
      rcases hp with hp | rfl
      · exact h p (List.mem_append.mpr hp)
      · exact hk
  | listensAnswered rn query id ls =>
      intro p hp
      rw [List.append_nil] at hp
      exact h p hp
  | keep | send | listenLater | listenNow | putLater | putNow | getLater | getNow | getTimesOut
  | authenticate | ready | ignored | plainAnswered | authAnswered | authRestores | putGone
  | getAnswered | listenAnswered => exact h

/-- The writes are counted. -/
theorem Move.putCounter_eq {k : Kind ρ} (hmove : Move c k c') :
    c'.putCounter = c.putCounter + k.writes.length := by
  cases hmove with
  | keep | send | listenLater | listenNow | putLater | putNow | getLater | getNow | getTimesOut
  | purge | lose | authenticate | ready | ignored | plainAnswered | authAnswered | authRestores
  | authRejected | putGone | putAnswered | putHeld | getAnswered | listenAnswered
  | listensAnswered => rfl

end FPersistentConnection

/-! ### Every run -/

namespace Delivery

/-- The write that an action issues. -/
def Action.writes : Action κ ρ → List ρ
  | .client e => e.kind.writes
  | .serve | .deliver _ => []

/-- The statuses that an action delivers. -/
def Action.Answers (P : String → Prop) : Action κ ρ → Prop
  | .client _ | .serve => True
  | .deliver status => P status

variable [FQuerySpec κ] {ι ν : Type} {apply : δ → ρ → δ} {view : δ → ι → ν} {d₀ : δ}
  {P : String → Prop}

/-- The writes are delivered and called back in order. -/
structure Reported (apply : δ → ρ → δ) (view : δ → ι → ν) (d₀ : δ) (P : String → Prop)
    (s : Delivery κ ρ δ) : Prop where
  sound : Sound apply view d₀ s
  inOrder : InOrder s.client.core
  answered : s.client.core.Answered P
  issued_length : s.issued.length = s.client.putCounter

/-- The invariant holds initially. -/
theorem reported_initial :
    Reported apply view d₀ P (⟨initial, 0, 0, d₀, []⟩ : Delivery κ ρ δ) where
  sound := sound_initial
  inOrder := inOrder_initial
  answered := fun _ hp => absurd hp List.not_mem_nil
  issued_length := rfl

variable [DecidableEq κ]

/-- An action keeps the order of the writes, and the blocks that were called stay called. -/
theorem Reported.step (hover : Overwrites apply view) {s s' : Delivery κ ρ δ}
    (h : Reported apply view d₀ P s) (hlistening : s.client.core.Listening) {a : Action κ ρ}
    (ha : a.Answers P) (hstep : (system κ apply d₀).step s a = some s') :
    Reported apply view d₀ P s' ∧ s.client.called <+: s'.client.called ∧
      s'.issued = s.issued ++ a.writes := by
  have hsound := h.sound.step hover hstep
  have hplain := h.sound.tracked.phased.plain
  cases a with
  | client e =>
      obtain ⟨c, hcovered, hc, rfl⟩ := clientStep_eq_some hstep
      have hmove := handle_move h.sound.wired hc
      have hkind : e.kind.Answers P := by
        cases hk : e.kind with
        | own | listen | put => trivial
        | purge | answer => rw [hk] at hcovered; cases hcovered
      refine ⟨⟨hsound, ?_, ?_, ?_⟩, ?_, ?_⟩
      · rw [client_settle]
        exact h.inOrder.move hplain hlistening hcovered hmove
      · rw [client_settle]
        exact h.answered.move hplain hkind hmove
      · rw [client_settle, issued_settle, List.length_append, h.issued_length]
        exact hmove.putCounter_eq.symm
      · rw [client_settle]
        exact (step_follows h.sound.wired hc).called
      · rw [issued_settle]
        rfl
  | serve =>
      obtain ⟨p, -, rfl⟩ := Option.map_eq_some_iff.mp hstep
      exact ⟨{ h with sound := hsound }, List.prefix_rfl, (List.append_nil _).symm⟩
  | deliver status =>
      obtain ⟨p, c, -, hp, hc, rfl⟩ := deliver_eq_some hstep
      have hmove := handle_move (e := .response p.1 status) h.sound.wired hc
      refine ⟨⟨hsound, ?_, ?_, ?_⟩, ?_, ?_⟩
      · rw [client_settle]
        exact h.inOrder.answer h.sound.tracked hlistening
          (nodup_of_ascending h.sound.wired.puts) hp hmove
      · rw [client_settle]
        exact h.answered.move hplain (k := .answer p.1 status) ha hmove
      · rw [client_settle, issued_settle, h.issued_length]
        exact hmove.putCounter_eq.symm
      · rw [client_settle]
        exact (step_follows (e := .response p.1 status) h.sound.wired hc).called
      · rw [issued_settle]
        exact (List.append_nil _).symm

/-- **The blocks of the writes are called in the order of their issue.** If in every state of a
run the client listens to something while an answer is held back, then the writes whose blocks
were called, those whose answers are held and the outstanding ones are at its end, in this order,
the writes that were issued: none is missing, none is there twice, and none was called before an
earlier one. -/
theorem puts_called_in_order {s : Delivery κ ρ δ} {h : List (Delivery κ ρ δ × Action κ ρ)}
    (run : (system κ apply d₀).Run ⟨initial, 0, 0, d₀, []⟩ h s)
    (hlistening : ∀ x ∈ h, x.1.client.putsToAck ≠ [] → x.1.client.listens ≠ []) :
    (s.client.called.filterMap fun c => c.1.putIndex) ++ s.client.putsToAck.map Prod.fst ++
      s.client.outstandingPuts.map Prod.fst = List.range s.client.putCounter := by
  -- the order does not depend on the data or the statuses
  have hover : Overwrites apply (fun _ i => i : δ → Empty → Empty) := fun _ i => i.elim
  have hreported : Reported apply (fun _ i => i : δ → Empty → Empty) d₀ (fun _ => True) s := by
    refine run.invariant (C := fun t _ => t.client.core.Listening) (I := Reported _ _ _ _)
      hlistening reported_initial ?_
    intro t a u hlistening ht hstep
    refine (ht.step hover hlistening ?_ hstep).1
    cases a with
    | client | serve | deliver => trivial
  have horder := hreported.inOrder.order
  rwa [map_fst_acked] at horder

/-- A write whose answer is held back because of a listen, a loss, and another write on the next
connection. -/
def heldAnswer : List (Action Nat Nat) :=
  [.client (.resume .waitingForOpen), .client .retryFires,
    .client (.contextFetched 1 (some none)), .client .ready, .client (.putData 1 none),
    .client (.listen 7), .serve, .serve, .deliver "ok", .deliver "ok", .client .connectionLost,
    .client .retryFires, .client (.contextFetched 2 (some none)), .client .ready,
    .client (.putData 2 none), .serve, .serve, .deliver "ok", .deliver "ok"]

/-- Two writes whose answers are held back at a loss are called back in their order. -/
theorem puts_called_in_order_heldAnswer :
    ∃ s : Delivery Nat Nat Nat, s.client.putCounter = 2 ∧
      s.client.called = [(.listen 7 0, "ok"), (.put 0, "ok"), (.put 1, "ok")] ∧
      (s.client.called.filterMap fun c => c.1.putIndex) ++ s.client.putsToAck.map Prod.fst ++
        s.client.outstandingPuts.map Prod.fst = List.range 2 := by
  obtain ⟨s, hs⟩ : ∃ s, (system Nat (fun _ w => w) 0).exec ⟨initial, 0, 0, 0, []⟩ heldAnswer =
      some s := ⟨_, rfl⟩
  have horder := puts_called_in_order (.of_exec hs) (by decide)
  cases hs
  exact ⟨_, rfl, rfl, horder⟩

end Delivery

end FirebaseLogin
