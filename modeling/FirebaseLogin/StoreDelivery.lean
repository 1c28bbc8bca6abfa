import FirebaseLogin.ClientStore
import FirebaseLogin.WriteDelivery

/-!
# The Clients Reach the Server

The calls of `saveClient` over the persistent connection. The service hands each call to the
database client, which issues its write and keeps it until the server has answered; whether the
server accepts a write is part of the call. The data of the server is compared with that of
`Database.afterCalls`, in which the calls are done at once and in their order, at every location
and as `checkIfClientExistInDB` sees it.

## Main results

* `saves_reach_server`: **no call is lost and none is done out of order**, however often the
  connection is lost.
-/

namespace FirebaseLogin

open KeyTree

/-- The value at a location. -/
def Database.value (db : Database) (location : List String) : Option NSValue :=
  (db.root.getChild location).value?

/-- A call keeps the value at a location or sets it. -/
theorem overwrites_save : Overwrites Database.save Database.value := by
  intro c location
  cases hs : c.succeeds with
  | false => exact .inl fun db => by rw [db.save_of_fails hs]
  | true =>
      rcases value?_updateChild [c.id.val, clientDbReference, c.key] location
        (recordNode c.key c.client) with hkeep | ⟨v, hset⟩
      · refine .inl fun db => ?_
        rw [Database.value, db.root_save hs, hkeep db.root db.wellFormed, Database.value]
      · refine .inr ⟨v, fun db => ?_⟩
        rw [Database.value, db.root_save hs, hset db.root db.wellFormed]

/-- The values decide whether a user has clients. -/
theorem checkIfClientExistInDB_congr {db db' : Database} (h : db.value = db'.value) (id : String) :
    checkIfClientExistInDB db id = checkIfClientExistInDB db' id := by
  have hentries : ∀ db : Database,
      (db.root.getChild (clientsReference id).path.pieces).entries = [] ↔
        ∀ k q, db.value ((clientsReference id).path.pieces ++ k :: q) = none := by
    intro db
    rw [(db.wellFormed.getChild _).entries_eq_nil_iff]
    simp only [Database.value, getChild_append]
  have hexists : ∀ db : Database, checkIfClientExistInDB db id = true ↔
      ¬ ∀ k q, db.value ((clientsReference id).path.pieces ++ k :: q) = none := by
    intro db
    rw [← hentries, checkIfClientExistInDB, decide_eq_true_eq, gt_iff_lt, DataSnapshot.children,
      List.length_map, List.length_pos_iff]
    rfl
  rw [Bool.eq_iff_iff, hexists, hexists, h]

/-- **The clients reach the server.** In every run of the client and the server, whenever the
connection is open and its requests are answered, no call is outstanding, and the data of the
server is that of the calls done in their order. -/
theorem saves_reach_server {κ : Type} [DecidableEq κ] [FQuerySpec κ]
    {s : Delivery κ SaveCall Database}
    (r : (Delivery.system κ Database.save .empty).Reachable s)
    (hstate : s.client.connectionState = .connected)
    (hall : s.delivered = s.client.sent.length) :
    s.client.outstandingPuts = [] ∧ s.data.value = (Database.afterCalls s.issued).value ∧
      ∀ id, checkIfClientExistInDB s.data id =
        checkIfClientExistInDB (Database.afterCalls s.issued) id := by
  have hsound := Delivery.sound_of_reachable overwrites_save r
  have hputs : s.client.outstandingPuts = [] := hsound.drained hstate hall
  have hvalue : s.data.value = (Database.afterCalls s.issued).value := by
    have hpending := hsound.pending overwrites_save
    rwa [FPersistentConnection.Core.pending, show s.client.core.puts = [] from hputs] at hpending
  exact ⟨hputs, hvalue, checkIfClientExistInDB_congr hvalue⟩

/-- A call before the connection is open. -/
def earlyCall : SaveCall := ⟨false, ⟨"caller", by decide⟩, User.empty, sampleKey, true⟩

/-- The write of the call is served, but the connection is lost before its answer; it is served
again on the next connection, and answered. -/
def earlyCallRun : List (Delivery.Action Nat SaveCall) :=
  [.client (.putData earlyCall none), .client (.resume .waitingForOpen), .client .retryFires,
    .client (.contextFetched 1 (some none)), .client .ready, .serve, .serve,
    .client .connectionLost, .client .retryFires, .client (.contextFetched 2 (some none)),
    .client .ready, .serve, .deliver "ok"]

/-- A call before the connection is open reaches the server. -/
theorem saves_reach_server_earlyCall :
    ∃ s : Delivery Nat SaveCall Database, s.issued = [earlyCall] ∧
      s.client.called = [(.put 0, "ok")] ∧ s.client.outstandingPuts = [] ∧
      s.data.value = (Database.afterCalls [earlyCall]).value := by
  obtain ⟨s, hs⟩ : ∃ s, (Delivery.system Nat Database.save .empty).exec
      ⟨FPersistentConnection.initial, 0, 0, .empty, []⟩ earlyCallRun = some s := ⟨_, rfl⟩
  have r : (Delivery.system Nat Database.save .empty).Reachable s := .of_exec rfl hs
  have hissued : s.issued = [earlyCall] ∧ s.client.called = [(.put 0, "ok")] := by
    cases hs
    exact ⟨rfl, rfl⟩
  have hstate : s.client.connectionState = .connected ∧
      s.delivered = s.client.sent.length := by
    cases hs
    exact ⟨rfl, rfl⟩
  obtain ⟨hputs, hvalue, -⟩ := saves_reach_server r hstate.1 hstate.2
  rw [hissued.1] at hvalue
  exact ⟨s, hissued.1, hissued.2, hputs, hvalue⟩

end FirebaseLogin
