import FirebaseLogin.ClientStore
import FirebaseLogin.PushIds
import FirebaseLogin.SortedDictionary

/-!
# The Order of the Clients

The clients of a user as the database client keeps them: `internalNodeFrom:` makes the children
of a node a sorted dictionary in the order of keys. The keys are those that `childByAutoId` draws
from the push ids, so that under a clock that does not go back and stays below `64 ^ 8`
milliseconds, and without an overflow of the twelve random digits within one of them, they are fresh
and the dictionary holds the clients in the order of their saving. The key of the test record
spells an integer, which comes before them.

## Main results

* `clients_in_order_of_saving`: **the clients of a user are kept in the order of their saving.**
-/

namespace FirebaseLogin

open SortedEntries FImmutableSortedDictionary

/-- The sorted dictionary of the children of a node. -/
def childrenDict (node : FNode) : Option (FImmutableSortedDictionary NodeKey FNode) :=
  fromDictionary compareKey (node.entries.map fun e => (.text (unichars e.1), e.2))

/-- A record as an entry of the dictionary. -/
def dictEntry (p : String × User) : NodeKey × FNode :=
  (.text (unichars p.1), recordNode p.1 p.2)

/-- The records of a user: the one of the test calls first, and the others in the order of their
calls. -/
def recordsInOrder (id : PathComponent) (calls : List SaveCall) : List (NodeKey × FNode) :=
  ((testClient id calls).toList.map fun client => dictEntry (proofClientTestableId, client)) ++
    (savedClients id calls).map dictEntry

/-- The calls that draw a key have drawn the ids of a run of the generator, in which the increment
of the twelve digits does not overflow. -/
def DrawnBy (s : FNextPushId) (draws : List FNextPushId.Draw) (calls : List SaveCall) : Prop :=
  s.pushIds draws = some ((calls.filter fun c => ¬ c.isTestable).map SaveCall.autoId)

/-- A string has at least as many code units as scalars. -/
theorem length_unichars_ge (s : String) : s.toList.length ≤ (unichars s).length := by
  rw [unichars]
  induction s.toList with
  | nil => exact Nat.le_refl _
  | cons c cs ih =>
      have hchar : 1 ≤ (unicharsOfChar c).length := by
        rw [unicharsOfChar]
        split
        · exact Nat.le_refl _
        · exact Nat.le_succ _
      rw [List.flatMap_cons, List.length_append, List.length_cons]
      omega

/-- The key of the test record comes before every push id. -/
theorem compareKey_proofClientTestableId (k : PushId) :
    compareKey (.text (unichars proofClientTestableId)) k.nodeKey = .lt := by
  have hint : tryParseStringToInt (unichars proofClientTestableId) = some 1234567890 := by
    decide +kernel
  have hlong : 11 < (unichars k.val).length := by
    have hlength := length_unichars_ge k.val
    rw [k.length_eq] at hlength
    omega
  have hnone : tryParseStringToInt (unichars k.val) = none := by
    rw [tryParseStringToInt, if_pos (.inl hlong)]
  have hne : unichars proofClientTestableId ≠ unichars k.val := by
    intro heq
    rw [heq, hnone] at hint
    cases hint
  simp [compareKey, PushId.nodeKey, hne, compareText, hint, hnone]

section Drawn

variable {s : FNextPushId} {draws : List FNextPushId.Draw} {calls : List SaveCall}
  (hrange : ∀ d ∈ draws, d.now < 64 ^ 8)
  (hclock : (draws.map FNextPushId.Draw.now).Pairwise (· ≤ ·))
  (hdrawn : DrawnBy s draws calls)
include hrange hclock hdrawn

/-- The drawn keys ascend in the order of the calls. -/
theorem autoIds_ascending :
    (calls.filter fun c => ¬ c.isTestable).Pairwise fun a b =>
      compareKey a.autoId.nodeKey b.autoId.nodeKey = .lt :=
  List.pairwise_map.mp (FNextPushId.pushIds_ascending hrange hclock hdrawn)

/-- The drawn keys are fresh. -/
theorem freshKeys_of_drawn : FreshKeys calls := by
  refine List.pairwise_map.mpr ((autoIds_ascending hrange hclock hdrawn).imp ?_)
  intro a b hlt heq
  rw [heq] at hlt
  exact ne_eq_of_lt hlt Std.ReflCmp.compare_self

/-- The records of a user ascend in the order of keys. -/
theorem ascending_recordsInOrder (id : PathComponent) :
    Ascending compareKey (recordsInOrder id calls) := by
  refine List.pairwise_append.mpr ⟨?_, ?_, ?_⟩
  · cases testClient id calls with
    | none => exact List.Pairwise.nil
    | some client => exact List.pairwise_singleton _ _
  · rw [savedClients, List.map_map, List.pairwise_map]
    refine List.Pairwise.sublist ?_ (autoIds_ascending hrange hclock hdrawn)
    refine List.monotone_filter_right _ fun c hc => ?_
    have hcond := of_decide_eq_true hc
    exact decide_eq_true hcond.2.2
  · intro a ha b hb
    obtain ⟨client, -, rfl⟩ := List.mem_map.mp ha
    obtain ⟨p, hp, rfl⟩ := List.mem_map.mp hb
    obtain ⟨c, -, -, hkey⟩ := mem_savedClients hp
    have hlt := compareKey_proofClientTestableId c.autoId
    rw [PushId.nodeKey, ← hkey] at hlt
    exact hlt

/-- **The order of the clients.** After any sequence of calls of `saveClient` whose keys were
drawn under a clock that does not go back and stays within the eight digits of the time stamp,
without an overflow of the random digits, the dictionary of a user's clients is built without
an exception, and holds the test record and then the clients in the order of their saving. -/
theorem clients_in_order_of_saving (id : PathComponent) :
    FreshKeys calls ∧ ∃ d,
      childrenDict ((Database.afterCalls calls).observeSingleEvent
        (clientsReference id.val)).node = some d ∧
      d.entries = recordsInOrder id calls ∧
      keyEnumerator compareKey d = (recordsInOrder id calls).map Prod.fst := by
  have hfresh := freshKeys_of_drawn hrange hclock hdrawn
  refine ⟨hfresh, ?_⟩
  have hperm : (recordsInOrder id calls).Perm
      (((Database.afterCalls calls).observeSingleEvent
        (clientsReference id.val)).node.entries.map fun e =>
          ((.text (unichars e.1), e.2) : NodeKey × FNode)) := by
    have hmap := (clients_perm hfresh id).map fun e =>
      ((.text (unichars e.1), e.2) : NodeKey × FNode)
    rw [List.map_map] at hmap
    rw [node_observeSingleEvent_clients]
    refine List.Perm.trans ?_ hmap.symm
    rw [recordsInOrder, recordsOf, List.map_append, List.map_map]
    exact List.perm_append_comm
  obtain ⟨d, hd, hentries⟩ :=
    fromDictionary_spec (ascending_recordsInOrder hrange hclock hdrawn id) hperm
  refine ⟨d, hd, hentries, ?_⟩
  rw [← hentries]
  cases d with
  | array es => rfl
  | tree root => exact FLLRBNode.keyEnumerator_eq root

end Drawn

/-- Calls for one user that drew the ids of `sampleDraws`, with a test call between them. -/
def drawnCalls (client : User) : List SaveCall :=
  let id : PathComponent := ⟨"owner", by decide⟩
  [⟨false, id, client, pushIdOf 1600000000000 FNextPushId.sampleRand, true⟩,
    ⟨true, id, client, sampleKey, true⟩,
    ⟨false, id, client, pushIdOf 1600000000000 FNextPushId.sampleRandAfter, false⟩,
    ⟨false, id, client, pushIdOf 1600000000001 FNextPushId.initial.lastRandChars, true⟩]

/-- The clients of one user, with the test record first. -/
theorem clients_in_order_of_saving_drawnCalls :
    DrawnBy .initial FNextPushId.sampleDraws (drawnCalls newClient) ∧
      (recordsInOrder ⟨"owner", by decide⟩ (drawnCalls newClient)).length = 3 ∧
      ∃ d, childrenDict ((Database.afterCalls (drawnCalls newClient)).observeSingleEvent
          (clientsReference "owner")).node = some d ∧
        d.entries = recordsInOrder ⟨"owner", by decide⟩ (drawnCalls newClient) := by
  have hdrawn : DrawnBy .initial FNextPushId.sampleDraws (drawnCalls newClient) := rfl
  obtain ⟨-, d, hd, hentries, -⟩ :=
    clients_in_order_of_saving (by decide) (by decide) hdrawn ⟨"owner", by decide⟩
  exact ⟨hdrawn, rfl, d, hd, hentries⟩

end FirebaseLogin
