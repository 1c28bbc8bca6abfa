import FirebaseLogin.DataManager
import FirebaseLogin.KeyTree
import Mathlib.Data.List.Induction

/-!
# The Client Store

`ServiceDataManager.swift` over the whole database: `saveClient` writes the record of a
client below its user, and `checkIfClientExistInDB` counts the records of a user. The two
build their references separately, and the records under push ids share one parent with the
record of the tests, which has a fixed key.

The database is the tree of the database client (`FChildrenNode`, `FLeafNode`): a write
replaces the tree at its location, a write that fails changes nothing, and empty nodes do not
exist. `saveClient` first removes the observers of the reference of an earlier call; the
service observes no such reference, so that this has no effect on the store.

What the store is for is said without a tree: `recordsOf` lists the clients a sequence of
calls leaves to a user. `clients_perm` says that the tree holds exactly these.

## Main results

* `save_frame`: a call changes nothing under the other users.
* `clients_perm`: the children of a user's clients, after any sequence of calls.
* `clientStore_spec`: **writer and reader agree, and users are isolated.**
-/

namespace FirebaseLogin

open KeyTree

/-! ### The database -/

/-- A node of the database. -/
abbrev FNode := KeyTree String NSValue

/-- `nodeFrom:` on a value of a record; a null is nothing. -/
def nodeFromValue : NSValue → FNode
  | .null => KeyTree.empty
  | v => .leaf v

/-- `nodeFrom:` on a dictionary: the children that are not empty, under their keys. -/
def nodeFrom (d : NSDictionary) : FNode :=
  .children (d.foldl (fun children e =>
    if (nodeFromValue e.2).isEmpty then children
    else children.kinsert e.1 (nodeFromValue e.2)) [])

/-- A database, whose root is a well-formed tree. -/
structure Database where
  root : FNode
  wellFormed : root.WellFormed

/-- The node of a value is well formed. -/
theorem wellFormed_nodeFromValue (v : NSValue) : (nodeFromValue v).WellFormed := by
  cases v with
  | null => exact .empty
  | string | number => exact .leaf _

/-- A dictionary becomes a well-formed node. -/
theorem wellFormed_nodeFrom (d : NSDictionary) : (nodeFrom d).WellFormed := by
  have hfold : ∀ (d : NSDictionary) (es : List (Σ _ : String, FNode)),
      (KeyTree.children es).WellFormed →
      (KeyTree.children (d.foldl (fun children e =>
        if (nodeFromValue e.2).isEmpty then children
        else children.kinsert e.1 (nodeFromValue e.2)) es)).WellFormed := by
    intro d
    induction d with
    | nil => exact fun es hes => hes
    | cons e d ih =>
        intro es hes
        rw [List.foldl_cons]
        apply ih
        split
        · exact hes
        · rename_i hne
          have hinsert : (KeyTree.children es).updateImmediateChild e.1 (nodeFromValue e.2) =
              .children (es.kinsert e.1 (nodeFromValue e.2)) := by
            simp [updateImmediateChild, hne]
          rw [← hinsert]
          exact hes.updateImmediateChild e.1 (wellFormed_nodeFromValue e.2)
  exact hfold d [] .empty

namespace Database

/-- The database without any data. -/
def empty : Database := ⟨KeyTree.empty, .empty⟩

/-- A successful `setValue`. -/
def setValue (db : Database) (w : SetValue) : Database :=
  ⟨db.root.updateChild w.path.pieces (nodeFrom w.value),
    db.wellFormed.updateChild _ (wellFormed_nodeFrom w.value)⟩

end Database

/-- A snapshot: the data at a reference. -/
structure DataSnapshot where
  ref : DatabaseReference
  node : FNode

namespace DataSnapshot

/-- The key of the data, nil at the root. -/
def key (s : DataSnapshot) : Option String := s.ref.key

/-- The snapshots of the children. -/
def children (s : DataSnapshot) : List DataSnapshot :=
  s.node.entries.map fun e => ⟨s.ref.child e.1, e.2⟩

end DataSnapshot

/-- `observeSingleEvent(of: .value)`: the snapshot it calls back with. -/
def Database.observeSingleEvent (db : Database) (r : DatabaseReference) : DataSnapshot :=
  ⟨r, db.root.getChild r.path.pieces⟩

/-! ### The service -/

/-- The characters the database client rejects in a key. -/
def kInvalidKeyCharacters : String := "[].#$/"

/-- `isValidKey:` of the database client. -/
def isValidKey (key : String) : Bool :=
  key != "" && key.toList.all fun c => !kInvalidKeyCharacters.toList.contains c

/-- A string that is a single valid component of a path. -/
structure PathComponent where
  val : String
  valid : isValidKey val = true
deriving DecidableEq

/-- A call of `saveClient`, the push id its reference would draw, and whether its `setValue`
succeeds. -/
structure SaveCall where
  isTestable : Bool
  id : PathComponent
  client : User
  autoId : PushId
  succeeds : Bool
deriving DecidableEq

/-- The database after a call. -/
def Database.save (db : Database) (c : SaveCall) : Database :=
  if c.succeeds then db.setValue (saveClient c.isTestable c.id.val c.client c.autoId) else db

/-- The database after a sequence of calls on the empty one. -/
def Database.afterCalls (calls : List SaveCall) : Database := calls.foldl Database.save .empty

/-- The reference under which the clients of a user are kept. -/
def clientsReference (id : String) : DatabaseReference :=
  (DatabaseReference.reference.child id).child clientDbReference

/-- `checkIfClientExistInDB(id:)`, what it completes with. The children of a snapshot are
snapshots, so that the cast of the source never fails. -/
def checkIfClientExistInDB (db : Database) (id : String) : Bool :=
  let snapshot := db.observeSingleEvent (clientsReference id)
  let snapshots := snapshot.children
  decide (snapshots.length > 0)

/-! ### What the store is for -/

/-- The records of the successful calls for a user that draw a key, in their order. -/
def savedClients (id : PathComponent) (calls : List SaveCall) : List (String × User) :=
  (calls.filter fun c => c.id = id ∧ c.succeeds ∧ ¬ c.isTestable).map fun c =>
    (c.autoId.val, c.client)

/-- The client of the last successful test call for a user. -/
def testClient (id : PathComponent) (calls : List SaveCall) : Option User :=
  (calls.filter fun c => c.id = id ∧ c.succeeds ∧ c.isTestable).getLast?.map SaveCall.client

/-- The records a sequence of calls leaves to a user: one for each successful call that draws
a key, and a single one for the test calls. -/
def recordsOf (id : PathComponent) (calls : List SaveCall) : List (String × User) :=
  savedClients id calls ++
    (testClient id calls).toList.map fun client => (proofClientTestableId, client)

/-- The node of a record: the client with its key as its id. -/
def recordNode (key : String) (client : User) : FNode :=
  nodeFrom { client with id := some key }.toDictionary

/-- The keys drawn by `childByAutoId` are fresh. -/
def FreshKeys (calls : List SaveCall) : Prop :=
  ((calls.filter fun c => ¬ c.isTestable).map SaveCall.autoId).Nodup

/-- Whether keys are fresh is decided by comparing them. -/
instance (calls : List SaveCall) : Decidable (FreshKeys calls) :=
  inferInstanceAs (Decidable (List.Nodup _))

/-! ### One call -/

/-- The key under which a call stores its client. -/
def SaveCall.key (c : SaveCall) : String :=
  if c.isTestable then proofClientTestableId else c.autoId.val

/-- A path component is its string. -/
theorem PathComponent.val_injective {a b : PathComponent} (h : a.val = b.val) : a = b := by
  cases a
  cases b
  cases h
  rfl

/-- A push id is its string. -/
theorem PushId.val_injective {a b : PushId} (h : a.val = b.val) : a = b := by
  cases a
  cases b
  cases h
  rfl

/-- A path component is a single piece. -/
theorem PathComponent.pathPieces_val (id : PathComponent) : pathPieces id.val = [id.val] := by
  have hvalid := id.valid
  simp only [isValidKey, Bool.and_eq_true, bne_iff_ne, List.all_eq_true] at hvalid
  obtain ⟨hne, hchars⟩ := hvalid
  apply pathPieces_of_component hne
  intro hslash
  have hrejected : kInvalidKeyCharacters.toList.contains '/' = true := by decide
  have hallowed := hchars '/' hslash
  rw [hrejected] at hallowed
  cases hallowed

/-- The key of the test record is a single piece of a path. -/
theorem pathPieces_proofClientTestableId :
    pathPieces proofClientTestableId = [proofClientTestableId] := by
  decide

/-- No push id is the key of the test record. -/
theorem PushId.val_ne_proofClientTestableId (k : PushId) : k.val ≠ proofClientTestableId := by
  intro h
  have hlength := k.length_eq
  rw [h] at hlength
  revert hlength
  decide

/-- The location and the value of the write of a call. -/
theorem saveClient_call (c : SaveCall) :
    saveClient c.isTestable c.id.val c.client c.autoId =
      ⟨⟨[c.id.val, clientDbReference, c.key]⟩,
        { c.client with id := some c.key }.toDictionary⟩ := by
  cases htest : c.isTestable with
  | true =>
      simp [saveClient, DatabaseReference.child, DatabaseReference.reference,
        FPath.childFromString, SaveCall.key, htest, c.id.pathPieces_val,
        pathPieces_clientDbReference, pathPieces_proofClientTestableId]
  | false =>
      simp [saveClient, DatabaseReference.child, DatabaseReference.childByAutoId,
        DatabaseReference.reference, DatabaseReference.key, FPath.getBack,
        FPath.childFromString, SaveCall.key, htest, c.id.pathPieces_val,
        pathPieces_clientDbReference, PushId.pathPieces_val]

/-- The location of the clients of a user. -/
theorem clientsReference_pieces (id : PathComponent) :
    (clientsReference id.val).path.pieces = [id.val, clientDbReference] := by
  simp [clientsReference, DatabaseReference.child, DatabaseReference.reference,
    FPath.childFromString, id.pathPieces_val, pathPieces_clientDbReference]

/-- The node of the clients of a user. -/
def Database.clients (db : Database) (id : PathComponent) : FNode :=
  db.root.getChild [id.val, clientDbReference]

/-- A call that fails changes nothing. -/
theorem Database.save_of_fails (db : Database) {c : SaveCall} (h : c.succeeds = false) :
    db.save c = db := by
  simp [Database.save, h]

/-- The root after a call that succeeds. -/
theorem Database.root_save (db : Database) {c : SaveCall} (h : c.succeeds = true) :
    (db.save c).root = db.root.updateChild [c.id.val, clientDbReference, c.key]
      (recordNode c.key c.client) := by
  simp only [Database.save, h, if_true, Database.setValue, saveClient_call]
  rfl

/-- **A call changes nothing under the other users.** -/
theorem Database.save_frame (db : Database) {c : SaveCall} {id : PathComponent}
    (h : c.id ≠ id) :
    (db.save c).root.getImmediateChild id.val = db.root.getImmediateChild id.val := by
  cases hs : c.succeeds with
  | false => rw [db.save_of_fails hs]
  | true =>
      have hne : id.val ≠ c.id.val := fun heq => h (PathComponent.val_injective heq.symm)
      rw [db.root_save hs, getImmediateChild_updateChild_of_ne _ _ hne]

/-- A call leaves the clients of the other users as they are. -/
theorem Database.clients_save_of_ne (db : Database) {c : SaveCall} {id : PathComponent}
    (h : c.id ≠ id) : (db.save c).clients id = db.clients id := by
  simp only [Database.clients, getChild_cons, db.save_frame h]

/-- A record is not empty. -/
theorem recordNode_isEmpty (key : String) (client : User) :
    (recordNode key client).isEmpty = false :=
  rfl

/-- A call that succeeds inserts its record among the clients of its user. -/
theorem Database.entries_clients_save (db : Database) {c : SaveCall} (h : c.succeeds = true) :
    ((db.save c).clients c.id).entries =
      (db.clients c.id).entries.kinsert c.key (recordNode c.key c.client) := by
  have happend : [c.id.val, clientDbReference, c.key] =
      [c.id.val, clientDbReference] ++ [c.key] := rfl
  rw [Database.clients, db.root_save h, happend, db.wellFormed.getChild_updateChild_append,
    updateChild_cons, updateChild_nil, ← Database.clients]
  exact entries_updateImmediateChild _ _ (recordNode_isEmpty _ _)

/-! ### Sequences of calls -/

/-- The database after one more call. -/
theorem Database.afterCalls_concat (calls : List SaveCall) (c : SaveCall) :
    Database.afterCalls (calls ++ [c]) = (Database.afterCalls calls).save c := by
  simp [Database.afterCalls]

/-- A call that fails or is for another user leaves no record. -/
theorem recordsOf_concat_of_not {id : PathComponent} {c : SaveCall}
    (h : ¬ (c.id = id ∧ c.succeeds = true)) (calls : List SaveCall) :
    recordsOf id (calls ++ [c]) = recordsOf id calls := by
  have hnone : ∀ q : Prop, ¬ (c.id = id ∧ c.succeeds = true ∧ q) :=
    fun q hq => h ⟨hq.1, hq.2.1⟩
  simp [recordsOf, savedClients, testClient, hnone]

/-- A successful call that draws a key adds a record. -/
theorem recordsOf_concat_of_saved {c : SaveCall} (hs : c.succeeds = true)
    (htest : c.isTestable = false) (calls : List SaveCall) :
    recordsOf c.id (calls ++ [c]) = savedClients c.id calls ++ (c.key, c.client) ::
      (testClient c.id calls).toList.map fun client => (proofClientTestableId, client) := by
  simp [recordsOf, savedClients, testClient, hs, htest, SaveCall.key]

/-- A successful test call takes the place of the earlier ones. -/
theorem recordsOf_concat_of_test {c : SaveCall} (hs : c.succeeds = true)
    (htest : c.isTestable = true) (calls : List SaveCall) :
    recordsOf c.id (calls ++ [c]) = savedClients c.id calls ++ [(c.key, c.client)] := by
  simp [recordsOf, savedClients, testClient, hs, htest, SaveCall.key]

/-- The records under push ids come from calls that drew them. -/
theorem mem_savedClients {id : PathComponent} {calls : List SaveCall} {p : String × User}
    (h : p ∈ savedClients id calls) :
    ∃ c ∈ calls, c.isTestable = false ∧ p.1 = c.autoId.val := by
  obtain ⟨c, hc, rfl⟩ := List.mem_map.mp h
  obtain ⟨hmem, hcond⟩ := List.mem_filter.mp hc
  exact ⟨c, hmem, by simpa using (of_decide_eq_true hcond).2.2, rfl⟩

/-- A record as an entry of its parent. -/
def recordEntry (p : String × User) : Σ _ : String, FNode := ⟨p.1, recordNode p.1 p.2⟩

/-- The key of the test record is not among the push ids. -/
theorem proofClientTestableId_notMem_keys (id : PathComponent) (calls : List SaveCall) :
    proofClientTestableId ∉ ((savedClients id calls).map recordEntry).keys := by
  intro hmem
  simp only [List.keys, List.map_map, List.mem_map, Function.comp_apply, recordEntry] at hmem
  obtain ⟨p, hp, heq⟩ := hmem
  obtain ⟨c, -, -, hkey⟩ := mem_savedClients hp
  exact c.autoId.val_ne_proofClientTestableId (hkey.symm.trans heq)

/-- A fresh key is not among the records. -/
theorem autoId_notMem_keys {calls : List SaveCall} {c : SaveCall}
    (hfresh : FreshKeys (calls ++ [c])) (htest : c.isTestable = false) (id : PathComponent) :
    c.autoId.val ∉ ((recordsOf id calls).map recordEntry).keys := by
  intro hmem
  simp only [List.keys, List.map_map, List.mem_map, Function.comp_apply, recordEntry] at hmem
  obtain ⟨p, hp, heq⟩ := hmem
  rcases List.mem_append.mp hp with hp | hp
  · obtain ⟨c', hc', htest', hkey⟩ := mem_savedClients hp
    have hsame : c'.autoId = c.autoId := PushId.val_injective (hkey.symm.trans heq)
    have hdrawn : c'.autoId ∈ (calls.filter fun c => ¬ c.isTestable).map SaveCall.autoId :=
      List.mem_map_of_mem (List.mem_filter.mpr ⟨hc', by simp [htest']⟩)
    simp only [FreshKeys, List.filter_append, List.map_append] at hfresh
    have hdisjoint := (List.nodup_append'.mp hfresh).2.2
    exact hdisjoint hdrawn (by simp [htest, hsame])
  · obtain ⟨client, -, rfl⟩ := List.mem_map.mp hp
    exact c.autoId.val_ne_proofClientTestableId heq.symm

/-- Fresh keys are fresh before the last call. -/
theorem FreshKeys.of_concat {calls : List SaveCall} {c : SaveCall}
    (h : FreshKeys (calls ++ [c])) : FreshKeys calls := by
  simp only [FreshKeys, List.filter_append, List.map_append] at h
  exact (List.nodup_append'.mp h).1

/-- **The children of a user's clients** are the records that the calls leave to the user. -/
theorem clients_perm {calls : List SaveCall} (hfresh : FreshKeys calls) (id : PathComponent) :
    ((Database.afterCalls calls).clients id).entries.Perm
      ((recordsOf id calls).map recordEntry) := by
  induction calls using List.reverseRecOn with
  | nil =>
      have hempty : ((Database.afterCalls []).clients id).entries = [] := rfl
      rw [hempty]
      exact List.Perm.refl _
  | append_singleton calls c ih =>
      have ih := ih hfresh.of_concat
      rw [Database.afterCalls_concat]
      by_cases hc : c.id = id ∧ c.succeeds = true
      · obtain ⟨rfl, hs⟩ := hc
        rw [Database.entries_clients_save _ hs, List.kinsert_def]
        cases htest : c.isTestable with
        | true =>
            -- the record of an earlier test call is erased
            have hkey : c.key = proofClientTestableId := by simp [SaveCall.key, htest]
            have hold : ((recordsOf c.id calls).map recordEntry).kerase c.key =
                (savedClients c.id calls).map recordEntry := by
              rw [hkey, recordsOf, List.map_append, List.kerase_append_right
                (proofClientTestableId_notMem_keys c.id calls)]
              cases testClient c.id calls with
              | none => simp
              | some client => simp [recordEntry]
            have herase := ih.kerase (a := c.key)
              ((Database.afterCalls calls).wellFormed.getChild _).nodupKeys
            rw [hold] at herase
            rw [recordsOf_concat_of_test hs htest, List.map_append]
            exact (herase.cons _).trans (List.perm_append_singleton _ _).symm
        | false =>
            -- a fresh key erases nothing
            have hkey : c.key = c.autoId.val := by simp [SaveCall.key, htest]
            have hnew : c.key ∉ ((Database.afterCalls calls).clients c.id).entries.keys := by
              intro hmem
              have hmem' := (ih.map Sigma.fst).mem_iff.mp hmem
              rw [hkey] at hmem'
              exact autoId_notMem_keys hfresh htest c.id hmem'
            rw [List.kerase_of_notMem_keys hnew, recordsOf_concat_of_saved hs htest,
              List.map_append, List.map_cons]
            refine (ih.cons _).trans ?_
            rw [recordsOf, List.map_append]
            exact List.perm_middle.symm
      · rw [recordsOf_concat_of_not hc]
        by_cases hid : c.id = id
        · have hfails : c.succeeds = false := by simpa using fun hs => hc ⟨hid, hs⟩
          rw [Database.save_of_fails _ hfails]
          exact ih
        · rw [Database.clients_save_of_ne _ hid]
          exact ih

/-! ### Writer and reader -/

/-- The snapshot that the reader of a user's clients gets. -/
theorem node_observeSingleEvent_clients (db : Database) (id : PathComponent) :
    (db.observeSingleEvent (clientsReference id.val)).node = db.clients id := by
  rw [Database.observeSingleEvent, clientsReference_pieces, Database.clients]

/-- There are records of a user exactly when a call for the user has succeeded. -/
theorem recordsOf_ne_nil_iff {id : PathComponent} {calls : List SaveCall} :
    recordsOf id calls ≠ [] ↔ ∃ c ∈ calls, c.id = id ∧ c.succeeds = true := by
  induction calls using List.reverseRecOn with
  | nil => simp [recordsOf, savedClients, testClient]
  | append_singleton calls c ih =>
      by_cases hc : c.id = id ∧ c.succeeds = true
      · obtain ⟨rfl, hs⟩ := hc
        have hne : recordsOf c.id (calls ++ [c]) ≠ [] := by
          cases htest : c.isTestable with
          | true => simp [recordsOf_concat_of_test hs htest]
          | false => simp [recordsOf_concat_of_saved hs htest]
        exact ⟨fun _ => ⟨c, by simp, rfl, hs⟩, fun _ => hne⟩
      · rw [recordsOf_concat_of_not hc, ih]
        constructor
        · rintro ⟨c', hc', hcond⟩
          exact ⟨c', List.mem_append_left _ hc', hcond⟩
        · rintro ⟨c', hc', hcond⟩
          rcases List.mem_append.mp hc' with hc' | hc'
          · exact ⟨c', hc', hcond⟩
          · rw [List.mem_singleton.mp hc'] at hcond
            exact absurd hcond hc

/-- The keys of the records are single pieces. -/
theorem pathPieces_of_mem_recordsOf {id : PathComponent} {calls : List SaveCall}
    {p : String × User} (h : p ∈ recordsOf id calls) : pathPieces p.1 = [p.1] := by
  rcases List.mem_append.mp h with h | h
  · obtain ⟨c, -, -, hkey⟩ := mem_savedClients h
    rw [hkey]
    exact c.autoId.pathPieces_val
  · obtain ⟨client, -, rfl⟩ := List.mem_map.mp h
    exact pathPieces_proofClientTestableId

/-- A record holds its key in its `"id"` field. -/
theorem getImmediateChild_recordNode (key : String) (client : User) :
    (recordNode key client).getImmediateChild "id" = .leaf (.string key) :=
  rfl

/-- The five entries of a record, with a default for every field the client does not have. -/
theorem recordNode_eq (key : String) (client : User) :
    recordNode key client = .children
      [⟨"birthDay", .leaf (.string (client.birthDate.getD ""))⟩,
       ⟨"years", .leaf (.number (client.age.getD 0))⟩,
       ⟨"lastName", .leaf (.string (client.lastName.getD ""))⟩,
       ⟨"name", .leaf (.string (client.name.getD ""))⟩, ⟨"id", .leaf (.string key)⟩] :=
  rfl

/-- **Writer and reader of the client store agree, and users are isolated.** After any
sequence of calls on the empty database, and for every user:

* `checkIfClientExistInDB` reports exactly whether a call for the user has succeeded;
* the children of the user's clients are the records the calls leave to the user, one for
  each successful call with a push id and one for the last successful test call;
* each of them has the five entries of its client, and no others;
* every record holds its own key in its `"id"` field;
* a further call for another user changes nothing under the user. -/
theorem clientStore_spec {calls : List SaveCall} (hfresh : FreshKeys calls)
    (id : PathComponent) :
    let db := Database.afterCalls calls
    let clients := clientsReference id.val
    (checkIfClientExistInDB db id.val = true ↔ ∃ c ∈ calls, c.id = id ∧ c.succeeds = true) ∧
      (db.observeSingleEvent clients).children.Perm
        ((recordsOf id calls).map fun p => ⟨clients.child p.1, recordNode p.1 p.2⟩) ∧
      (∀ p ∈ recordsOf id calls, recordNode p.1 p.2 = .children
        [⟨"birthDay", .leaf (.string (p.2.birthDate.getD ""))⟩,
         ⟨"years", .leaf (.number (p.2.age.getD 0))⟩,
         ⟨"lastName", .leaf (.string (p.2.lastName.getD ""))⟩,
         ⟨"name", .leaf (.string (p.2.name.getD ""))⟩, ⟨"id", .leaf (.string p.1)⟩]) ∧
      (∀ record ∈ (db.observeSingleEvent clients).children, ∃ key, record.key = some key ∧
        record.node.getImmediateChild "id" = .leaf (.string key)) ∧
      ∀ c : SaveCall, c.id ≠ id →
        (db.save c).observeSingleEvent (DatabaseReference.reference.child id.val) =
          db.observeSingleEvent (DatabaseReference.reference.child id.val) := by
  intro db clients
  have hperm : (db.observeSingleEvent clients).children.Perm
      ((recordsOf id calls).map fun p => ⟨clients.child p.1, recordNode p.1 p.2⟩) := by
    have hmap := (clients_perm hfresh id).map fun e =>
      (⟨clients.child e.1, e.2⟩ : DataSnapshot)
    rw [List.map_map] at hmap
    rw [DataSnapshot.children, node_observeSingleEvent_clients]
    exact hmap
  refine ⟨?_, hperm, fun p _ => recordNode_eq p.1 p.2, ?_, ?_⟩
  · rw [← recordsOf_ne_nil_iff, checkIfClientExistInDB, decide_eq_true_eq, hperm.length_eq,
      List.length_map]
    exact List.length_pos_iff
  · intro record hrecord
    obtain ⟨p, hp, rfl⟩ := List.mem_map.mp (hperm.mem_iff.mp hrecord)
    refine ⟨p.1, ?_, getImmediateChild_recordNode p.1 p.2⟩
    simp [DataSnapshot.key, DatabaseReference.key, DatabaseReference.child,
      FPath.childFromString, FPath.getBack, pathPieces_of_mem_recordsOf hp]
  · intro c hc
    have hpieces : (DatabaseReference.reference.child id.val).path.pieces = [id.val] := by
      simp [DatabaseReference.child, DatabaseReference.reference, FPath.childFromString,
        id.pathPieces_val]
    simp only [Database.observeSingleEvent, hpieces, getChild_cons, getChild_nil,
      db.save_frame hc]

/-- Two users: the first saves a client without any data and is used by the tests twice, the
only save of the second one fails. -/
def sampleCalls : List SaveCall :=
  [⟨false, ⟨"uid", by decide⟩, User.empty, sampleKey, true⟩,
   ⟨true, ⟨"uid", by decide⟩, User.empty, sampleKey, true⟩,
   ⟨true, ⟨"uid", by decide⟩, newClient, sampleKey, true⟩,
   ⟨true, ⟨"other", by decide⟩, newClient, sampleKey, false⟩]

/-- The first user has two records, one of them the client of the last test call; the second
user has none. -/
theorem clientStore_spec_sampleCalls :
    checkIfClientExistInDB (Database.afterCalls sampleCalls) "uid" = true ∧
      ((Database.afterCalls sampleCalls).observeSingleEvent
        (clientsReference "uid")).children.length = 2 ∧
      (⟨(clientsReference "uid").child "1234567890", .children
        [⟨"birthDay", .leaf (.string "01/01/2003")⟩, ⟨"years", .leaf (.number 18)⟩,
         ⟨"lastName", .leaf (.string "Henderson")⟩, ⟨"name", .leaf (.string "Dustin")⟩,
         ⟨"id", .leaf (.string "1234567890")⟩]⟩ : DataSnapshot) ∈
        ((Database.afterCalls sampleCalls).observeSingleEvent
          (clientsReference "uid")).children ∧
      checkIfClientExistInDB (Database.afterCalls sampleCalls) "other" = false := by
  have hfresh : FreshKeys sampleCalls := by decide +kernel
  obtain ⟨hexists, hperm, hrecord, -⟩ := clientStore_spec hfresh ⟨"uid", by decide⟩
  obtain ⟨hother, -⟩ := clientStore_spec hfresh ⟨"other", by decide⟩
  have htest : (proofClientTestableId, newClient) ∈
      recordsOf ⟨"uid", by decide⟩ sampleCalls := by
    decide +kernel
  refine ⟨hexists.mpr ?_, hperm.length_eq.trans ?_, hperm.mem_iff.mpr ?_, ?_⟩
  · exact ⟨_, List.mem_cons_self, rfl, rfl⟩
  · rw [List.length_map]
    decide +kernel
  · exact List.mem_map.mpr ⟨_, htest, congrArg (DataSnapshot.mk _) (hrecord _ htest)⟩
  · rw [← Bool.not_eq_true, hother]
    decide +kernel

end FirebaseLogin
