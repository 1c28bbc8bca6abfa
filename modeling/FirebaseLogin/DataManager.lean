import FirebaseLogin.UserModel

/-!
# References into the Database, and `saveClient`

`ServiceDataManager.swift` over the part of the database client it uses. A location is an
`FPath`, the list of its nonempty pieces; `child` splits its argument at slashes, and
`childByAutoId` appends a push id drawn by the client. `saveClient` builds the reference
of a new client, copies its key into the record and hands both to `setValue`.

The client raises an exception on path strings with one of the characters `[].#$`. The
ids that reach `saveClient` are uids issued by the authentication service, so that branch
is not modelled.

## Main results

* `saveClient_eq`: a save without the test flag writes the client, with the key as its
  id, at `id/clients/key`.
-/

namespace FirebaseLogin

/-! ### Paths -/

/-- The nonempty pieces of a path string, split at slashes. -/
def pathPieces (s : String) : List String :=
  (componentsSeparatedBy (fun c => c == '/') s).filter fun piece => piece ≠ ""

/-- A location in the database. -/
structure FPath where
  pieces : List String
deriving Repr, DecidableEq

/-- `pathWithString:`. -/
def FPath.ofString (s : String) : FPath := ⟨pathPieces s⟩

/-- `childFromString:`. -/
def FPath.childFromString (p : FPath) (childPath : String) : FPath :=
  ⟨p.pieces ++ pathPieces childPath⟩

/-- `getBack`: the last piece. -/
def FPath.getBack (p : FPath) : Option String := p.pieces.getLast?

/-- The pieces of two path strings joined by a slash. -/
theorem pathPieces_append_slash (a b : String) :
    pathPieces (a ++ "/" ++ b) = pathPieces a ++ pathPieces b := by
  have hsplit : (a ++ "/" ++ b).toList = a.toList ++ '/' :: b.toList := by simp
  simp only [pathPieces, componentsSeparatedBy, hsplit]
  rw [List.splitOnP_append_cons _ _ (by simp), List.map_append, List.filter_append]

/-- A nonempty string without a slash is one piece. -/
theorem pathPieces_of_component {s : String} (hne : s ≠ "") (hs : '/' ∉ s.toList) :
    pathPieces s = [s] := by
  have hsplit : s.toList.splitOnP (fun c => c == '/') = [s.toList] := by
    apply List.splitOnP_eq_singleton
    intro c hc
    have hcs : c ≠ '/' := fun h => hs (h ▸ hc)
    simpa using hcs
  simp [pathPieces, componentsSeparatedBy, hsplit, hne]

/-! ### References -/

/-- The characters of a push id. -/
def pushChars : String :=
  "-0123456789ABCDEFGHIJKLMNOPQRSTUVWXYZ_abcdefghijklmnopqrstuvwxyz"

/-- A key drawn by `childByAutoId`: twenty characters of `pushChars`. -/
structure PushId where
  val : String
  length_eq : val.toList.length = 20
  chars : ∀ c ∈ val.toList, c ∈ pushChars.toList
deriving DecidableEq

/-- The push id of the concrete runs. -/
def sampleKey : PushId where
  val := "-MQzA0bcdefghijklmno"
  length_eq := by decide
  chars := by
    have hall : "-MQzA0bcdefghijklmno".toList.all (· ∈ pushChars.toList) = true := by decide
    intro c hc
    exact of_decide_eq_true (List.all_eq_true.mp hall c hc)

/-- A push id is a single piece. -/
theorem PushId.pathPieces_val (k : PushId) : pathPieces k.val = [k.val] := by
  apply pathPieces_of_component
  · intro h
    have hlen := k.length_eq
    rw [h] at hlen
    simp at hlen
  · intro h
    have hslash : '/' ∉ pushChars.toList := by decide
    exact hslash (k.chars '/' h)

/-- A reference to a location. -/
structure DatabaseReference where
  path : FPath
deriving Repr, DecidableEq

namespace DatabaseReference

/-- `Database.database().reference()`. -/
def reference : DatabaseReference := ⟨⟨[]⟩⟩

/-- `child(_:)`. -/
def child (r : DatabaseReference) (pathString : String) : DatabaseReference :=
  ⟨r.path.childFromString pathString⟩

/-- `childByAutoId`, given the push id drawn by this call. -/
def childByAutoId (r : DatabaseReference) (name : PushId) : DatabaseReference :=
  r.child name.val

/-- `key`, nil at the root. -/
def key (r : DatabaseReference) : Option String := r.path.getBack

end DatabaseReference

/-! ### Saving a client -/

/-- A call of `setValue`: where it writes and what. -/
structure SetValue where
  path : FPath
  value : NSDictionary
deriving Repr, DecidableEq

/-- The write issued by `saveClient`. -/
def saveClient (isTestable : Bool) (id : String) (client : User) (autoId : PushId) :
    SetValue :=
  let clients := (DatabaseReference.reference.child id).child clientDbReference
  let dataBaseRef :=
    if isTestable then clients.child proofClientTestableId
    else clients.childByAutoId autoId
  let clientWithKey :=
    { client with id := if isTestable then some proofClientTestableId else dataBaseRef.key }
  ⟨dataBaseRef.path, clientWithKey.toDictionary⟩

/-- The name of the collection is a single piece. -/
theorem pathPieces_clientDbReference : pathPieces clientDbReference = [clientDbReference] := by
  decide

/-- **The write of a save.** The client goes to `id/clients/key`, with the key as its
id. -/
theorem saveClient_eq (id : String) (client : User) (k : PushId) :
    saveClient false id client k =
      ⟨FPath.ofString (id ++ "/" ++ clientDbReference ++ "/" ++ k.val),
        { client with id := some k.val }.toDictionary⟩ := by
  simp [saveClient, DatabaseReference.child, DatabaseReference.childByAutoId,
    DatabaseReference.reference, DatabaseReference.key, FPath.childFromString,
    FPath.ofString, FPath.getBack, pathPieces_append_slash, PushId.pathPieces_val,
    pathPieces_clientDbReference]

/-- The location of a saved client ends in its key. -/
theorem getBack_saveClient (id : String) (client : User) (k : PushId) :
    (saveClient false id client k).path.getBack = some k.val := by
  rw [saveClient_eq]
  simp [FPath.ofString, FPath.getBack, pathPieces_append_slash, PushId.pathPieces_val]

end FirebaseLogin
