import FirebaseLogin.Constants

/-!
# The User Record, its Encoder and its Decoder

`UserModel.swift`. A client is a `User`; `User.toDictionary` is the encoder whose result
is handed to the database, and `User.decode` is the hand-written `init(from:)`, which
reads the fields back through a keyed container.

The two directions spell their keys separately. Four of the five persisted fields share a
key; the birth date is written under `"birthDay"` and read under `"birthDate"`.

## Main results

* `User.decode_toDictionary`: what the decoder makes of an encoded client.
* `User.not_decoderUndoesEncoder`: the decoder undoes the encoder on no client, and the
  encoder undoes the decoder exactly on the clients whose birth date is absent or empty.
-/

namespace FirebaseLogin

/-- A user of the app, or one of its clients. -/
structure User where
  id : Option String
  name : Option String
  lastName : Option String
  image : Option String
  age : Option Int
  birthDate : Option String
deriving Repr, DecidableEq

/-- `User()`. -/
def User.empty : User := ⟨none, none, none, none, none, none⟩

/-- The client of the tests. -/
def newClient : User :=
  { User.empty with
    name := some "Dustin", lastName := some "Henderson", age := some 18,
    birthDate := some "01/01/2003" }

/-- The values a property list holds. -/
inductive NSValue where
  | string (s : String)
  | number (n : Int)
  | null
deriving Repr, DecidableEq

/-- A dictionary, as the list of its entries. -/
abbrev NSDictionary := List (String × NSValue)

/-- The encoder: every absent field is written with a default. -/
def User.toDictionary (u : User) : NSDictionary :=
  [("id", .string (u.id.getD "")),
   ("name", .string (u.name.getD "")),
   ("lastName", .string (u.lastName.getD "")),
   ("years", .number (u.age.getD 0)),
   ("birthDay", .string (u.birthDate.getD ""))]

/-! ### The decoder -/

/-- The coding keys of `User`. -/
inductive User.Keys where
  | id
  | name
  | lastName
  | image
  | years
  | birthDate
deriving Repr, DecidableEq

/-- The raw string of a coding key is the name of its case. -/
def User.Keys.rawValue : User.Keys → String
  | .id => "id"
  | .name => "name"
  | .lastName => "lastName"
  | .image => "image"
  | .years => "years"
  | .birthDate => "birthDate"

/-- The error of a keyed container: the value under a key has another type. -/
inductive DecodingError where
  | typeMismatch (key : User.Keys)
deriving Repr, DecidableEq

/-- `container.decodeIfPresent(_:forKey:)`: the value under the raw string of the key,
`none` when the key is absent or holds a null. -/
def decodeIfPresent {α : Type} (cast : NSValue → Option α) (d : NSDictionary)
    (key : User.Keys) : Except DecodingError (Option α) :=
  match d.lookup key.rawValue with
  | none => .ok none
  | some .null => .ok none
  | some v =>
      match cast v with
      | some a => .ok (some a)
      | none => .error (.typeMismatch key)

/-- The value as a string, if it is one. -/
def NSValue.asString : NSValue → Option String
  | .string s => some s
  | _ => none

/-- The value as an integer, if it is a number. -/
def NSValue.asInt : NSValue → Option Int
  | .number n => some n
  | _ => none

/-- `User.init(from:)`. -/
def User.decode (d : NSDictionary) : Except DecodingError User := do
  let id ← decodeIfPresent NSValue.asString d .id
  let name ← decodeIfPresent NSValue.asString d .name
  let lastName ← decodeIfPresent NSValue.asString d .lastName
  let image ← decodeIfPresent NSValue.asString d .image
  let age ← decodeIfPresent NSValue.asInt d .years
  let birthDate ← decodeIfPresent NSValue.asString d .birthDate
  pure ⟨id, name, lastName, image, age, birthDate⟩

/-! ### What survives the round trip -/

/-- **The round trip.** Four fields come back with their defaults filled in; the image is
not written, and the birth date is looked up under a key the encoder does not write. -/
theorem User.decode_toDictionary (u : User) :
    User.decode u.toDictionary =
      .ok ⟨some (u.id.getD ""), some (u.name.getD ""), some (u.lastName.getD ""), none,
        some (u.age.getD 0), none⟩ :=
  rfl

/-- Decoding an encoded client loses the birth date. -/
theorem User.birthDate_of_decode_toDictionary {u v : User}
    (h : User.decode u.toDictionary = .ok v) : v.birthDate = none := by
  rw [User.decode_toDictionary, Except.ok.injEq] at h
  rw [← h]

/-- Encoding a decoded client again empties the birth date and keeps the rest. -/
theorem User.toDictionary_of_decode_toDictionary {u v : User}
    (h : User.decode u.toDictionary = .ok v) :
    v.toDictionary = { u with birthDate := none }.toDictionary := by
  rw [User.decode_toDictionary, Except.ok.injEq] at h
  rw [← h]
  rfl

/-- The decoder undoes the encoder at a client: the five persisted fields come back, with
the defaults of the encoder for the absent ones. -/
def User.DecoderUndoesEncoder (u : User) : Prop :=
  ∃ v, User.decode u.toDictionary = .ok v ∧ v.id = some (u.id.getD "") ∧
    v.name = some (u.name.getD "") ∧ v.lastName = some (u.lastName.getD "") ∧
    v.age = some (u.age.getD 0) ∧ v.birthDate = some (u.birthDate.getD "")

/-- The encoder undoes the decoder at a dictionary. -/
def EncoderUndoesDecoder (d : NSDictionary) : Prop :=
  ∃ v, User.decode d = .ok v ∧ v.toDictionary = d

/-- **The decoder never undoes the encoder**, whatever the client: the birth date is
always lost. Encoding again gives the dictionary back exactly when there was no birth
date to lose. -/
theorem User.not_decoderUndoesEncoder (u : User) :
    ¬ u.DecoderUndoesEncoder ∧
      (EncoderUndoesDecoder u.toDictionary ↔ u.birthDate.getD "" = "") := by
  refine ⟨?_, ?_, ?_⟩
  · rintro ⟨v, hv, -, -, -, -, hbirth⟩
    rw [User.birthDate_of_decode_toDictionary hv] at hbirth
    simp at hbirth
  · rintro ⟨v, hv, hd⟩
    rw [User.toDictionary_of_decode_toDictionary hv] at hd
    have hbirth : "" = u.birthDate.getD "" := by simpa [User.toDictionary] using hd
    exact hbirth.symm
  · intro h
    refine ⟨_, User.decode_toDictionary u, ?_⟩
    simp [User.toDictionary, h]

/-- The client of the tests does not come back: its birth date `01/01/2003` is lost, and
encoding what was decoded overwrites it with the empty string. -/
theorem newClient_does_not_come_back :
    ¬ (newClient.DecoderUndoesEncoder ∧ EncoderUndoesDecoder newClient.toDictionary) ∧
      ¬ newClient.DecoderUndoesEncoder ∧ ¬ EncoderUndoesDecoder newClient.toDictionary := by
  have hdec : ¬ newClient.DecoderUndoesEncoder := by
    rintro ⟨v, hv, -, -, -, -, hbirth⟩
    rw [User.birthDate_of_decode_toDictionary hv] at hbirth
    simp at hbirth
  have henc : ¬ EncoderUndoesDecoder newClient.toDictionary := by
    rintro ⟨v, hv, hd⟩
    rw [User.toDictionary_of_decode_toDictionary hv] at hd
    revert hd
    decide
  exact ⟨fun h => hdec h.1, hdec, henc⟩

end FirebaseLogin
