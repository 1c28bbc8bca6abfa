import FirebaseLogin.Gregorian

/-!
# The Platform and the Constants of the App

The app reads three things of the platform that its own sources do not determine: the
Unicode tables behind `String`, the whole years that `Calendar.current` counts between
two instants, and the text a `DateFormatter` prints. They are the fields of `Platform`,
over which the whole development is parametric; `Platform.gregorian` is the platform with
the Gregorian calendar in a given time zone.

The rest of the module is `Constants.swift`: the thresholds of the validators, the
accepted characters, the texts of the alerts, and the errors of the form.

## Main results

* `mem_charactersAcceptable_iff`: the accepted characters are the ASCII letters.
-/

namespace FirebaseLogin

/-- An instant (`Date`), in nanoseconds from midnight UTC of the first day of year `1`. -/
abbrev Date := Int

/-- What the app reads of the platform it runs on. -/
structure Platform where
  unicode : UnicodeData
  /-- `Calendar.current.dateComponents([.year], from:to:).year`. -/
  yearsBetween : Date → Date → Int
  /-- `DateFormatter.string(from:)` under a `dateFormat`. -/
  formatDate : String → Date → String

/-- The platform with the Gregorian calendar in a time zone. -/
def Platform.gregorian (U : UnicodeData) (z : TimeZone) : Platform where
  unicode := U
  yearsBetween := z.yearsBetween
  formatDate pattern d := formatCivil pattern (z.localDate d)

/-- The platform of the concrete runs of this development: ASCII texts, UTC. -/
def Platform.utc : Platform := Platform.gregorian .ascii (TimeZone.fixed 0)

/-- Midnight UTC of a day. -/
def midnight (year : Int) (month day : Nat) : Date :=
  (daysBeforeYear year + (daysBeforeMonth year month + day - 1 : Nat)) * dayLength

/-! ### Thresholds and texts -/

/-- The least age of a client. -/
def kMinAge : Int := 13

/-- The greatest age of a client. -/
def kMaxAge : Int := 120

/-- A name has to have more characters than this. -/
def kMinStringToAccept : Nat := 2

/-- The key of the record of the tests. -/
def proofClientTestableId : String := "1234567890"

/-- The child of a user under which the clients are kept. -/
def clientDbReference : String := "clients"

/-- The pattern of a stored birth date. -/
def dateFormat : String := "dd/MM/yyyy"

/-- The characters that the name fields accept. -/
def charactersAcceptable : String :=
  "ABCDEFGHIJKLMNOPQRSTUVWXYZabcdefghijklmnopqrstuvwxyz"

/-- The title of the logout confirmation. -/
def waitTitle : String := "Wait!"

/-- The title of an alert about an error. -/
def errorTitle : String := "Error"

/-- The text of an error without a description. -/
def defaultErrorMessage : String := "An error ocurred. Try again later"

/-- The title of the alert after a save that succeeded. -/
def successTitle : String := "Success"

/-- The text of the alert after a save that succeeded. -/
def clientSavedMessage : String := "Client saved"

/-- The text of the logout confirmation. -/
def closeSessionWarninMessage : String := "Are you sure you want to close the session?"

/-- The errors of the form. -/
inductive DataError where
  | name
  | lastName
  | birthdayToYoung
  | birthdayToOld
  | birthdayNotMatch
deriving Repr, DecidableEq

/-- The text of an error. -/
def DataError.rawValue : DataError → String
  | .name => "Wrong name, must contain more than 3 characters"
  | .lastName => "Wrong lastname, must contain more than 3 characters"
  | .birthdayToYoung => "Must be over 13 years old"
  | .birthdayToOld => "Are you a dinosaur HaHaHa?"
  | .birthdayNotMatch => "Your age does not match the selected date"

/-- The colors the form gives to its controls. -/
inductive UIColor where
  | red
  | label
  | systemIndigo
deriving Repr, DecidableEq

/-! ### The accepted characters -/

/-- The ASCII letters. -/
def IsASCIILetter (c : Char) : Prop :=
  ('A' ≤ c ∧ c ≤ 'Z') ∨ ('a' ≤ c ∧ c ≤ 'z')

/-- Whether a character is an ASCII letter is decided by its bounds. -/
instance (c : Char) : Decidable (IsASCIILetter c) :=
  inferInstanceAs (Decidable (('A' ≤ c ∧ c ≤ 'Z') ∨ ('a' ≤ c ∧ c ≤ 'z')))

/-- An ASCII letter is an ASCII scalar. -/
theorem IsASCIILetter.val_lt {c : Char} (h : IsASCIILetter c) : c.val < 128 := by
  rcases h with ⟨-, h⟩ | ⟨-, h⟩
  · exact Nat.lt_of_le_of_lt h (by decide)
  · exact Nat.lt_of_le_of_lt h (by decide)

/-- The accepted characters are exactly the ASCII letters. -/
theorem mem_charactersAcceptable_iff (c : Char) :
    c ∈ charactersAcceptable.toList ↔ IsASCIILetter c := by
  constructor
  · have hall : charactersAcceptable.toList.all (IsASCIILetter ·) = true := by decide
    intro h
    exact of_decide_eq_true (List.all_eq_true.mp hall c h)
  · intro h
    have hall : ∀ n < 128, IsASCIILetter (Char.ofNat n) →
        Char.ofNat n ∈ charactersAcceptable.toList := by decide
    have hc : Char.ofNat c.toNat = c := Char.ofNat_toNat c
    have hlt : c.toNat < 128 := h.val_lt
    rw [← hc] at h ⊢
    exact hall c.toNat hlt h

end FirebaseLogin
