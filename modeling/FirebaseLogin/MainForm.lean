import FirebaseLogin.DataManager

/-!
# The Form of the Main Screen

`MainViewController.swift` and `MainViewControllerViewModel.swift`. The handlers of the
screen run to completion on the main thread and only *request* what happens later: a
block on the main queue, a block after a delay, an alert, a write. A handler is therefore
a function on a `Turn`, the controller together with the effects requested so far in this
turn of the main thread; `FirebaseLogin.MainScreen` performs the effects.

A save tap carries its serial number, which its blocks and its write keep: it stands for
the identity of the closures the tap creates.

## Main results

* `shouldChangeCharacters_iff`: the text filter accepts exactly the strings of ASCII
  letters.
-/

namespace FirebaseLogin

/-! ### The view model -/

/-- The data a client is required to have. -/
inductive RequiredClientData where
  | name
  | lastName
  | years
  | birthday
deriving Repr, DecidableEq

/-- The state of `MainViewControllerViewModel`. -/
structure MainViewControllerViewModel where
  errors : List DataError
  dateSelected : Date
  client : User
deriving Repr, DecidableEq

/-- `Date.toString()`. -/
def dateToString (P : Platform) (d : Date) : String := P.formatDate dateFormat d

namespace MainViewControllerViewModel

/-- The color of a field that is not valid. -/
def errorColor : UIColor := .red

/-- The color of a valid field. -/
def defaultColor : UIColor := .label

/-- The whole years from the birthday to the current instant. -/
def compareDates (P : Platform) (now birthDay : Date) : Int := P.yearsBetween birthDay now

/-- `validateFullName(name:type:)`: a long enough text is stored, and a short one is an error. -/
def validateFullName (P : Platform) (vm : MainViewControllerViewModel) (name : String)
    (type : RequiredClientData) : Bool × MainViewControllerViewModel :=
  let val := decide (kMinStringToAccept < P.unicode.count name)
  if !val then
    (val, { vm with errors := vm.errors ++ [if type = .name then .name else .lastName] })
  else if type = .name then
    (val, { vm with client := { vm.client with name := some name } })
  else
    (val, { vm with client := { vm.client with lastName := some name } })

/-- `validateBirthDayDate(date:)`: the age at the date has to be the typed one, and within bounds.
-/
def validateBirthDayDate (P : Platform) (now : Date) (vm : MainViewControllerViewModel)
    (date : Date) : Bool × MainViewControllerViewModel :=
  let vm := { vm with client := { vm.client with birthDate := some (dateToString P date) } }
  let years := compareDates P now date
  let matchedWithYears := decide (some years = vm.client.age)
  if !matchedWithYears then
    (false, { vm with errors := vm.errors ++ [.birthdayNotMatch] })
  else
    let hasRequiredYears := decide (years ≥ kMinAge)
    let isToOld := decide (years > kMaxAge)
    let vm :=
      if !hasRequiredYears then { vm with errors := vm.errors ++ [.birthdayToYoung] } else vm
    let vm := if isToOld then { vm with errors := vm.errors ++ [.birthdayToOld] } else vm
    (hasRequiredYears && !isToOld && matchedWithYears, vm)

/-- `isValidData(dataString:date:type:)`; the clock is read by the birthday check. -/
def isValidData (P : Platform) (now : Date) (vm : MainViewControllerViewModel)
    (dataString : String) (date : Date) (type : RequiredClientData) :
    Bool × MainViewControllerViewModel :=
  match type with
  | .name => validateFullName P vm dataString .name
  | .lastName => validateFullName P vm dataString .lastName
  | _ => validateBirthDayDate P now vm date

/-- The message of the validation alert: one capitalized line for each error. -/
def separatedErrors (errors : List DataError) : String :=
  errors.foldl (fun message error => message ++ capitalized error.rawValue ++ "\n") ""

end MainViewControllerViewModel

/-! ### Alerts, blocks and effects -/

/-- The alerts presented from the main screen. -/
inductive Alert where
  /-- The validation errors of a rejected tap. -/
  | dataErrors (message : String)
  /-- The outcome of the write of a tap, with the text of its error. -/
  | saveOutcome (tap : Nat) (error : Option String)
  /-- The confirmation of a logout, the only alert with a cancel button. -/
  | closeSession
deriving Repr, DecidableEq

/-- The title of an alert. -/
def Alert.title : Alert → String
  | .dataErrors _ => errorTitle
  | .saveOutcome _ (some _) => errorTitle
  | .saveOutcome _ none => successTitle
  | .closeSession => waitTitle

/-- The message of an alert. -/
def Alert.message : Alert → String
  | .dataErrors message => message
  | .saveOutcome _ (some error) => error
  | .saveOutcome _ none => clientSavedMessage
  | .closeSession => closeSessionWarninMessage

/-- A write issued by a save tap. -/
structure Write where
  tap : Nat
  request : SetValue
deriving Repr, DecidableEq

/-- The blocks the screen puts on the main queue. -/
inductive Block where
  | startLoading (tap : Nat)
  | stopLoading (tap : Nat)
  /-- The completion of `saveClient` for the write of a tap. -/
  | saveCompletion (tap : Nat) (error : Option String)
  | popViewController
deriving Repr, DecidableEq

/-- What a handler requests. -/
inductive Effect where
  | async (block : Block)
  /-- `asyncAfter` with a deadline one second away. -/
  | asyncAfter (block : Block)
  | present (alert : Alert)
  | setValue (write : Write)
  | firebaseSignOut
  | facebooklogOut
  | popViewController
deriving Repr, DecidableEq

/-! ### The view controller -/

/-- A text field. Its `text` is never `nil` when read. -/
structure UITextField where
  contents : String
  textColor : UIColor
deriving Repr, DecidableEq

/-- `text`, which is never nil. -/
def UITextField.text (field : UITextField) : Option String := some field.contents

/-- The state of `MainViewController` that its handlers read or write. -/
structure MainViewController where
  userLogged : Option User
  viewModel : MainViewControllerViewModel
  nameTextField : UITextField
  lastNameTextField : UITextField
  yearsTextField : UITextField
  datePickerTint : UIColor
  saveButtonEnabled : Bool
  closeButtonEnabled : Bool
  loaderAnimating : Bool
deriving Repr, DecidableEq

/-- A turn of the main thread: the controller and the effects requested so far. -/
structure Turn where
  vc : MainViewController
  effects : List Effect
deriving Repr, DecidableEq

/-- Request an effect. -/
def Turn.request (t : Turn) (e : Effect) : Turn := { t with effects := t.effects ++ [e] }

namespace MainViewController

open MainViewControllerViewModel

/-- `startLoading()`: a block on the main queue. -/
def startLoading (tap : Nat) (t : Turn) : Turn := t.request (.async (.startLoading tap))

/-- `stopLoading()`: a block after a delay. -/
def stopLoading (tap : Nat) (t : Turn) : Turn := t.request (.asyncAfter (.stopLoading tap))

/-- `validateName()`. -/
def validateName (P : Platform) (now : Date) (t : Turn) : Turn :=
  match t.vc.nameTextField.text with
  | none => t
  | some nameText =>
      let (valid, vm) := isValidData P now t.vc.viewModel nameText now .name
      let color := if !valid then errorColor else defaultColor
      { t with
        vc := { t.vc with
          viewModel := vm, nameTextField := { t.vc.nameTextField with textColor := color } } }

/-- `validateLastName()`. -/
def validateLastName (P : Platform) (now : Date) (t : Turn) : Turn :=
  match t.vc.lastNameTextField.text with
  | none => t
  | some lastNameText =>
      let (valid, vm) := isValidData P now t.vc.viewModel lastNameText now .lastName
      let color := if !valid then errorColor else defaultColor
      { t with
        vc := { t.vc with
          viewModel := vm,
          lastNameTextField := { t.vc.lastNameTextField with textColor := color } } }

/-- `setYears()`: the text of the years as an integer, nil when it is none. -/
def setYears (t : Turn) : Turn :=
  match t.vc.yearsTextField.text with
  | none => t
  | some years =>
      let client := { t.vc.viewModel.client with age := intOfString? years }
      { t with vc := { t.vc with viewModel := { t.vc.viewModel with client := client } } }

/-- `validateBirthday()`. -/
def validateBirthday (P : Platform) (now : Date) (t : Turn) : Turn :=
  let (valid, vm) := isValidData P now t.vc.viewModel "" t.vc.viewModel.dateSelected .birthday
  if !valid then
    { t with vc := { t.vc with viewModel := vm, datePickerTint := errorColor } }
  else
    let client := { vm.client with birthDate := some (dateToString P vm.dateSelected) }
    { t with
      vc := { t.vc with
        viewModel := { vm with client := client }, datePickerTint := defaultColor } }

/-- `presentDataErrorsMessage(delegate:)`, which empties the errors. -/
def presentDataErrorsMessage (t : Turn) : Turn :=
  let t := t.request (.present (.dataErrors (separatedErrors t.vc.viewModel.errors)))
  { t with vc := { t.vc with viewModel := { t.vc.viewModel with errors := [] } } }

/-- `saveUser(delegate:id:)`, given the push id its reference draws. Without an id nothing
is written. -/
def saveUser (tap : Nat) (autoId : PushId) (id : Option String) (t : Turn) : Turn :=
  match id with
  | some uid => t.request (.setValue ⟨tap, saveClient false uid t.vc.viewModel.client autoId⟩)
  | none => t

/-- `clearData()`: the three text fields are emptied. -/
def clearData (t : Turn) : Turn :=
  { t with
    vc := { t.vc with
      nameTextField := { t.vc.nameTextField with contents := "" },
      lastNameTextField := { t.vc.lastNameTextField with contents := "" },
      yearsTextField := { t.vc.yearsTextField with contents := "" } } }

/-- `userLogged?.id`. -/
def userId (vc : MainViewController) : Option String := vc.userLogged.bind User.id

/-- `checkValidationErrors()`: the errors are shown, or the client is saved and the form emptied.
-/
def checkValidationErrors (tap : Nat) (autoId : PushId) (t : Turn) : Turn :=
  if !t.vc.viewModel.errors.isEmpty then
    stopLoading tap (presentDataErrorsMessage t)
  else
    stopLoading tap (clearData (saveUser tap autoId t.vc.userId t))

/-- The save tap with serial number `tap`, at the instant `now`. -/
def saveButtonTapped (P : Platform) (now : Date) (tap : Nat) (autoId : PushId) (t : Turn) :
    Turn :=
  let t := startLoading tap t
  let t := validateName P now t
  let t := validateLastName P now t
  let t := setYears t
  let t := validateBirthday P now t
  checkValidationErrors tap autoId t

/-- `logOut()`: the tap on the close button asks for a confirmation. -/
def logOut (t : Turn) : Turn := t.request (.present .closeSession)

/-- The handler of the confirmed logout. -/
def confirmLogOut (t : Turn) : Turn :=
  ((t.request .firebaseSignOut).request .facebooklogOut).request (.async .popViewController)

/-- `datePickerValueChanged(_:)`. -/
def datePickerValueChanged (date : Date) (t : Turn) : Turn :=
  { t with vc := { t.vc with viewModel := { t.vc.viewModel with dateSelected := date } } }

/-- The block queued by `startLoading`. -/
def startLoadingBlock (vc : MainViewController) : MainViewController :=
  { vc with loaderAnimating := true, closeButtonEnabled := false, saveButtonEnabled := false }

/-- The block delayed by `stopLoading`. -/
def stopLoadingBlock (vc : MainViewController) : MainViewController :=
  { vc with loaderAnimating := false, closeButtonEnabled := true, saveButtonEnabled := true }

/-- `textField(_:shouldChangeCharactersIn:replacementString:)`, the delegate method of the
name and the last-name field. -/
def shouldChangeCharacters (P : Platform) (string : String) : Bool :=
  let cs : Char → Bool := fun c => !(charactersAcceptable.toList.contains c)
  let filtered := joined (componentsSeparatedBy cs string)
  P.unicode.isEqual string filtered

/-! ### The text filter -/

/-- **The text filter accepts exactly the strings of ASCII letters.** -/
theorem shouldChangeCharacters_iff (P : Platform) (string : String) :
    shouldChangeCharacters P string = true ↔ ∀ c ∈ string.toList, IsASCIILetter c := by
  have hmem : ∀ c, charactersAcceptable.toList.contains c = true ↔ IsASCIILetter c := by
    intro c
    rw [List.contains_iff_mem, mem_charactersAcceptable_iff]
  have hascii : ∀ c, charactersAcceptable.toList.contains c = true → c.val < 128 :=
    fun c hc => ((hmem c).mp hc).val_lt
  simp only [shouldChangeCharacters, joined_componentsSeparatedBy, Bool.not_not]
  rw [UnicodeData.isEqual_filter_iff P.unicode hascii]
  simp only [hmem]

end MainViewController

end FirebaseLogin
