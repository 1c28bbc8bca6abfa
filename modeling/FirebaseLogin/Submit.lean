import FirebaseLogin.MainForm
import Mathlib.Data.List.Nodup

/-!
# The Stateless Submit Function

A save tap runs four validation steps over a view model that is never reset: each of them
writes some fields of the leftover client and some errors, and the birthday check reads
the age stored by the step before it. This module states what the tap is *for* — the
function `submit`, from the current texts, the selected date, the clock and the id of the
logged user to an outcome — and proves that a tap computes it whenever no error is left
over from an earlier tap.

## Main results

* `validateName_eq`, `validateLastName_eq`, `setYears_eq`, `validateBirthday_eq`: what
  each step of the validation leaves behind, from any state.
* `formErrors_nodup`, `errorLines_nodup`: no error and no line is listed twice.
* `saveButtonTapped_spec`, `outcome_saveButtonTapped`: **a tap computes `submit`**, and
  leaves no error behind.
-/

namespace FirebaseLogin

open MainViewControllerViewModel MainViewController

/-! ### The errors of a form -/

/-- The error of a name field: its text is too short. -/
def nameErrors (P : Platform) (error : DataError) (text : String) : List DataError :=
  if P.unicode.count text ≤ kMinStringToAccept then [error] else []

/-- The error of the age: the typed age is not the age at the selected date, or that age
is out of bounds. -/
def ageErrors (typed : Option Int) (y : Int) : List DataError :=
  if typed ≠ some y then [.birthdayNotMatch]
  else if y < kMinAge then [.birthdayToYoung]
  else if y > kMaxAge then [.birthdayToOld]
  else []

/-- The errors of a form with the given texts and selected date, in the order in which
they are listed. -/
def formErrors (P : Platform) (name lastName years : String) (date now : Date) :
    List DataError :=
  nameErrors P .name name ++ nameErrors P .lastName lastName ++
    ageErrors (intOfString? years) (P.yearsBetween date now)

/-- No error is listed twice. -/
theorem formErrors_nodup (P : Platform) (name lastName years : String) (date now : Date) :
    (formErrors P name lastName years date now).Nodup := by
  simp only [formErrors, nameErrors, ageErrors]
  split_ifs <;> decide

/-- A form without errors has long enough names, and the typed age is the age at the
selected date and within bounds. -/
theorem formErrors_eq_nil_iff {P : Platform} {name lastName years : String}
    {date now : Date} :
    formErrors P name lastName years date now = [] ↔
      kMinStringToAccept < P.unicode.count name ∧
        kMinStringToAccept < P.unicode.count lastName ∧
        intOfString? years = some (P.yearsBetween date now) ∧
        kMinAge ≤ P.yearsBetween date now ∧ P.yearsBetween date now ≤ kMaxAge := by
  simp only [formErrors, nameErrors, ageErrors, List.append_eq_nil_iff]
  split_ifs <;> simp_all

/-! ### The submit function -/

/-- What a save tap results in: the alerts it presents, the writes it issues and the texts
it leaves in the three fields. -/
structure Submission where
  alerts : List Alert
  writes : List SetValue
  name : String
  lastName : String
  years : String
deriving Repr, DecidableEq

/-- The record of an accepted form. -/
def clientRecord (P : Platform) (key name lastName : String) (y : Int) (date : Date) :
    NSDictionary :=
  [("id", .string key), ("name", .string name), ("lastName", .string lastName),
   ("years", .number y), ("birthDay", .string (dateToString P date))]

/-- The line of an error in the validation alert, as the user reads it. -/
def DataError.line : DataError → String
  | .name => "Wrong Name, Must Contain More Than 3 Characters\n"
  | .lastName => "Wrong Lastname, Must Contain More Than 3 Characters\n"
  | .birthdayToYoung => "Must Be Over 13 Years Old\n"
  | .birthdayToOld => "Are You A Dinosaur Hahaha?\n"
  | .birthdayNotMatch => "Your Age Does Not Match The Selected Date\n"

/-- Different errors have different lines. -/
theorem DataError.line_injective : Function.Injective DataError.line := by
  intro e e' h
  cases e <;> cases e' <;> first | rfl | exact absurd h (by decide)

/-- The text of the validation alert: one line for each error. -/
def errorLines (errors : List DataError) : String :=
  joined (errors.map DataError.line)

/-- No line is listed twice. -/
theorem errorLines_nodup (P : Platform) (name lastName years : String) (date now : Date) :
    ((formErrors P name lastName years date now).map DataError.line).Nodup :=
  List.Nodup.map DataError.line_injective (formErrors_nodup P name lastName years date now)

/-- **The stateless submit function.** A form with errors is rejected: one alert lists the
errors and the texts stay. A form without errors is accepted: the record is written under
the id of the logged user, when there is one, and the fields are emptied. -/
def submit (P : Platform) (name lastName years : String) (date now : Date)
    (user : Option String) (autoId : PushId) : Submission :=
  let errors := formErrors P name lastName years date now
  if errors ≠ [] then
    { alerts := [.dataErrors (errorLines errors)], writes := [],
      name := name, lastName := lastName, years := years }
  else
    let record := clientRecord P autoId.val name lastName (P.yearsBetween date now) date
    { alerts := [],
      writes := user.toList.map fun u =>
        ⟨FPath.ofString (u ++ "/" ++ clientDbReference ++ "/" ++ autoId.val), record⟩,
      name := "", lastName := "", years := "" }

/-- A form with errors is rejected. -/
theorem submit_of_errors {P : Platform} {name lastName years : String} {date now : Date}
    (h : formErrors P name lastName years date now ≠ []) (user : Option String)
    (autoId : PushId) :
    submit P name lastName years date now user autoId =
      ⟨[.dataErrors (errorLines (formErrors P name lastName years date now))], [],
        name, lastName, years⟩ := by
  rw [submit, if_pos h]

/-- A form without errors is written under the id of the user. -/
theorem submit_of_no_errors {P : Platform} {name lastName years : String} {date now : Date}
    (h : formErrors P name lastName years date now = []) (user : Option String)
    (autoId : PushId) :
    submit P name lastName years date now user autoId =
      ⟨[], user.toList.map fun u =>
        ⟨FPath.ofString (u ++ "/" ++ clientDbReference ++ "/" ++ autoId.val),
          clientRecord P autoId.val name lastName (P.yearsBetween date now) date⟩,
        "", "", ""⟩ := by
  rw [submit, if_neg (not_not.mpr h)]

/-- The submission of the form a controller shows. -/
def MainViewController.submission (P : Platform) (now : Date) (autoId : PushId)
    (vc : MainViewController) : Submission :=
  submit P vc.nameTextField.contents vc.lastNameTextField.contents
    vc.yearsTextField.contents vc.viewModel.dateSelected now vc.userId autoId

/-- The texts of the three fields. -/
def MainViewController.texts (vc : MainViewController) : List String :=
  [vc.nameTextField.contents, vc.lastNameTextField.contents, vc.yearsTextField.contents]

/-- What a turn of the main thread did, seen from outside: the alerts and writes it
requested, and the texts it left. -/
def Turn.outcome (t : Turn) : Submission where
  alerts := t.effects.filterMap fun
    | .present alert => some alert
    | _ => none
  writes := t.effects.filterMap fun
    | .setValue w => some w.request
    | _ => none
  name := t.vc.nameTextField.contents
  lastName := t.vc.lastNameTextField.contents
  years := t.vc.yearsTextField.contents

/-- The requests of a submission. -/
def Submission.effects (tap : Nat) (o : Submission) : List Effect :=
  o.alerts.map Effect.present ++ o.writes.map fun w => Effect.setValue ⟨tap, w⟩

/-! ### The steps of the validation -/

/-- What a name field stores in the client: its text when it is long enough, the leftover
value when it is not. -/
def storedName (P : Platform) (leftover : Option String) (text : String) : Option String :=
  if P.unicode.count text ≤ kMinStringToAccept then leftover else some text

/-- The color of a name field after its validation. -/
def nameColor (P : Platform) (text : String) : UIColor :=
  if P.unicode.count text ≤ kMinStringToAccept then errorColor else defaultColor

/-- The check of the name stores a long enough text and lists an error otherwise. -/
theorem validateName_eq (P : Platform) (now : Date) (t : Turn) :
    validateName P now t =
      { t with
        vc := { t.vc with
          viewModel := { t.vc.viewModel with
            errors := t.vc.viewModel.errors ++ nameErrors P .name t.vc.nameTextField.contents
            client := { t.vc.viewModel.client with
              name := storedName P t.vc.viewModel.client.name t.vc.nameTextField.contents } }
          nameTextField := { t.vc.nameTextField with
            textColor := nameColor P t.vc.nameTextField.contents } } } := by
  by_cases h : P.unicode.count t.vc.nameTextField.contents ≤ kMinStringToAccept
  · simp [validateName, UITextField.text, isValidData, validateFullName, nameErrors,
      storedName, nameColor, h]
  · simp [validateName, UITextField.text, isValidData, validateFullName, nameErrors,
      storedName, nameColor, h, Nat.not_le.mp h]

/-- The check of the last name stores a long enough text and lists an error otherwise. -/
theorem validateLastName_eq (P : Platform) (now : Date) (t : Turn) :
    validateLastName P now t =
      { t with
        vc := { t.vc with
          viewModel := { t.vc.viewModel with
            errors := t.vc.viewModel.errors ++
              nameErrors P .lastName t.vc.lastNameTextField.contents
            client := { t.vc.viewModel.client with
              lastName := storedName P t.vc.viewModel.client.lastName
                t.vc.lastNameTextField.contents } }
          lastNameTextField := { t.vc.lastNameTextField with
            textColor := nameColor P t.vc.lastNameTextField.contents } } } := by
  by_cases h : P.unicode.count t.vc.lastNameTextField.contents ≤ kMinStringToAccept
  · simp [validateLastName, UITextField.text, isValidData, validateFullName, nameErrors,
      storedName, nameColor, h]
  · simp [validateLastName, UITextField.text, isValidData, validateFullName, nameErrors,
      storedName, nameColor, h, Nat.not_le.mp h]

/-- The text of the years is stored as an integer, if it is one. -/
theorem setYears_eq (t : Turn) :
    setYears t =
      { t with
        vc := { t.vc with
          viewModel := { t.vc.viewModel with
            client := { t.vc.viewModel.client with
              age := intOfString? t.vc.yearsTextField.contents } } } } :=
  rfl

/-- The color of the date picker after the birthday check. -/
def birthdayColor (typed : Option Int) (y : Int) : UIColor :=
  if ageErrors typed y = [] then defaultColor else errorColor

/-- The check of the birthday stores the date and compares the stored age with it. -/
theorem validateBirthday_eq (P : Platform) (now : Date) (t : Turn) :
    validateBirthday P now t =
      { t with
        vc := { t.vc with
          viewModel := { t.vc.viewModel with
            errors := t.vc.viewModel.errors ++ ageErrors t.vc.viewModel.client.age
              (P.yearsBetween t.vc.viewModel.dateSelected now)
            client := { t.vc.viewModel.client with
              birthDate := some (dateToString P t.vc.viewModel.dateSelected) } }
          datePickerTint := birthdayColor t.vc.viewModel.client.age
            (P.yearsBetween t.vc.viewModel.dateSelected now) } } := by
  generalize hy : P.yearsBetween t.vc.viewModel.dateSelected now = y
  by_cases hage : t.vc.viewModel.client.age = some y
  · by_cases hyoung : y < kMinAge
    · have hold : ¬ kMaxAge < y := by simp only [kMinAge, kMaxAge] at *; omega
      simp [validateBirthday, isValidData, validateBirthDayDate, compareDates, ageErrors,
        birthdayColor, hy, hage, hyoung, hold]
    · have hmin : kMinAge ≤ y := by omega
      by_cases hold : y > kMaxAge
      · simp [validateBirthday, isValidData, validateBirthDayDate, compareDates, ageErrors,
          birthdayColor, hy, hage, hyoung, hold, hmin]
      · simp [validateBirthday, isValidData, validateBirthDayDate, compareDates, ageErrors,
          birthdayColor, hy, hage, hyoung, hold, hmin]
  · simp [validateBirthday, isValidData, validateBirthDayDate, compareDates, ageErrors,
      birthdayColor, hy, hage, eq_comm]

/-- What the loop of the alert appends for an error is its line. -/
theorem capitalized_rawValue (e : DataError) : capitalized e.rawValue ++ "\n" = e.line := by
  cases e <;> decide

/-- The loop that builds the alert text lists the errors line by line. -/
theorem separatedErrors_eq (errors : List DataError) :
    separatedErrors errors = errorLines errors := by
  have hloop : ∀ (es : List DataError) (message : String),
      es.foldl (fun m error => m ++ capitalized error.rawValue ++ "\n") message
        = message ++ errorLines es := by
    intro es
    induction es with
    | nil => intro message; simp [errorLines, joined]
    | cons e es ih =>
        intro message
        have happend : message ++ capitalized e.rawValue ++ "\n" = message ++ e.line := by
          rw [String.append_assoc, capitalized_rawValue]
        rw [List.foldl_cons, ih, happend]
        apply String.toList_inj.mp
        simp [errorLines, joined]
  simpa [separatedErrors] using hloop errors ""

/-! ### A tap computes `submit` -/

/-- A controller after a save tap: the fields hold the texts of the submission, no error is
left behind, and the controls, the date and the user are as before. -/
structure AfterTap (P : Platform) (now : Date) (autoId : PushId)
    (vc vc' : MainViewController) : Prop where
  errors : vc'.viewModel.errors = []
  name : vc'.nameTextField.contents = (vc.submission P now autoId).name
  lastName : vc'.lastNameTextField.contents = (vc.submission P now autoId).lastName
  years : vc'.yearsTextField.contents = (vc.submission P now autoId).years
  dateSelected : vc'.viewModel.dateSelected = vc.viewModel.dateSelected
  userLogged : vc'.userLogged = vc.userLogged
  saveButtonEnabled : vc'.saveButtonEnabled = vc.saveButtonEnabled
  closeButtonEnabled : vc'.closeButtonEnabled = vc.closeButtonEnabled
  loaderAnimating : vc'.loaderAnimating = vc.loaderAnimating

/-- The effects of a save tap: between queuing its two blocks it requests its
submission. -/
def tapEffects (P : Platform) (now : Date) (tap : Nat) (autoId : PushId)
    (vc : MainViewController) : List Effect :=
  .async (.startLoading tap) ::
    ((vc.submission P now autoId).effects tap ++ [.asyncAfter (.stopLoading tap)])

/-- The write of an accepted form stores the current form, whatever the leftover client
holds. -/
theorem saveClient_validated {P : Platform} {name lastName years : String} {date now : Date}
    (h : formErrors P name lastName years date now = []) (client : User) (uid : String)
    (autoId : PushId) :
    saveClient false uid
        { client with
          name := storedName P client.name name
          lastName := storedName P client.lastName lastName
          age := intOfString? years
          birthDate := some (dateToString P date) } autoId =
      ⟨FPath.ofString (uid ++ "/" ++ clientDbReference ++ "/" ++ autoId.val),
        clientRecord P autoId.val name lastName (P.yearsBetween date now) date⟩ := by
  obtain ⟨hname, hlast, hage, -, -⟩ := formErrors_eq_nil_iff.mp h
  rw [saveClient_eq]
  simp [User.toDictionary, clientRecord, storedName, Nat.not_le.mpr hname,
    Nat.not_le.mpr hlast, hage]

/-- The controller after the four validation steps, when no error was left over. -/
def MainViewController.validated (P : Platform) (now : Date) (vc : MainViewController) :
    MainViewController :=
  let age := intOfString? vc.yearsTextField.contents
  let y := P.yearsBetween vc.viewModel.dateSelected now
  { vc with
    viewModel := { vc.viewModel with
      errors := formErrors P vc.nameTextField.contents vc.lastNameTextField.contents
        vc.yearsTextField.contents vc.viewModel.dateSelected now
      client := { vc.viewModel.client with
        name := storedName P vc.viewModel.client.name vc.nameTextField.contents
        lastName := storedName P vc.viewModel.client.lastName vc.lastNameTextField.contents
        age := age
        birthDate := some (dateToString P vc.viewModel.dateSelected) } }
    nameTextField := { vc.nameTextField with
      textColor := nameColor P vc.nameTextField.contents }
    lastNameTextField := { vc.lastNameTextField with
      textColor := nameColor P vc.lastNameTextField.contents }
    datePickerTint := birthdayColor age y }

/-- A save tap up to the point where it looks at the errors. -/
def validation (P : Platform) (now : Date) (tap : Nat) (vc : MainViewController) : Turn :=
  validateBirthday P now
    (setYears (validateLastName P now (validateName P now (startLoading tap ⟨vc, []⟩))))

/-- The four steps in a row. -/
theorem validation_eq (P : Platform) (now : Date) (tap : Nat) {vc : MainViewController}
    (hvc : vc.viewModel.errors = []) :
    validation P now tap vc = ⟨vc.validated P now, [.async (.startLoading tap)]⟩ := by
  simp only [validation, validateName_eq, validateLastName_eq, setYears_eq,
    validateBirthday_eq, startLoading, Turn.request, hvc, List.nil_append]
  rfl

/-- A save tap validates the form and then looks at the errors. -/
theorem saveButtonTapped_eq (P : Platform) (now : Date) (tap : Nat) (autoId : PushId)
    (vc : MainViewController) :
    saveButtonTapped P now tap autoId ⟨vc, []⟩ =
      checkValidationErrors tap autoId (validation P now tap vc) :=
  rfl

/-- With errors the alert is presented. -/
theorem checkValidationErrors_of_errors {tap : Nat} {autoId : PushId} {t : Turn}
    (h : t.vc.viewModel.errors ≠ []) :
    checkValidationErrors tap autoId t = stopLoading tap (presentDataErrorsMessage t) := by
  simp [checkValidationErrors, h]

/-- Without errors the client is saved and the form emptied. -/
theorem checkValidationErrors_of_no_errors {tap : Nat} {autoId : PushId} {t : Turn}
    (h : t.vc.viewModel.errors = []) :
    checkValidationErrors tap autoId t =
      stopLoading tap (clearData (saveUser tap autoId t.vc.userId t)) := by
  simp [checkValidationErrors, h]

/-- The request of `saveUser`: one write when there is an id, none otherwise. -/
theorem saveUser_eq (tap : Nat) (autoId : PushId) (id : Option String) (t : Turn) :
    saveUser tap autoId id t =
      { t with
        effects := t.effects ++ id.toList.map fun uid =>
          .setValue ⟨tap, saveClient false uid t.vc.viewModel.client autoId⟩ } := by
  cases id with
  | none => simp [saveUser]
  | some uid => simp [saveUser, Turn.request]

/-- **A save tap computes `submit`.** When no error is left over, the outcome of a tap is
the submission of the form on screen: nothing else of the view model matters. -/
theorem saveButtonTapped_spec (P : Platform) (now : Date) (tap : Nat) (autoId : PushId)
    (vc : MainViewController) (hvc : vc.viewModel.errors = []) :
    ∃ vc', saveButtonTapped P now tap autoId ⟨vc, []⟩ = ⟨vc', tapEffects P now tap autoId vc⟩ ∧
      AfterTap P now autoId vc vc' := by
  rw [saveButtonTapped_eq P now tap autoId vc, validation_eq P now tap hvc]
  by_cases hE : formErrors P vc.nameTextField.contents vc.lastNameTextField.contents
      vc.yearsTextField.contents vc.viewModel.dateSelected now = []
  · -- accepted: the record is built from the current form only
    have hrecord : ∀ uid, saveClient false uid (vc.validated P now).viewModel.client autoId =
        ⟨FPath.ofString (uid ++ "/" ++ clientDbReference ++ "/" ++ autoId.val),
          clientRecord P autoId.val vc.nameTextField.contents vc.lastNameTextField.contents
            (P.yearsBetween vc.viewModel.dateSelected now) vc.viewModel.dateSelected⟩ :=
      fun uid => saveClient_validated hE vc.viewModel.client uid autoId
    have huser : (vc.validated P now).userId = vc.userId := rfl
    rw [checkValidationErrors_of_no_errors hE, saveUser_eq]
    simp only [hrecord, huser]
    refine ⟨(clearData ⟨vc.validated P now, []⟩).vc, ?_, ?_⟩
    · simp [stopLoading, clearData, Turn.request, tapEffects, submission, submit, hE,
        Submission.effects]
    · constructor <;> simp [clearData, submission, submit, hE, validated]
  · -- rejected: the alert lists the errors and nothing is cleared
    rw [checkValidationErrors_of_errors hE]
    refine ⟨(presentDataErrorsMessage ⟨vc.validated P now, []⟩).vc, ?_, ?_⟩
    · simp [stopLoading, presentDataErrorsMessage, Turn.request, tapEffects, submission,
        submit, hE, Submission.effects, validated, separatedErrors_eq]
    · constructor <;>
        simp [presentDataErrorsMessage, Turn.request, submission, submit, hE, validated]

/-- A submission keeps the three texts or empties them. -/
theorem submission_texts (P : Platform) (now : Date) (autoId : PushId)
    (vc : MainViewController) :
    ((vc.submission P now autoId).name = vc.nameTextField.contents ∧
        (vc.submission P now autoId).lastName = vc.lastNameTextField.contents ∧
        (vc.submission P now autoId).years = vc.yearsTextField.contents) ∨
      ((vc.submission P now autoId).name = "" ∧ (vc.submission P now autoId).lastName = "" ∧
        (vc.submission P now autoId).years = "") := by
  simp only [submission, submit]
  split
  · exact Or.inl ⟨rfl, rfl, rfl⟩
  · exact Or.inr ⟨rfl, rfl, rfl⟩

/-- A write is submitted only for a form without errors and a user with an id; it stores
the client of the view model. -/
theorem eq_saveClient_of_mem_writes {P : Platform} {now : Date} {autoId : PushId}
    {vc : MainViewController} {r : SetValue}
    (hr : r ∈ (vc.submission P now autoId).writes) :
    formErrors P vc.nameTextField.contents vc.lastNameTextField.contents
        vc.yearsTextField.contents vc.viewModel.dateSelected now = [] ∧
      ∃ u, vc.userId = some u ∧
        r = saveClient false u (vc.validated P now).viewModel.client autoId := by
  by_cases hE : formErrors P vc.nameTextField.contents vc.lastNameTextField.contents
      vc.yearsTextField.contents vc.viewModel.dateSelected now = []
  · refine ⟨hE, ?_⟩
    rw [submission, submit_of_no_errors hE] at hr
    obtain ⟨u, hu, rfl⟩ := List.mem_map.mp hr
    exact ⟨u, Option.mem_toList.mp hu,
      (saveClient_validated hE vc.viewModel.client u autoId).symm⟩
  · rw [submission, submit_of_errors hE] at hr
    simp at hr

/-- The outcome of a tap is the submission of the form. -/
theorem outcome_saveButtonTapped (P : Platform) (now : Date) (tap : Nat) (autoId : PushId)
    {vc : MainViewController} (hvc : vc.viewModel.errors = []) :
    (saveButtonTapped P now tap autoId ⟨vc, []⟩).outcome = vc.submission P now autoId := by
  obtain ⟨vc', htap, hafter⟩ := saveButtonTapped_spec P now tap autoId vc hvc
  rw [htap]
  simp only [Turn.outcome, tapEffects, Submission.effects, hafter.name, hafter.lastName,
    hafter.years]
  generalize vc.submission P now autoId = o
  cases o
  simp [List.filterMap_map]

end FirebaseLogin
