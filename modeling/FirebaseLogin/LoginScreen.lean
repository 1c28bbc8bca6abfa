import FirebaseLogin.MainForm

/-!
# The Login Screen

`LoginViewController.swift`, its view model and `ServiceLoginManager.swift`. As on the main
screen, a handler runs to completion and requests what happens later: a call of the
Facebook or of the Firebase login, an alert, the delayed navigation of a user who is still
signed in. `FirebaseLogin.App` performs the requests.

Loading is two flags, set by `startLoading` and cleared by `stopLoading`; of the five ways
in which a login attempt ends, the handlers clear them on two.

## Main results

* `viewDidLoad_eq`: the three ways in which the screen loads.
-/

namespace FirebaseLogin

/-- A user of Firebase. -/
structure FirebaseUser where
  uid : String
  displayName : Option String
  photoURL : Option String
deriving Repr, DecidableEq

/-- The user record the app makes of a user of Firebase. -/
def FirebaseUser.toUser (user : FirebaseUser) : User :=
  { User.empty with id := some user.uid, name := user.displayName, image := user.photoURL }

/-- The Firebase user of the concrete runs. -/
def sampleUser : FirebaseUser := ⟨"uid", none, none⟩

/-- The results of the Facebook login. -/
inductive LoginResult where
  | success (token : Option String)
  | cancelled
  | failed (error : String)
deriving Repr, DecidableEq

/-- An alert of the login screen; dismissing it may log out. -/
structure LoginAlert where
  title : String
  message : String
  logsOut : Bool
deriving Repr, DecidableEq

/-- The state of `LoginViewController` that its handlers read or write. -/
structure LoginViewController where
  isInitialView : Bool
  facebookButtonHidden : Bool
  facebookButtonEnabled : Bool
  loaderAnimating : Bool
deriving Repr, DecidableEq

/-- The screen as it comes out of the interface file. -/
def LoginViewController.new : LoginViewController where
  isInitialView := true
  facebookButtonHidden := false
  facebookButtonEnabled := true
  loaderAnimating := false

/-- What a handler of the login screen requests. -/
inductive LoginEffect where
  /-- `LoginManager().logIn(permissions:viewController:)`. -/
  | facebookLogIn
  /-- `Auth.auth().signIn(with:)` with the credential of a token. -/
  | firebaseSignIn (token : String)
  | present (alert : LoginAlert)
  /-- `goToMain` one second later. -/
  | goToMainAfter (user : User)
  | pushMain (user : User)
  | firebaseSignOut
  | facebooklogOut
deriving Repr, DecidableEq

/-- A turn of the main thread on the login screen. -/
structure LoginTurn where
  vc : LoginViewController
  effects : List LoginEffect
deriving Repr, DecidableEq

/-- An effect that is requested. -/
def LoginTurn.request (t : LoginTurn) (e : LoginEffect) : LoginTurn :=
  { t with effects := t.effects ++ [e] }

namespace LoginViewController

/-! ### The view controller -/

/-- `startLoading()`. -/
def startLoading (t : LoginTurn) : LoginTurn :=
  { t with vc := { t.vc with loaderAnimating := true, facebookButtonEnabled := false } }

/-- `stopLoading()`. -/
def stopLoading (t : LoginTurn) : LoginTurn :=
  { t with vc := { t.vc with loaderAnimating := false, facebookButtonEnabled := true } }

/-- `setupDefaultView()`. -/
def setupDefaultView (t : LoginTurn) : LoginTurn := stopLoading t

/-- `setupViewWithCurrentUser()`, given what `userLogged` reads. -/
def setupViewWithCurrentUser (userLogged : Option User) (t : LoginTurn) : LoginTurn :=
  match userLogged with
  | some user => t.request (.goToMainAfter user)
  | none => setupDefaultView t

/-- `setupView(activeUser:)`, given what `userLogged` would read. -/
def setupView (activeUser : Bool) (userLogged : Option User) (t : LoginTurn) : LoginTurn :=
  let t := { t with vc := { t.vc with facebookButtonHidden := activeUser } }
  if activeUser then setupViewWithCurrentUser userLogged t else setupDefaultView t

/-- `viewDidLoad()`, given what `isUserActive` and then `userLogged` read. -/
def viewDidLoad (isUserActive : Bool) (userLogged : Option User) (t : LoginTurn) :
    LoginTurn :=
  setupView isUserActive userLogged (startLoading t)

/-- `viewWillAppear(_:)`. -/
def viewWillAppear (t : LoginTurn) : LoginTurn :=
  if !t.vc.isInitialView then setupView false none t else t

/-- `goToMain(userLogged:)`. -/
def goToMain (userLogged : User) (t : LoginTurn) : LoginTurn :=
  let t := { t with vc := { t.vc with isInitialView := false } }
  (stopLoading t).request (.pushMain userLogged)

/-! ### The login service -/

/-- The message of an attempt that failed. -/
def presentAlertController (message : String) (logsOut : Bool) (t : LoginTurn) : LoginTurn :=
  t.request (.present ⟨errorTitle, message, logsOut⟩)

/-- `ServiceLoginManager.logOut()`. -/
def logOut (t : LoginTurn) : LoginTurn := (t.request .firebaseSignOut).request .facebooklogOut

/-- `facebookLogin()`. -/
def facebookLogin (t : LoginTurn) : LoginTurn := t.request .facebookLogIn

/-- `tryloginWithFacebook(token:)`. -/
def tryloginWithFacebook (token : String) (t : LoginTurn) : LoginTurn :=
  t.request (.firebaseSignIn token)

/-- The callback of the Facebook login. -/
def facebookLoginResult (result : LoginResult) (t : LoginTurn) : LoginTurn :=
  match result with
  | .success (some token) => tryloginWithFacebook token t
  | .success none => presentAlertController defaultErrorMessage false t
  | .cancelled => stopLoading t
  | .failed error => presentAlertController error true t

/-- The callback of the Firebase login, with exactly one of a result and an error. -/
def signInResult (result : Except String FirebaseUser) (t : LoginTurn) : LoginTurn :=
  match result with
  | .error error => presentAlertController error true t
  | .ok user => goToMain user.toUser t

/-- The handler of the alert's button. -/
def alertAccepted (alert : LoginAlert) (t : LoginTurn) : LoginTurn :=
  if alert.logsOut then logOut t else t

/-- `facebookTapped(_:)`. -/
def facebookTapped (t : LoginTurn) : LoginTurn := facebookLogin (startLoading t)

/-! ### How the screen loads -/

/-- **The three ways in which the screen loads**: with the button, with a navigation under
way, or — when the user is gone between the two reads — with neither. -/
theorem viewDidLoad_eq (isUserActive : Bool) (userLogged : Option User) :
    viewDidLoad isUserActive userLogged ⟨.new, []⟩ =
      match isUserActive, userLogged with
      | false, _ => ⟨⟨true, false, true, false⟩, []⟩
      | true, some user => ⟨⟨true, true, false, true⟩, [.goToMainAfter user]⟩
      | true, none => ⟨⟨true, true, true, false⟩, []⟩ := by
  cases isUserActive with
  | false => rfl
  | true => cases userLogged <;> rfl

end LoginViewController

end FirebaseLogin
