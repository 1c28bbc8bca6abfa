import FirebaseLogin.LoginScreen
import FirebaseLogin.MainScreen

/-!
# The App

The whole app as a transition system: the login screen at the bottom of the navigation
stack, the main screens pushed on it, the requests that are outstanding, and the session.
The session (`Auth.currentUser`) is the only part that survives the process.

A main screen that was popped stays alive as long as one of its blocks, timers or writes
does, and an alert it still presents stays on screen; so `mains` holds every main screen of
the process and `stack` the ones that are on the stack, by their index. The main screens
evolve by `MainScreen.handle`; of their effects, the sign-out and the pop act on the app.

User actions are guarded as UIKit guards them: taps reach the top screen when no alert is
shown, and only a control that is visible and enabled. The view of the login screen appears
at launch and when the last main screen is popped.

## Main results

* `MainFrame.of_step`: a main screen leaves the rest of the app alone, unless it confirms
  a logout or runs a pop.
* `StepTo.of_step`: everything a step of the app can do.
-/

namespace FirebaseLogin

/-- The app. -/
structure App where
  running : Bool
  /-- `Auth.auth().currentUser`. -/
  currentUser : Option FirebaseUser
  login : LoginViewController
  loginAlert : Option LoginAlert
  /-- The Facebook logins that have not called back. -/
  facebookRequests : Nat
  /-- The Firebase logins that have not called back. -/
  signInRequests : Nat
  /-- The delayed navigations of users who were signed in at launch. -/
  autoNavigations : List User
  mains : List MainScreen
  /-- The main screens above the login screen, the top one first. -/
  stack : List Nat
deriving Repr, DecidableEq

namespace App

open LoginViewController

/-- What can happen to the app. -/
inductive Action where
  /-- The process starts; the session may change between the two reads of it. -/
  | launch (between : Option (Option FirebaseUser))
  | terminate
  /-- The session changes outside of the app. -/
  | sessionChange (user : Option FirebaseUser)
  | facebookTap
  | facebookResult (result : LoginResult)
  /-- The Firebase login calls back; a main screen it pushes is created at `now`. -/
  | signInResult (result : Except String FirebaseUser) (now : Date)
  | autoNavigation (now : Date)
  | loginAlertOK (signOutThrows : Bool)
  /-- An action of a main screen. -/
  | main (i : Nat) (a : MainScreen.Action) (signOutThrows : Bool)
deriving DecidableEq

/-- The app before its process is launched. -/
def notRunning (user : Option FirebaseUser) : App where
  running := false
  currentUser := user
  login := .new
  loginAlert := none
  facebookRequests := 0
  signInRequests := 0
  autoNavigations := []
  mains := []
  stack := []

/-- An alert is on screen, of the login screen or of a main screen. -/
def alertShown (app : App) : Bool :=
  app.loginAlert.isSome || app.mains.any fun m => m.presented.isSome

/-- The login screen is the top screen. -/
def loginOnTop (app : App) : Bool := app.running && app.stack.isEmpty

/-! ### Effects -/

/-- `Auth.auth().signOut()`, whose error is caught: when it throws, the session stays. -/
def signOut (throws : Bool) (app : App) : App :=
  { app with currentUser := if throws then app.currentUser else none }

/-- The top screen is the only one in the window. -/
def refreshWindow (app : App) : App :=
  { app with
    mains := app.mains.mapIdx fun k m => { m with inWindow := app.stack.head? == some k } }

/-- Push a new main screen. -/
def pushMain (user : User) (now : Date) (app : App) : App :=
  refreshWindow { app with
    mains := app.mains ++ [MainScreen.initial (some user) now]
    stack := app.mains.length :: app.stack }

/-- Present an alert from the login screen, which shows it when it is the top screen and no
alert is shown. -/
def presentAlert (alert : LoginAlert) (app : App) : App :=
  if app.loginOnTop && !app.alertShown then { app with loginAlert := some alert } else app

/-- Perform an effect of the login screen. -/
def performLogin (now : Date) (throws : Bool) (app : App) : LoginEffect → App
  | .facebookLogIn => { app with facebookRequests := app.facebookRequests + 1 }
  | .firebaseSignIn _ => { app with signInRequests := app.signInRequests + 1 }
  | .present alert => app.presentAlert alert
  | .goToMainAfter user => { app with autoNavigations := app.autoNavigations ++ [user] }
  | .pushMain user => app.pushMain user now
  | .firebaseSignOut => app.signOut throws
  | .facebooklogOut => app

/-- Run a handler of the login screen and perform its effects. -/
def loginTurn (now : Date) (throws : Bool) (handler : LoginTurn → LoginTurn) (app : App) :
    App :=
  let t := handler ⟨app.login, []⟩
  t.effects.foldl (performLogin now throws) { app with login := t.vc }

/-- `popViewController(animated:)` on the navigation controller of main screen `i`: the top
screen goes, and when the login screen appears it is set up again. A screen that was popped
has no navigation controller. -/
def popViewController (i : Nat) (app : App) : App :=
  if i ∈ app.stack then
    let app := refreshWindow { app with stack := app.stack.tail }
    if app.stack = [] then { app with login := (viewWillAppear ⟨app.login, []⟩).vc } else app
  else app

/-- Update main screen `i`. -/
def setMain (i : Nat) (m : MainScreen) (app : App) : App :=
  { app with mains := app.mains.set i m }

/-- Perform an effect of main screen `i`. -/
def performMain (i : Nat) (throws : Bool) (app : App) (e : Effect) : App :=
  match e with
  | .firebaseSignOut => app.signOut throws
  | .facebooklogOut => app
  | .popViewController => app.popViewController i
  | e =>
      match app.mains[i]? with
      | some m => app.setMain i (m.perform e)
      | none => app

/-! ### Steps -/

/-- The two reads of the session at launch. -/
def launch (between : Option (Option FirebaseUser)) (app : App) : App :=
  let second := between.getD app.currentUser
  loginTurn 0 false (viewDidLoad app.currentUser.isSome (second.map FirebaseUser.toUser))
    { notRunning second with running := true }

/-- One step of the app. -/
def step (P : Platform) (app : App) (a : Action) : Option App :=
  match a with
  | .launch between => if app.running then none else some (app.launch between)
  | .terminate => if app.running then some (notRunning app.currentUser) else none
  | .sessionChange user => some { app with currentUser := user }
  | .facebookTap =>
      if app.loginOnTop && !app.alertShown && app.login.facebookButtonEnabled &&
          !app.login.facebookButtonHidden then
        some (app.loginTurn 0 false facebookTapped)
      else none
  | .facebookResult result =>
      if app.running && app.facebookRequests ≠ 0 then
        some ({ app with facebookRequests := app.facebookRequests - 1 }.loginTurn 0 false
          (facebookLoginResult result))
      else none
  | .signInResult result now =>
      if app.running && app.signInRequests ≠ 0 then
        some ({ app with
          signInRequests := app.signInRequests - 1
          currentUser := match result with
            | .ok user => some user
            | .error _ => app.currentUser }.loginTurn now false
          (LoginViewController.signInResult result))
      else none
  | .autoNavigation now =>
      match app.autoNavigations with
      | [] => none
      | user :: rest =>
          some ({ app with autoNavigations := rest }.loginTurn now false (goToMain user))
  | .loginAlertOK throws =>
      match app.loginAlert with
      | none => none
      | some alert =>
          some ({ app with loginAlert := none }.loginTurn 0 throws (alertAccepted alert))
  | .main i a throws =>
      match app.mains[i]? with
      | none => none
      | some m =>
          if m.allowed a then
            (m.handle P a).map fun r => r.2.foldl (performMain i throws) (app.setMain i r.1)
          else none

/-- The app as a transition system. -/
def system (P : Platform) : TransitionSystem App Action where
  Init app := ∃ user, app = notRunning user
  step := step P

/-! ### The steps of a main screen in the app -/

variable {P : Platform}

/-- The effects that stay on the main screen. -/
def isLocal : Effect → Bool
  | .async _ | .asyncAfter _ | .present _ | .setValue _ => true
  | .firebaseSignOut | .facebooklogOut | .popViewController => false

/-- The effects of a main screen that do not stay on it come from the confirmed logout and
from the queued pop. -/
theorem isLocal_of_handle {m : MainScreen} {a : MainScreen.Action}
    {r : MainScreen × List Effect} (hm : m.Sound) (h : m.handle P a = some r)
    (hconfirm : a = .alertOK → m.presented ≠ some .closeSession)
    (hpop : a = .runBlock → m.mainQueue.head? ≠ some .popViewController) :
    ∀ e ∈ r.2, isLocal e = true := by
  cases a with
  | saveTap now autoId =>
      obtain ⟨vc', htap, -⟩ := saveButtonTapped_spec P now m.taps autoId m.vc hm.errors
      simp only [MainScreen.handle, MainScreen.turn, htap, Option.some.injEq] at h
      subst h
      intro e he
      simp only [tapEffects, Submission.effects, List.mem_cons, List.mem_append, List.mem_map,
        List.not_mem_nil, or_false] at he
      rcases he with rfl | (⟨alert, -, rfl⟩ | ⟨w, -, rfl⟩) | rfl <;> rfl
  | closeTap =>
      obtain rfl := Option.some.inj h
      intro e he
      obtain rfl : e = .present .closeSession := by
        simpa [MainScreen.turn, MainViewController.logOut, Turn.request] using he
      rfl
  | alertOK =>
      simp only [MainScreen.handle] at h
      split at h
      · cases h
      · rename_i hp
        exact absurd hp (hconfirm rfl)
      · obtain rfl := Option.some.inj h
        simp
  | alertCancel =>
      simp only [MainScreen.handle] at h
      split at h
      · obtain rfl := Option.some.inj h
        simp
      · cases h
  | timerFires =>
      simp only [MainScreen.handle] at h
      split at h
      · cases h
      · obtain rfl := Option.some.inj h
        simp
  | runBlock =>
      simp only [MainScreen.handle] at h
      split at h
      · cases h
      · rename_i b queue hq
        obtain rfl := Option.some.inj h
        cases b with
        | startLoading tap | stopLoading tap => simp [MainScreen.execute]
        | saveCompletion tap error => simp [MainScreen.execute, isLocal]
        | popViewController => exact absurd (by rw [hq, List.head?_cons]) (hpop rfl)
  | writeCompletes tap error =>
      simp only [MainScreen.handle] at h
      split at h
      · cases h
      · obtain rfl := Option.some.inj h
        simp
  | editName | editLastName | changeName | changeLastName | editYears | pickDate =>
      obtain rfl := Option.some.inj h
      simp

/-- Local effects act on the main screen alone. -/
theorem foldl_performMain {i : Nat} {throws : Bool} {es : List Effect} {app : App}
    {m : MainScreen} (hm : app.mains[i]? = some m) (hes : ∀ e ∈ es, isLocal e = true) :
    es.foldl (performMain i throws) app = app.setMain i (m.performAll es) := by
  induction es generalizing app m with
  | nil =>
      obtain ⟨hi, hget⟩ := List.getElem?_eq_some_iff.mp hm
      simp [setMain, MainScreen.performAll, ← hget]
  | cons e es ih =>
      have he : performMain i throws app e = app.setMain i (m.perform e) := by
        have hlocal := hes e List.mem_cons_self
        cases e with
        | async | asyncAfter | present | setValue => simp [performMain, hm]
        | firebaseSignOut | facebooklogOut | popViewController => cases hlocal
      have hm' : (app.setMain i (m.perform e)).mains[i]? = some (m.perform e) := by
        obtain ⟨hi, -⟩ := List.getElem?_eq_some_iff.mp hm
        simp [setMain, hi]
      rw [List.foldl_cons, he, ih hm' fun e' he' => hes e' (List.mem_cons_of_mem _ he')]
      simp [setMain, MainScreen.performAll]

/-- What a step of a main screen leaves as it was, unless it confirms a logout or runs a
pop. -/
structure MainFrame (m m' : MainScreen) : Prop where
  sound : m'.Sound
  inWindow : m'.inWindow = m.inWindow
  userLogged : m'.vc.userLogged = m.vc.userLogged
  pops : Block.popViewController ∈ m'.mainQueue ↔ Block.popViewController ∈ m.mainQueue
  /-- A screen that presents nothing shows an alert only in the window. -/
  presented : m'.presented ≠ none → m.presented ≠ none ∨ m.inWindow = true

/-- An alert is shown after one was requested only if one was shown before, or the view is in the
window. -/
theorem presented_of_perform {m : MainScreen} {alert : Alert}
    (h : (m.perform (.present alert)).presented ≠ none) :
    m.presented ≠ none ∨ m.inWindow = true := by
  simp only [MainScreen.perform] at h
  split at h
  · rename_i hp
    exact Or.inr (MainScreen.canPresent_iff.mp hp).1
  · exact Or.inl h

/-- A step of a main screen, apart from the confirmed logout and the pop, keeps what the app
depends on. -/
theorem MainFrame.of_step {m m' : MainScreen} {a : MainScreen.Action} (hm : m.Sound)
    (h : MainScreen.step P m a = some m')
    (hconfirm : a = .alertOK → m.presented ≠ some .closeSession)
    (hpop : a = .runBlock → m.mainQueue.head? ≠ some .popViewController) :
    MainFrame m m' := by
  have hsound := MainScreen.step_sound hm h
  cases MainScreen.StepTo.of_step hm.errors h with
  | edit hvc => exact ⟨hsound, rfl, (MainScreen.edited_frame hvc).2.1, Iff.rfl, Or.inl⟩
  | saveTap htap =>
      refine ⟨hsound, htap.inWindow, htap.vc.userLogged, by simp [htap.mainQueue], ?_⟩
      intro hp
      cases hcan : m.canPresent with
      | true => exact Or.inr (MainScreen.canPresent_iff.mp hcan).1
      | false => exact Or.inl ((htap.blocked hcan).1 ▸ hp)
  | closeTap => exact ⟨hsound, rfl, rfl, Iff.rfl, presented_of_perform⟩
  | confirm hp => exact absurd hp (hconfirm rfl)
  | dismiss | cancel => exact ⟨hsound, rfl, rfl, Iff.rfl, fun hp => absurd rfl hp⟩
  | timerFires ht =>
      obtain ⟨tap, rfl⟩ := hm.timers _ (by rw [ht]; exact List.mem_cons_self)
      exact ⟨hsound, rfl, rfl, by simp, Or.inl⟩
  | startLoading hq | stopLoading hq => exact ⟨hsound, rfl, rfl, by simp [hq], Or.inl⟩
  | saveCompletion hq =>
      exact ⟨hsound, rfl, rfl, by simp [MainScreen.perform, hq], presented_of_perform⟩
  | pop hq => exact absurd (by rw [hq, List.head?_cons]) (hpop rfl)
  | writeCompletes => exact ⟨hsound, rfl, rfl, by simp, Or.inl⟩

/-! ### The steps of the app -/

/-- The app after its launch, by the two reads of the session. -/
theorem launch_eq (between : Option (Option FirebaseUser)) (app : App) :
    app.launch between =
      match app.currentUser, between.getD app.currentUser with
      | none, second =>
          { notRunning second with running := true, login := ⟨true, false, true, false⟩ }
      | some _, some user =>
          { notRunning (some user) with
            running := true, login := ⟨true, true, false, true⟩,
            autoNavigations := [user.toUser] }
      | some _, none =>
          { notRunning none with running := true, login := ⟨true, true, true, false⟩ } := by
  simp only [launch]
  generalize between.getD app.currentUser = second
  cases app.currentUser with
  | none =>
      simp only [loginTurn, notRunning, viewDidLoad_eq, Option.isSome_none]
      rfl
  | some user =>
      cases second with
      | none =>
          simp only [loginTurn, notRunning, viewDidLoad_eq, Option.isSome_some]
          rfl
      | some user' =>
          simp only [loginTurn, notRunning, viewDidLoad_eq, Option.isSome_some]
          rfl

/-- Dismissing an alert of the login screen logs out or does nothing. -/
theorem loginTurn_alertAccepted (alert : LoginAlert) (throws : Bool) (app : App) :
    { app with loginAlert := none }.loginTurn 0 throws (alertAccepted alert) =
      { app with
        loginAlert := none
        currentUser := if alert.logsOut && !throws then none else app.currentUser } := by
  cases hlogs : alert.logsOut <;> cases throws <;>
    simp [loginTurn, alertAccepted, hlogs, logOut, LoginTurn.request, performLogin, signOut]

/-- **Everything a step of the app can do**, one constructor for each behavior. -/
inductive StepTo (P : Platform) (app : App) : Action → App → Prop
  /-- Nobody is signed in: the button is shown. -/
  | launchIdle {between : Option (Option FirebaseUser)} : app.running = false →
      app.currentUser = none →
      StepTo P app (.launch between)
        { notRunning (between.getD none) with
          running := true, login := ⟨true, false, true, false⟩ }
  /-- A user is signed in: the navigation is on its way. -/
  | launchActive {between : Option (Option FirebaseUser)} {user : FirebaseUser} :
      app.running = false → app.currentUser ≠ none →
      between.getD app.currentUser = some user →
      StepTo P app (.launch between)
        { notRunning (some user) with
          running := true, login := ⟨true, true, false, true⟩,
          autoNavigations := [user.toUser] }
  /-- A user was signed in at the first read and not at the second: the button is hidden
  and no navigation is on its way. -/
  | launchGone {between : Option (Option FirebaseUser)} : app.running = false →
      app.currentUser ≠ none → between = some none →
      StepTo P app (.launch between)
        { notRunning none with running := true, login := ⟨true, true, true, false⟩ }
  | terminate : app.running = true → StepTo P app .terminate (notRunning app.currentUser)
  | sessionChange {user : Option FirebaseUser} :
      StepTo P app (.sessionChange user) { app with currentUser := user }
  | facebookTap : app.loginOnTop = true → app.alertShown = false →
      app.login.facebookButtonEnabled = true → app.login.facebookButtonHidden = false →
      StepTo P app .facebookTap
        { app with
          login := { app.login with loaderAnimating := true, facebookButtonEnabled := false }
          facebookRequests := app.facebookRequests + 1 }
  | facebookToken {token : String} : app.running = true → app.facebookRequests ≠ 0 →
      StepTo P app (.facebookResult (.success (some token)))
        { app with
          facebookRequests := app.facebookRequests - 1
          signInRequests := app.signInRequests + 1 }
  | facebookNoToken : app.running = true → app.facebookRequests ≠ 0 →
      StepTo P app (.facebookResult (.success none))
        ({ app with facebookRequests := app.facebookRequests - 1 }.presentAlert
          ⟨errorTitle, defaultErrorMessage, false⟩)
  | facebookCancelled : app.running = true → app.facebookRequests ≠ 0 →
      StepTo P app (.facebookResult .cancelled)
        { app with
          login := { app.login with loaderAnimating := false, facebookButtonEnabled := true }
          facebookRequests := app.facebookRequests - 1 }
  | facebookFailed {error : String} : app.running = true → app.facebookRequests ≠ 0 →
      StepTo P app (.facebookResult (.failed error))
        ({ app with facebookRequests := app.facebookRequests - 1 }.presentAlert
          ⟨errorTitle, error, true⟩)
  | signInOk {user : FirebaseUser} {now : Date} : app.running = true →
      app.signInRequests ≠ 0 →
      StepTo P app (.signInResult (.ok user) now)
        ({ app with
          login := { app.login with
            isInitialView := false, loaderAnimating := false, facebookButtonEnabled := true }
          signInRequests := app.signInRequests - 1
          currentUser := some user }.pushMain user.toUser now)
  | signInError {error : String} {now : Date} : app.running = true →
      app.signInRequests ≠ 0 →
      StepTo P app (.signInResult (.error error) now)
        ({ app with signInRequests := app.signInRequests - 1 }.presentAlert
          ⟨errorTitle, error, true⟩)
  | autoNavigation {user : User} {rest : List User} {now : Date} :
      app.autoNavigations = user :: rest →
      StepTo P app (.autoNavigation now)
        ({ app with
          login := { app.login with
            isInitialView := false, loaderAnimating := false, facebookButtonEnabled := true }
          autoNavigations := rest }.pushMain user now)
  | loginAlertOK {alert : LoginAlert} {throws : Bool} : app.loginAlert = some alert →
      StepTo P app (.loginAlertOK throws)
        { app with
          loginAlert := none
          currentUser := if alert.logsOut && !throws then none else app.currentUser }
  /-- A main screen takes a step that concerns no other part of the app. -/
  | main {i : Nat} {a : MainScreen.Action} {throws : Bool} {m m' : MainScreen} :
      app.mains[i]? = some m → (a = .alertOK → m.presented ≠ some .closeSession) →
      MainScreen.step P m a = some m' → MainFrame m m' →
      StepTo P app (.main i a throws) (app.setMain i m')
  /-- The logout is confirmed on a main screen. -/
  | confirm {i : Nat} {throws : Bool} {m : MainScreen} : app.mains[i]? = some m →
      m.presented = some .closeSession →
      StepTo P app (.main i .alertOK throws)
        ((app.setMain i { m with
          presented := none
          mainQueue := m.mainQueue ++ [.popViewController] }).signOut throws)
  /-- A main screen runs its queued pop. -/
  | pop {i : Nat} {throws : Bool} {m : MainScreen} {queue : List Block} :
      app.mains[i]? = some m → m.mainQueue = .popViewController :: queue →
      StepTo P app (.main i .runBlock throws)
        ((app.setMain i { m with mainQueue := queue }).popViewController i)

/-- Every step of the app is one of `StepTo`, when its main screens are sound. -/
theorem StepTo.of_step {app app' : App} {a : Action}
    (hsound : ∀ (i : Nat) (m : MainScreen), app.mains[i]? = some m → m.Sound)
    (h : step P app a = some app') :
    StepTo P app a app' := by
  cases a with
  | launch between =>
      simp only [step] at h
      split at h
      · cases h
      · rename_i hrun
        have hrun : app.running = false := by simpa using hrun
        obtain rfl := Option.some.inj h
        cases hfirst : app.currentUser with
        | none =>
            rw [launch_eq, hfirst]
            exact .launchIdle hrun hfirst
        | some user =>
            have hne : app.currentUser ≠ none := by simp [hfirst]
            rw [launch_eq]
            cases hsecond : between.getD app.currentUser with
            | none =>
                rw [hfirst]
                refine .launchGone hrun hne ?_
                cases between with
                | none => simp [hfirst] at hsecond
                | some second => exact congrArg some hsecond
            | some user' =>
                rw [hfirst]
                exact .launchActive hrun hne hsecond
  | terminate =>
      simp only [step] at h
      split at h
      · rename_i hrun
        obtain rfl := Option.some.inj h
        exact .terminate hrun
      · cases h
  | sessionChange user =>
      obtain rfl := Option.some.inj h
      exact .sessionChange
  | facebookTap =>
      simp only [step] at h
      split at h
      · rename_i hguard
        simp only [Bool.and_eq_true, Bool.not_eq_true'] at hguard
        obtain ⟨⟨⟨htop, halert⟩, henabled⟩, hhidden⟩ := hguard
        obtain rfl := Option.some.inj h
        exact .facebookTap htop halert henabled hhidden
      · cases h
  | facebookResult result =>
      simp only [step] at h
      split at h
      · rename_i hguard
        simp only [Bool.and_eq_true, decide_eq_true_eq] at hguard
        obtain ⟨hrun, hreq⟩ := hguard
        obtain rfl := Option.some.inj h
        cases result with
        | success token =>
            cases token with
            | none => exact .facebookNoToken hrun hreq
            | some token => exact .facebookToken hrun hreq
        | cancelled => exact .facebookCancelled hrun hreq
        | failed error => exact .facebookFailed hrun hreq
      · cases h
  | signInResult result now =>
      simp only [step] at h
      split at h
      · rename_i hguard
        simp only [Bool.and_eq_true, decide_eq_true_eq] at hguard
        obtain ⟨hrun, hreq⟩ := hguard
        obtain rfl := Option.some.inj h
        cases result with
        | error error => exact .signInError hrun hreq
        | ok user => exact .signInOk hrun hreq
      · cases h
  | autoNavigation now =>
      simp only [step] at h
      split at h
      · cases h
      · rename_i user rest hauto
        obtain rfl := Option.some.inj h
        exact .autoNavigation hauto
  | loginAlertOK throws =>
      simp only [step] at h
      split at h
      · cases h
      · rename_i alert halert
        obtain rfl := Option.some.inj h
        rw [loginTurn_alertAccepted]
        exact .loginAlertOK halert
  | main i a throws =>
      simp only [step] at h
      split at h
      · cases h
      · rename_i m hm
        split at h
        · obtain ⟨r, hr, rfl⟩ := Option.map_eq_some_iff.mp h
          obtain ⟨hi, -⟩ := List.getElem?_eq_some_iff.mp hm
          have hset : (app.setMain i r.1).mains[i]? = some r.1 := by simp [setMain, hi]
          by_cases hconfirm : a = .alertOK ∧ m.presented = some .closeSession
          · obtain ⟨rfl, hp⟩ := hconfirm
            simp only [MainScreen.handle, hp, Option.some.injEq] at hr
            subst hr
            have happ : (({ m with presented := none }.turn
                MainViewController.confirmLogOut).2.foldl (performMain i throws)
                (app.setMain i ({ m with presented := none }.turn
                  MainViewController.confirmLogOut).1)) =
                (app.setMain i { m with
                  presented := none
                  mainQueue := m.mainQueue ++ [.popViewController] }).signOut throws := by
              simp [MainScreen.turn, MainViewController.confirmLogOut, Turn.request,
                performMain, signOut, setMain, hi, MainScreen.perform]
            rw [happ]
            exact .confirm hm hp
          · by_cases hpop : a = .runBlock ∧ m.mainQueue.head? = some .popViewController
            · obtain ⟨rfl, hhead⟩ := hpop
              obtain ⟨queue, hq⟩ := List.head?_eq_some_iff.mp hhead
              simp only [MainScreen.handle, hq, Option.some.injEq] at hr
              subst hr
              exact .pop hm hq
            · have hconfirm' : a = .alertOK → m.presented ≠ some .closeSession :=
                fun ha hp => hconfirm ⟨ha, hp⟩
              have hpop' : a = .runBlock → m.mainQueue.head? ≠ some .popViewController :=
                fun ha hp => hpop ⟨ha, hp⟩
              have hlocal := isLocal_of_handle (hsound i m hm) hr hconfirm' hpop'
              have hmain : MainScreen.step P m a = some (r.1.performAll r.2) := by
                simp [MainScreen.step, hr]
              have happ : (r.2.foldl (performMain i throws) (app.setMain i r.1)) =
                  app.setMain i (r.1.performAll r.2) := by
                rw [foldl_performMain hset hlocal]
                simp [setMain]
              rw [happ]
              exact .main hm hconfirm' hmain
                (MainFrame.of_step (hsound i m hm) hmain hconfirm' hpop')
        · cases h

end App

end FirebaseLogin
