import FirebaseLogin.AppInvariant

/-!
# The Login Screen at Rest

The login screen is at rest when it is the top screen, no alert is shown and no callback is
outstanding. It is then up to the user, who can only go on with the Facebook button. The
handlers reset the loading state when the login is cancelled or succeeds; they forget to
when it fails, and at launch the button stays hidden when the session is gone between the
two reads of it.

## Main results

* `step_loginInv`: what one step preserves.
* `loginReady_of_run`: **in every run without a forgotten reset the button is visible and
  enabled and the loader is stopped, whenever the login screen is at rest.**
* `stuck_of_forgetsReset`: every forgotten reset leads to a dead screen.
* `failed_logins_leave_login_stuck`: the four runs that end in a dead screen.
-/

namespace FirebaseLogin

namespace App

open TransitionSystem

variable {P : Platform} {app app' : App} {a : Action}

/-- The login screen is the top screen, no alert is shown, and nothing is outstanding. -/
def AtRest (app : App) : Prop :=
  app.loginOnTop = true ∧ app.alertShown = false ∧ app.outstanding = 0

/-- Whether the app is at rest is decided by its fields. -/
instance (app : App) : Decidable (AtRest app) :=
  inferInstanceAs (Decidable (_ = _ ∧ _ = _ ∧ _ = _))

/-- At rest, the Facebook button is visible and enabled and the loader is stopped. -/
def LoginReady (app : App) : Prop :=
  AtRest app → app.login.facebookButtonHidden = false ∧
    app.login.facebookButtonEnabled = true ∧ app.login.loaderAnimating = false

/-- Whether the login screen is ready is decided by its fields. -/
instance (app : App) : Decidable (LoginReady app) :=
  inferInstanceAs (Decidable (AtRest app → _ = _ ∧ _ = _ ∧ _ = _))

/-- The steps after which the loading state is not reset: a Facebook login without a token
or with an error, a Firebase login with an error, and a launch during which the session
goes. -/
def ForgetsReset (app : App) : Action → Prop
  | .facebookResult (.success none) => True
  | .facebookResult (.failed _) => True
  | .signInResult (.error _) _ => True
  | .launch between => app.currentUser ≠ none ∧ between = some none
  | _ => False

/-- What holds of the login screen as long as no reset is forgotten. -/
structure LoginInv (app : App) : Prop where
  /-- With nothing on the stack and nothing outstanding, the screen is ready. -/
  ready : app.running = true → app.stack = [] → app.outstanding = 0 →
    app.login.facebookButtonHidden = false ∧ app.login.facebookButtonEnabled = true ∧
      app.login.loaderAnimating = false
  /-- During a login attempt the button is visible. -/
  visible : app.facebookRequests + app.signInRequests ≠ 0 →
    app.login.facebookButtonHidden = false

/-- A step that leaves the login screen and its requests alone. -/
theorem LoginInv.of_eq (h : LoginInv app) (hrunning : app'.running = app.running)
    (hstack : app'.stack = app.stack) (hlogin : app'.login = app.login)
    (hfacebook : app'.facebookRequests = app.facebookRequests)
    (hsignIn : app'.signInRequests = app.signInRequests)
    (hauto : app'.autoNavigations = app.autoNavigations) : LoginInv app' where
  ready := by
    rw [hrunning, hstack, hlogin, outstanding, hfacebook, hsignIn, hauto]
    exact h.ready
  visible := by
    rw [hlogin, hfacebook, hsignIn]
    exact h.visible

/-- A main screen is on the stack, and nothing is outstanding. -/
theorem loginInv_of_push (hstack : app.stack ≠ []) (hzero : app.outstanding = 0) :
    LoginInv app := by
  refine ⟨fun _ hnil => absurd hnil hstack, ?_⟩
  intro hne
  simp only [outstanding] at hzero
  omega

/-- **One step keeps the login screen ready**, unless it forgets a reset. -/
theorem step_loginInv (happ : AppInv app) (h : LoginInv app)
    (hstep : step P app a = some app') (hok : ¬ ForgetsReset app a) : LoginInv app' := by
  cases StepTo.of_step happ.sound hstep with
  | launchIdle => exact ⟨fun _ _ _ => ⟨rfl, rfl, rfl⟩, fun _ => rfl⟩
  | launchActive =>
      refine ⟨fun _ _ hout => absurd hout ?_, fun hne => absurd rfl hne⟩
      simp [outstanding]
  | launchGone _ hfirst hsecond => exact absurd ⟨hfirst, hsecond⟩ hok
  | terminate =>
      refine ⟨fun hrun => absurd hrun ?_, fun hne => absurd rfl hne⟩
      simp [notRunning]
  | facebookTap _ _ _ hhidden =>
      refine ⟨fun _ _ hout => absurd hout ?_, fun _ => hhidden⟩
      simp only [outstanding]
      omega
  | facebookToken _ hreq =>
      refine ⟨fun _ _ hout => absurd hout ?_, fun _ => h.visible (by omega)⟩
      simp only [outstanding]
      omega
  | facebookNoToken | facebookFailed | signInError => exact absurd trivial hok
  | facebookCancelled _ hreq =>
      have hvisible := h.visible (by omega)
      exact ⟨fun _ _ _ => ⟨hvisible, rfl, rfl⟩, fun _ => hvisible⟩
  | signInOk _ hreq =>
      exact loginInv_of_push (List.cons_ne_nil _ _) (happ.signIn_done hreq)
  | autoNavigation hauto =>
      exact loginInv_of_push (List.cons_ne_nil _ _) (happ.auto_done hauto)
  | sessionChange | loginAlertOK | main | confirm => exact h.of_eq rfl rfl rfl rfl rfl rfl
  | @pop i throws m queue hm hq =>
      by_cases hi : i ∈ app.stack
      · -- the login screen appears and is set up again
        rw [(happ.dequeue hm).popViewController_eq hi]
        exact ⟨fun _ _ _ => ⟨rfl, rfl, rfl⟩, fun _ => rfl⟩
      · rw [popViewController_of_not_mem (app.setMain i _) hi]
        exact h.of_eq rfl rfl rfl rfl rfl rfl

/-- **The login screen does not get stuck** in a run without a forgotten reset: in every
state in which it is at rest the button is visible and enabled and the loader is stopped. -/
theorem loginReady_of_run {user : Option FirebaseUser} {h : List (App × Action)}
    (r : (system P).Run (notRunning user) h app) (hok : ∀ p ∈ h, ¬ ForgetsReset p.1 p.2) :
    ∀ x ∈ visited h app, LoginReady x := by
  have hinv := r.invariant_visited (C := fun t a => ¬ ForgetsReset t a)
    (I := fun x => AppInv x ∧ LoginInv x) hok
    ⟨run_appInv (.nil (T := system P) _), fun hrun => absurd hrun (by simp [notRunning]),
      fun hne => absurd rfl hne⟩
    fun t a u ha ht hstep => ⟨step_appInv ht.1 hstep, step_loginInv ht.1 ht.2 hstep ha⟩
  intro x hx hrest
  obtain ⟨htop, -, hout⟩ := hrest
  obtain ⟨hrun, hstack⟩ := loginOnTop_iff.mp htop
  exact (hinv x hx).2.ready hrun hstack hout

/-! ### The forgotten resets -/

/-- A disabled button leaves the screen dead once the alert of a failed attempt is
dismissed. -/
theorem stuck_of_failed_attempt (app₀ : App) (happ : AppInv app) (hne : app.outstanding ≠ 0)
    (hrunning : app.running = true) (hrunning₀ : app₀.running = app.running)
    (hlogin : app₀.login = app.login) (hmains : app₀.mains = app.mains)
    (hstack₀ : app₀.stack = app.stack) (halert₀ : app₀.loginAlert = app.loginAlert)
    (hout₀ : app₀.outstanding = 0) (alert : LoginAlert) :
    ∃ h x, (system P).Run (app₀.presentAlert alert) h x ∧ ¬ LoginReady x := by
  obtain ⟨-, hstack, halert, hquiet⟩ := happ.alone hne
  have htop : app₀.loginOnTop = true :=
    loginOnTop_iff.mpr ⟨hrunning₀.trans hrunning, hstack₀.trans hstack⟩
  have hshown : app₀.alertShown = false :=
    alertShown_eq_false_iff.mpr ⟨halert₀.trans halert, by rw [hmains]; exact hquiet⟩
  have hpresent : app₀.presentAlert alert = { app₀ with loginAlert := some alert } := by
    simp [presentAlert, htop, hshown]
  -- the user dismisses the alert; the session does not matter here
  have hdismiss : (system P).step { app₀ with loginAlert := some alert } (.loginAlertOK true) =
      some { app₀ with loginAlert := none } := by
    have hturn := loginTurn_alertAccepted alert true { app₀ with loginAlert := some alert }
    simp only [Bool.not_true, Bool.and_false, Bool.false_eq_true, if_false] at hturn
    exact congrArg some hturn
  rw [hpresent]
  refine ⟨_, _, .single hdismiss, ?_⟩
  intro hready
  have hrest : AtRest { app₀ with loginAlert := none } := by
    refine ⟨htop, alertShown_eq_false_iff.mpr ⟨rfl, ?_⟩, hout₀⟩
    exact (alertShown_eq_false_iff.mp hshown).2
  have henabled : app₀.login.facebookButtonEnabled = true := (hready hrest).2.1
  rw [hlogin, happ.disabled hne] at henabled
  cases henabled

/-- **Every forgotten reset leads to a dead screen**, at once or when the alert is
dismissed. -/
theorem stuck_of_forgetsReset (happ : AppInv app) (hstep : step P app a = some app')
    (hforget : ForgetsReset app a) :
    ∃ h x, (system P).Run app' h x ∧ ¬ LoginReady x := by
  cases StepTo.of_step happ.sound hstep with
  | launchGone =>
      refine ⟨[], _, .nil _, ?_⟩
      intro hready
      have hhidden := (hready (by simp [AtRest, loginOnTop, alertShown, outstanding,
        notRunning])).1
      cases hhidden
  | facebookNoToken hrun hreq | facebookFailed hrun hreq =>
      exact stuck_of_failed_attempt
        { app with facebookRequests := app.facebookRequests - 1 } happ
        (outstanding_ne_zero_of_facebook hreq) hrun rfl rfl rfl rfl rfl
        (happ.facebook_done hreq) _
  | signInError hrun hreq =>
      exact stuck_of_failed_attempt
        { app with signInRequests := app.signInRequests - 1 } happ
        (outstanding_ne_zero_of_signIn hreq) hrun rfl rfl rfl rfl rfl
        (happ.signIn_done hreq) _
  | launchIdle _ hnone => exact absurd hnone hforget.1
  | launchActive _ _ hsecond =>
      rw [hforget.2] at hsecond
      cases hsecond
  | terminate | sessionChange | facebookTap | facebookToken | facebookCancelled | signInOk
  | autoNavigation | loginAlertOK | main | confirm | pop => cases hforget

/-! ### Concrete runs -/

/-- A cancelled attempt, then a successful one, then a logout. -/
def cancelledThenLoggedIn : List Action :=
  [.launch none, .facebookTap, .facebookResult .cancelled, .facebookTap,
   .facebookResult (.success (some "token")),
   .signInResult (.ok sampleUser) MainScreen.sampleNow,
   .main 0 .closeTap false, .main 0 .alertOK false, .main 0 .runBlock false]

/-- After a cancelled attempt, a login and a logout the button is ready again. -/
theorem loginReady_cancelledThenLoggedIn :
    ∃ app, (system .utc).exec (notRunning none) cancelledThenLoggedIn = some app ∧
      AtRest app ∧
      ∀ x ∈ visited ((system .utc).history (notRunning none) cancelledThenLoggedIn) app,
        LoginReady x := by
  have hrun : ((system .utc).exec (notRunning none) cancelledThenLoggedIn).any
      (fun app => AtRest app) = true := by
    decide +kernel
  obtain ⟨app, happ, hq⟩ := (Option.any_eq_true _ _).mp hrun
  refine ⟨app, happ, of_decide_eq_true hq, loginReady_of_run (.of_exec happ) ?_⟩
  intro p hp
  have hmem : p.2 ∈ cancelledThenLoggedIn :=
    map_snd_history happ ▸ List.mem_map_of_mem hp
  simp only [cancelledThenLoggedIn, List.mem_cons, List.not_mem_nil, or_false] at hmem
  rcases hmem with h | h | h | h | h | h | h | h | h <;> rw [h] <;> simp [ForgetsReset]

/-- A run that ends with a dead login screen. -/
def DeadEnd (user : Option FirebaseUser) (as : List Action) : Prop :=
  ∃ app, (system .utc).exec (notRunning user) as = some app ∧ AtRest app ∧ ¬ LoginReady app

/-- A run to a dead end, found by executing it. -/
theorem deadEnd_of_any {user : Option FirebaseUser} {as : List Action}
    (h : ((system .utc).exec (notRunning user) as).any
      (fun app => AtRest app ∧ ¬ LoginReady app) = true) : DeadEnd user as := by
  obtain ⟨app, happ, hq⟩ := (Option.any_eq_true _ _).mp h
  exact ⟨app, happ, of_decide_eq_true hq⟩

/-- **A failed login leaves the login screen stuck**: after a Facebook login without a token,
a Facebook login with an error, a Firebase login with an error, and a launch during which
the session goes. -/
theorem failed_logins_leave_login_stuck :
    DeadEnd none [.launch none, .facebookTap, .facebookResult (.success none),
        .loginAlertOK false] ∧
      DeadEnd none [.launch none, .facebookTap, .facebookResult (.failed "Network error"),
        .loginAlertOK false] ∧
      DeadEnd none [.launch none, .facebookTap, .facebookResult (.success (some "token")),
        .signInResult (.error "Network error") MainScreen.sampleNow, .loginAlertOK false] ∧
      DeadEnd (some sampleUser) [.launch (some none)] := by
  refine ⟨deadEnd_of_any ?_, deadEnd_of_any ?_, deadEnd_of_any ?_, deadEnd_of_any ?_⟩
  all_goals decide +kernel

end App

end FirebaseLogin
