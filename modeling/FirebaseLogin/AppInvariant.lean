import FirebaseLogin.App

/-!
# The Invariant of the App

Nothing in the app counts login attempts. That there is only one at a time rests on the
flags of one button, which several callbacks toggle: `AppInv` ties the button, the
outstanding callbacks, the navigation stack and the alerts together, and is preserved by
every step, whatever happens to the session.

## Main results

* `step_appInv`, `run_appInv`: the invariant of every run.
* `main_step`, `main_reachable`: a main screen of the app takes the steps of
  `MainScreen.system`, so that the results about its reachable states hold in the app.
-/

namespace FirebaseLogin

namespace App

variable {P : Platform} {app app' : App} {a : Action}

/-- The callbacks that are still to come: logins and delayed navigations. -/
def outstanding (app : App) : Nat :=
  app.facebookRequests + app.signInRequests + app.autoNavigations.length

/-- The invariant of the app. -/
structure AppInv (app : App) : Prop where
  /-- At most one login attempt, pending navigation or main screen at a time. -/
  single : app.outstanding + app.stack.length ≤ 1
  /-- During an attempt or a pending navigation the button is disabled. -/
  disabled : app.outstanding ≠ 0 → app.login.facebookButtonEnabled = false
  /-- The main screen on the stack is the one in the window. -/
  window : ∀ (i : Nat) (m : MainScreen), app.mains[i]? = some m →
    (m.inWindow = true ↔ app.stack.head? = some i)
  onStack : ∀ i ∈ app.stack, i < app.mains.length
  sound : ∀ (i : Nat) (m : MainScreen), app.mains[i]? = some m → m.Sound
  /-- The alert of a popped screen keeps the app idle. -/
  mainAlert : ∀ (i : Nat) (m : MainScreen), app.mains[i]? = some m → m.presented ≠ none →
    i ∈ app.stack ∨ (app.outstanding = 0 ∧ app.stack = [])
  /-- The alert of the login screen keeps the app idle. -/
  loginAlert : app.loginAlert ≠ none → app.outstanding = 0 ∧ app.stack = []
  /-- The login screen knows that a main screen was pushed. -/
  appeared : app.stack ≠ [] → app.login.isInitialView = false
  /-- Nothing is left of a process that has ended. -/
  alive : app.running = false → app.mains = [] ∧ app.autoNavigations = []

/-! ### The parts of the app a step touches -/

/-- The main screens after an update of one. -/
theorem getElem?_setMain {i j : Nat} {m n : MainScreen}
    (h : (app.setMain i m).mains[j]? = some n) :
    (j = i ∧ n = m) ∨ (j ≠ i ∧ app.mains[j]? = some n) := by
  simp only [setMain, List.getElem?_set] at h
  split_ifs at h with hij hlt
  · exact Or.inl ⟨hij.symm, (Option.some.inj h).symm⟩
  · exact Or.inr ⟨fun heq => hij heq.symm, h⟩

/-- The main screens after a change of the window. -/
theorem getElem?_refreshWindow {j : Nat} {n : MainScreen}
    (h : app.refreshWindow.mains[j]? = some n) :
    ∃ m, app.mains[j]? = some m ∧ n = { m with inWindow := app.stack.head? == some j } := by
  simp only [refreshWindow, List.getElem?_mapIdx, Option.map_eq_some_iff] at h
  obtain ⟨m, hm, rfl⟩ := h
  exact ⟨m, hm, rfl⟩

/-- The window shows the top screen. -/
theorem window_refreshWindow (i : Nat) (m : MainScreen)
    (h : app.refreshWindow.mains[i]? = some m) :
    m.inWindow = true ↔ app.refreshWindow.stack.head? = some i := by
  obtain ⟨n, -, rfl⟩ := getElem?_refreshWindow h
  exact beq_iff_eq

/-- A main screen after a push is the new one or an old one. -/
theorem getElem?_pushMain {user : User} {now : Date} {j : Nat} {n : MainScreen}
    (h : (app.pushMain user now).mains[j]? = some n) :
    (j = app.mains.length ∧ n = MainScreen.initial (some user) now) ∨
      ∃ m, app.mains[j]? = some m ∧ n = { m with inWindow := false } := by
  obtain ⟨m, hm, rfl⟩ := getElem?_refreshWindow h
  simp only [List.getElem?_append] at hm
  split_ifs at hm with hlt
  · refine Or.inr ⟨m, hm, ?_⟩
    have hne : ¬ app.mains.length = j := by omega
    simp [hne]
  · rw [List.getElem?_singleton] at hm
    split_ifs at hm with hzero
    · have hj : j = app.mains.length := by omega
      subst hj
      obtain rfl := Option.some.inj hm
      exact Or.inl ⟨rfl, by simp [MainScreen.initial]⟩

/-- An alert presented from the login screen changes nothing else. -/
theorem presentAlert_eq (alert : LoginAlert) (app : App) :
    ∃ shown, app.presentAlert alert = { app with loginAlert := shown } := by
  rw [presentAlert]
  split
  · exact ⟨_, rfl⟩
  · exact ⟨app.loginAlert, rfl⟩

/-- The login screen is on top when nothing is pushed onto it. -/
theorem loginOnTop_iff : app.loginOnTop = true ↔ app.running = true ∧ app.stack = [] := by
  simp [loginOnTop]

/-- No alert is shown: neither of the login screen nor of a main screen. -/
theorem alertShown_eq_false_iff :
    app.alertShown = false ↔ app.loginAlert = none ∧
      ∀ (i : Nat) (m : MainScreen), app.mains[i]? = some m → m.presented = none := by
  simp only [alertShown, Bool.or_eq_false_iff, Option.isSome_eq_false_iff,
    Option.isNone_iff_eq_none, List.any_eq_false, Bool.not_eq_true]
  refine and_congr_right fun _ => ⟨fun h i m hm => h m (List.mem_of_getElem? hm), ?_⟩
  intro h m hm
  obtain ⟨i, hi⟩ := List.mem_iff_getElem?.mp hm
  exact h i m hi

/-! ### Consequences of the invariant -/

/-- A pending request to Facebook is an outstanding attempt. -/
theorem outstanding_ne_zero_of_facebook (h : app.facebookRequests ≠ 0) :
    app.outstanding ≠ 0 := by
  simp only [outstanding]
  omega

/-- A pending sign-in is an outstanding attempt. -/
theorem outstanding_ne_zero_of_signIn (h : app.signInRequests ≠ 0) : app.outstanding ≠ 0 := by
  simp only [outstanding]
  omega

/-- A pending automatic navigation is an outstanding attempt. -/
theorem outstanding_ne_zero_of_auto {user : User} {rest : List User}
    (h : app.autoNavigations = user :: rest) : app.outstanding ≠ 0 := by
  simp only [outstanding, h, List.length_cons]
  omega

/-- During an attempt or a pending navigation there is nothing else. -/
theorem AppInv.alone (h : AppInv app) (hout : app.outstanding ≠ 0) :
    app.outstanding = 1 ∧ app.stack = [] ∧ app.loginAlert = none ∧
      ∀ (i : Nat) (m : MainScreen), app.mains[i]? = some m → m.presented = none := by
  have hsingle := h.single
  have hstack : app.stack = [] := List.length_eq_zero_iff.mp (by omega)
  refine ⟨by omega, hstack, ?_, ?_⟩
  · by_contra halert
    exact hout (h.loginAlert halert).1
  · intro i m hm
    by_contra halert
    rcases h.mainAlert i m hm halert with hi | ⟨hzero, -⟩
    · simp [hstack] at hi
    · exact hout hzero

/-- Nothing is outstanding after the callback of the Facebook login. -/
theorem AppInv.facebook_done (h : AppInv app) (hreq : app.facebookRequests ≠ 0) :
    { app with facebookRequests := app.facebookRequests - 1 }.outstanding = 0 := by
  obtain ⟨hone, -⟩ := h.alone (outstanding_ne_zero_of_facebook hreq)
  simp only [outstanding] at hone ⊢
  omega

/-- Nothing is outstanding after the callback of the Firebase login. -/
theorem AppInv.signIn_done (h : AppInv app) (hreq : app.signInRequests ≠ 0) :
    { app with signInRequests := app.signInRequests - 1 }.outstanding = 0 := by
  obtain ⟨hone, -⟩ := h.alone (outstanding_ne_zero_of_signIn hreq)
  simp only [outstanding] at hone ⊢
  omega

/-- Nothing is outstanding after the delayed navigation. -/
theorem AppInv.auto_done (h : AppInv app) {user : User} {rest : List User}
    (hauto : app.autoNavigations = user :: rest) :
    { app with autoNavigations := rest }.outstanding = 0 := by
  obtain ⟨hone, -⟩ := h.alone (outstanding_ne_zero_of_auto hauto)
  simp only [outstanding, hauto, List.length_cons] at hone ⊢
  omega

/-- A main screen on the stack is alone on it, and nothing is outstanding. -/
theorem AppInv.stack_eq (h : AppInv app) {i : Nat} (hi : i ∈ app.stack) :
    app.stack = [i] ∧ app.outstanding = 0 := by
  have hsingle := h.single
  have hpos : 0 < app.stack.length := List.length_pos_of_mem hi
  obtain ⟨j, hj⟩ := List.length_eq_one_iff.mp (show app.stack.length = 1 by omega)
  rw [hj, List.mem_singleton] at hi
  exact ⟨by rw [hj, hi], by omega⟩

/-- Without an outstanding attempt no navigation is pending. -/
theorem autoNavigations_eq_nil (h : app.outstanding = 0) : app.autoNavigations = [] := by
  apply List.length_eq_zero_iff.mp
  simp only [outstanding] at h
  omega

/-- A confirmed logout finds no pending navigation and no other main screen. -/
theorem AppInv.of_confirm (happ : AppInv app) {i : Nat} {m : MainScreen}
    (hm : app.mains[i]? = some m) (hp : m.presented = some .closeSession) :
    app.autoNavigations = [] ∧ ∀ j ∈ app.stack, j = i := by
  rcases happ.mainAlert i m hm (by simp [hp]) with hi | ⟨hout, hstack⟩
  · obtain ⟨hstack, hout⟩ := happ.stack_eq hi
    exact ⟨autoNavigations_eq_nil hout, by simp [hstack]⟩
  · exact ⟨autoNavigations_eq_nil hout, by simp [hstack]⟩

/-- A main screen that is not on the stack has nothing to pop. -/
theorem popViewController_of_not_mem (app : App) {i : Nat} (hi : i ∉ app.stack) :
    app.popViewController i = app :=
  if_neg hi

/-- Popping the main screen on the stack shows the login screen, set up again. -/
theorem AppInv.popViewController_eq (h : AppInv app) {i : Nat} (hi : i ∈ app.stack) :
    app.popViewController i =
      { refreshWindow { app with stack := [] } with
        login := { app.login with
          facebookButtonHidden := false, loaderAnimating := false,
          facebookButtonEnabled := true } } := by
  obtain ⟨hstack, -⟩ := h.stack_eq hi
  have hinitial := h.appeared (List.ne_nil_of_mem hi)
  simp [popViewController, hstack, refreshWindow, LoginViewController.viewWillAppear, hinitial,
    LoginViewController.setupView, LoginViewController.setupDefaultView,
    LoginViewController.stopLoading]

/-! ### The invariant is preserved -/

/-- A process that has pushed no main screen. -/
theorem appInv_fresh (user : Option FirebaseUser) (running : Bool)
    {login : LoginViewController} {autos : List User} (hsingle : autos.length ≤ 1)
    (hdisabled : autos ≠ [] → login.facebookButtonEnabled = false)
    (halive : running = false → autos = []) :
    AppInv { notRunning user with
      running := running, login := login, autoNavigations := autos } where
  single := by simpa [outstanding, notRunning] using hsingle
  disabled := by simpa [outstanding, notRunning] using hdisabled
  window := by simp [notRunning]
  onStack := by simp [notRunning]
  sound := by simp [notRunning]
  mainAlert := by simp [notRunning]
  loginAlert := by simp [notRunning]
  appeared := by simp [notRunning]
  alive hrun := ⟨rfl, halive hrun⟩

/-- A step of the login screen while no main screen is on the stack and no main screen
presents an alert. -/
theorem AppInv.of_login (h : AppInv app) (hrunning : app'.running = true)
    (hmains : app'.mains = app.mains) (hstack : app.stack = []) (hstack' : app'.stack = [])
    (hquiet : ∀ (i : Nat) (m : MainScreen), app.mains[i]? = some m → m.presented = none)
    (hsingle : app'.outstanding ≤ 1)
    (hdisabled : app'.outstanding ≠ 0 → app'.login.facebookButtonEnabled = false)
    (halert : app'.loginAlert ≠ none → app'.outstanding = 0) : AppInv app' where
  single := by simpa [hstack'] using hsingle
  disabled := hdisabled
  window i m hm := by
    rw [hstack', ← hstack]
    exact h.window i m (hmains ▸ hm)
  onStack := by simp [hstack']
  sound i m hm := h.sound i m (hmains ▸ hm)
  mainAlert i m hm hp := absurd (hquiet i m (hmains ▸ hm)) hp
  loginAlert hp := ⟨halert hp, hstack'⟩
  appeared hne := absurd hstack' hne
  alive hrun := absurd hrun (by simp [hrunning])

/-- The end of an attempt that pushes no main screen. -/
theorem AppInv.attempt_ends (h : AppInv app) (hne : app.outstanding ≠ 0)
    (hrunning : app'.running = true) (hmains : app'.mains = app.mains)
    (hstack' : app'.stack = app.stack) (hzero : app'.outstanding = 0) : AppInv app' := by
  obtain ⟨-, hstack, -, hquiet⟩ := h.alone hne
  exact h.of_login hrunning hmains hstack (hstack'.trans hstack) hquiet (by omega)
    (fun hne' => absurd hzero hne') fun _ => hzero

/-- A push on the login screen when nothing else is left. -/
theorem appInv_pushMain (user : User) (now : Date)
    (hsound : ∀ (i : Nat) (m : MainScreen), app.mains[i]? = some m → m.Sound)
    (hquiet : ∀ (i : Nat) (m : MainScreen), app.mains[i]? = some m → m.presented = none)
    (hstack : app.stack = []) (hout : app.outstanding = 0) (halert : app.loginAlert = none)
    (happeared : app.login.isInitialView = false) (hrunning : app.running = true) :
    AppInv (app.pushMain user now) where
  single := by
    have hout' : (app.pushMain user now).outstanding = 0 := hout
    have hlength : (app.pushMain user now).stack.length = 1 := by
      simp [pushMain, refreshWindow, hstack]
    omega
  disabled hne := absurd hout hne
  window := window_refreshWindow
  onStack := by simp [pushMain, refreshWindow, hstack]
  sound j n hn := by
    rcases getElem?_pushMain hn with ⟨-, rfl⟩ | ⟨m, hm, rfl⟩
    · exact MainScreen.sound_initial _ _
    · exact ⟨(hsound j m hm).errors, (hsound j m hm).timers⟩
  mainAlert j n hn hp := by
    rcases getElem?_pushMain hn with ⟨-, rfl⟩ | ⟨m, hm, rfl⟩
    · exact absurd rfl hp
    · exact absurd (hquiet j m hm) hp
  loginAlert hp := absurd halert hp
  appeared _ := happeared
  alive hrun := absurd (hrunning.symm.trans hrun) (by simp)

/-- A step of one main screen that leaves the window as it is. -/
theorem AppInv.setMain {i : Nat} {m m' : MainScreen} (h : AppInv app)
    (hm : app.mains[i]? = some m) (hsound : m'.Sound) (hwindow : m'.inWindow = m.inWindow)
    (hpresented : m'.presented ≠ none → m.presented ≠ none ∨ m.inWindow = true) :
    AppInv (app.setMain i m') where
  single := h.single
  disabled := h.disabled
  window j n hn := by
    rcases getElem?_setMain hn with ⟨rfl, rfl⟩ | ⟨-, hn⟩
    · rw [hwindow]
      exact h.window j m hm
    · exact h.window j n hn
  onStack j hj := by
    have hlt := h.onStack j hj
    simpa [App.setMain] using hlt
  sound j n hn := by
    rcases getElem?_setMain hn with ⟨rfl, rfl⟩ | ⟨-, hn⟩
    · exact hsound
    · exact h.sound j n hn
  mainAlert j n hn hp := by
    rcases getElem?_setMain hn with ⟨rfl, rfl⟩ | ⟨-, hn⟩
    · rcases hpresented hp with hold | hwin
      · exact h.mainAlert j m hm hold
      · exact Or.inl (List.mem_of_mem_head? ((h.window j m hm).mp hwin))
    · exact h.mainAlert j n hn hp
  loginAlert := h.loginAlert
  appeared := h.appeared
  alive hrun := by
    obtain ⟨hnil, hauto⟩ := h.alive hrun
    simp [hnil] at hm

/-- A main screen takes a block from its queue. -/
theorem AppInv.dequeue {i : Nat} {m : MainScreen} {queue : List Block} (h : AppInv app)
    (hm : app.mains[i]? = some m) :
    AppInv (app.setMain i { m with mainQueue := queue }) := by
  obtain ⟨herrors, htimers⟩ := h.sound i m hm
  exact h.setMain hm ⟨herrors, htimers⟩ rfl Or.inl

/-- The sign-out concerns the session only. -/
theorem AppInv.signOut (h : AppInv app) (throws : Bool) : AppInv (app.signOut throws) :=
  ⟨h.single, h.disabled, h.window, h.onStack, h.sound, h.mainAlert, h.loginAlert, h.appeared,
    h.alive⟩

/-- A queued pop, of a main screen on the stack or of one that is gone. -/
theorem AppInv.popViewController (h : AppInv app) (i : Nat) :
    AppInv (app.popViewController i) := by
  by_cases hi : i ∈ app.stack
  · obtain ⟨-, hout⟩ := h.stack_eq hi
    rw [h.popViewController_eq hi]
    refine ⟨?_, fun hne => absurd hout hne, window_refreshWindow, ?_, ?_, ?_, ?_, ?_, ?_⟩
    · have hsingle : app.outstanding + ([] : List Nat).length ≤ 1 := by simp [hout]
      exact hsingle
    · simp [refreshWindow]
    · intro j n hn
      obtain ⟨m, hm, rfl⟩ := getElem?_refreshWindow hn
      exact ⟨(h.sound j m hm).errors, (h.sound j m hm).timers⟩
    · intro _ _ _ _
      exact Or.inr ⟨hout, rfl⟩
    · intro _
      exact ⟨hout, rfl⟩
    · intro hne
      exact absurd rfl hne
    · intro hrun
      obtain ⟨hnil, hauto⟩ := h.alive hrun
      exact ⟨by simp [refreshWindow, hnil], hauto⟩
  · rwa [popViewController_of_not_mem app hi]

/-- **Every step preserves the invariant.** -/
theorem step_appInv (h : AppInv app) (hstep : step P app a = some app') : AppInv app' := by
  cases StepTo.of_step h.sound hstep with
  | launchIdle | launchGone | terminate =>
      exact appInv_fresh _ _ (Nat.zero_le 1) (fun hne => absurd rfl hne) fun _ => rfl
  | launchActive => exact appInv_fresh _ _ (Nat.le_refl 1) (fun _ => rfl) (by simp)
  | sessionChange =>
      exact ⟨h.single, h.disabled, h.window, h.onStack, h.sound, h.mainAlert, h.loginAlert,
        h.appeared, h.alive⟩
  | facebookTap htop halert henabled _ =>
      obtain ⟨hrun, hstack⟩ := loginOnTop_iff.mp htop
      have hzero : app.outstanding = 0 := by
        by_contra hne
        rw [h.disabled hne] at henabled
        cases henabled
      obtain ⟨hlogin, hquiet⟩ := alertShown_eq_false_iff.mp halert
      refine h.of_login hrun rfl hstack hstack hquiet ?_ (fun _ => rfl)
        fun hne => absurd hlogin hne
      simp only [outstanding] at hzero ⊢
      omega
  | facebookToken hrun hreq =>
      have hne := outstanding_ne_zero_of_facebook hreq
      obtain ⟨hone, hstack, hlogin, hquiet⟩ := h.alone hne
      refine h.of_login hrun rfl hstack hstack hquiet ?_ (fun _ => h.disabled hne)
        fun hp => absurd hlogin hp
      simp only [outstanding] at hone ⊢
      omega
  | facebookNoToken hrun hreq | facebookFailed hrun hreq =>
      have hne := outstanding_ne_zero_of_facebook hreq
      rw [(presentAlert_eq _ _).choose_spec]
      exact h.attempt_ends hne hrun rfl rfl (h.facebook_done hreq)
  | facebookCancelled hrun hreq =>
      have hne := outstanding_ne_zero_of_facebook hreq
      exact h.attempt_ends hne hrun rfl rfl (h.facebook_done hreq)
  | signInOk hrun hreq =>
      obtain ⟨-, hstack, hlogin, hquiet⟩ := h.alone (outstanding_ne_zero_of_signIn hreq)
      exact appInv_pushMain _ _ h.sound hquiet hstack (h.signIn_done hreq) hlogin rfl hrun
  | signInError hrun hreq =>
      have hne := outstanding_ne_zero_of_signIn hreq
      rw [(presentAlert_eq _ _).choose_spec]
      exact h.attempt_ends hne hrun rfl rfl (h.signIn_done hreq)
  | autoNavigation hauto =>
      obtain ⟨-, hstack, hlogin, hquiet⟩ := h.alone (outstanding_ne_zero_of_auto hauto)
      have hrun : app.running = true := by
        by_contra hdead
        rw [(h.alive (by simpa using hdead)).2] at hauto
        cases hauto
      exact appInv_pushMain _ _ h.sound hquiet hstack (h.auto_done hauto) hlogin rfl hrun
  | loginAlertOK _ =>
      exact ⟨h.single, h.disabled, h.window, h.onStack, h.sound, h.mainAlert,
        fun hp => absurd rfl hp, h.appeared, h.alive⟩
  | main hm _ _ hframe => exact h.setMain hm hframe.sound hframe.inWindow hframe.presented
  | confirm hm hp =>
      have hm' := h.sound _ _ hm
      apply AppInv.signOut
      exact h.setMain hm ⟨hm'.errors, hm'.timers⟩ rfl fun hne => absurd rfl hne
  | pop hm _ => exact (h.dequeue hm).popViewController _

/-- **The invariant holds along every run**, whatever happens to the session. -/
theorem run_appInv {user : Option FirebaseUser} {h : List (App × Action)}
    (r : (system P).Run (notRunning user) h app) : AppInv app :=
  r.invariant_of_step
    (appInv_fresh user false (Nat.zero_le 1) (fun hne => absurd rfl hne) fun _ => rfl)
    fun _ _ _ ht hstep => step_appInv ht hstep

/-! ### The main screens of the app -/

/-- A screen outside the window does not notice that it is outside. -/
theorem set_inWindow_false {m : MainScreen} (h : m.inWindow = false) :
    { m with inWindow := false } = m := by
  rw [← h]

/-- Without a main screen on the stack, none is in the window. -/
theorem AppInv.inWindow_eq_false (h : AppInv app) {i : Nat} {m : MainScreen}
    (hm : app.mains[i]? = some m) (hi : i ∉ app.stack) : m.inWindow = false := by
  rw [← Bool.not_eq_true, h.window i m hm]
  intro hhead
  exact hi (List.mem_of_mem_head? hhead)

/-- An old main screen after a push. -/
theorem main_of_push (h : AppInv app) (hstack : app.stack = []) {app₀ : App} {user : User}
    {now : Date} {i : Nat} {m' : MainScreen} (hmains : app₀.mains = app.mains)
    (hm' : (app₀.pushMain user now).mains[i]? = some m') :
    m' = MainScreen.initial (some user) now ∨ app.mains[i]? = some m' := by
  rcases getElem?_pushMain hm' with ⟨-, rfl⟩ | ⟨m, hm, rfl⟩
  · exact Or.inl rfl
  · rw [hmains] at hm
    rw [set_inWindow_false (h.inWindow_eq_false hm (by simp [hstack]))]
    exact Or.inr hm

/-- **A main screen of the app takes the steps of `MainScreen.system`.** -/
theorem main_step (h : AppInv app) (hstep : step P app a = some app') {i : Nat}
    {m' : MainScreen} (hm' : app'.mains[i]? = some m') :
    (∃ user now, m' = MainScreen.initial user now) ∨
      ∃ m, app.mains[i]? = some m ∧ (m' = m ∨ ∃ b, MainScreen.step P m b = some m') := by
  have hsame : app.mains[i]? = some m' → (∃ user now, m' = MainScreen.initial user now) ∨
      ∃ m, app.mains[i]? = some m ∧ (m' = m ∨ ∃ b, MainScreen.step P m b = some m') :=
    fun hm => Or.inr ⟨m', hm, Or.inl rfl⟩
  cases StepTo.of_step h.sound hstep with
  | launchIdle | launchActive | launchGone | terminate => simp [notRunning] at hm'
  | sessionChange | facebookTap | facebookToken | facebookCancelled | loginAlertOK =>
      exact hsame hm'
  | facebookNoToken | facebookFailed | signInError =>
      rw [(presentAlert_eq _ _).choose_spec] at hm'
      exact hsame hm'
  | signInOk _ hreq =>
      obtain ⟨-, hstack, -⟩ := h.alone (outstanding_ne_zero_of_signIn hreq)
      rcases main_of_push h hstack rfl hm' with rfl | hm
      · exact Or.inl ⟨_, _, rfl⟩
      · exact hsame hm
  | autoNavigation hauto =>
      obtain ⟨-, hstack, -⟩ := h.alone (outstanding_ne_zero_of_auto hauto)
      rcases main_of_push h hstack rfl hm' with rfl | hm
      · exact Or.inl ⟨_, _, rfl⟩
      · exact hsame hm
  | main hm _ hmain _ =>
      rcases getElem?_setMain hm' with ⟨rfl, rfl⟩ | ⟨-, hother⟩
      · exact Or.inr ⟨_, hm, Or.inr ⟨_, hmain⟩⟩
      · exact hsame hother
  | @confirm k throws m hm hp =>
      have hset : (app.setMain k _).mains[i]? = some m' := hm'
      rcases getElem?_setMain hset with ⟨rfl, rfl⟩ | ⟨-, hother⟩
      · refine Or.inr ⟨_, hm, Or.inr ⟨.alertOK, ?_⟩⟩
        simp [MainScreen.step, MainScreen.handle, hp, MainScreen.turn,
          MainViewController.confirmLogOut, Turn.request, MainScreen.performAll,
          MainScreen.perform]
      · exact hsame hother
  | @pop k throws m queue hm hq =>
      have hpop : MainScreen.step P m .runBlock =
          some { m with mainQueue := queue, inWindow := false } := by
        simp [MainScreen.step, MainScreen.handle, hq, MainScreen.execute,
          MainScreen.performAll, MainScreen.perform]
      by_cases hk : k ∈ app.stack
      · -- the screen was in the window: it leaves it, and the others stay outside
        rw [(h.dequeue hm).popViewController_eq hk] at hm'
        obtain ⟨n, hn, rfl⟩ := getElem?_refreshWindow hm'
        rcases getElem?_setMain hn with ⟨rfl, rfl⟩ | ⟨hik, hn⟩
        · exact Or.inr ⟨m, hm, Or.inr ⟨.runBlock, hpop⟩⟩
        · obtain ⟨hstack, -⟩ := h.stack_eq hk
          have hout := h.inWindow_eq_false hn (by simpa [hstack] using hik)
          exact Or.inr ⟨n, hn, Or.inl (set_inWindow_false hout)⟩
      · -- the screen was popped before: it has no navigation controller
        rw [popViewController_of_not_mem (app.setMain k _) hk] at hm'
        rcases getElem?_setMain hm' with ⟨rfl, rfl⟩ | ⟨-, hother⟩
        · refine Or.inr ⟨m, hm, Or.inr ⟨.runBlock, ?_⟩⟩
          rw [hpop, ← h.inWindow_eq_false hm hk]
        · exact hsame hother

/-- Every main screen of a reachable app is a reachable main screen. -/
theorem main_reachable (happ : (system P).Reachable app) {i : Nat} {m : MainScreen}
    (hm : app.mains[i]? = some m) : (MainScreen.system P).Reachable m := by
  have hinv := happ.invariant (I := fun app => AppInv app ∧
      ∀ (i : Nat) (m : MainScreen), app.mains[i]? = some m →
        (MainScreen.system P).Reachable m) ?_ ?_
  · exact hinv.2 i m hm
  · rintro _ ⟨user, rfl⟩
    exact ⟨run_appInv (.nil (T := system P) _), by simp [notRunning]⟩
  · rintro app a app' ⟨h, hall⟩ hstep
    refine ⟨step_appInv h hstep, ?_⟩
    intro j n hn
    rcases main_step h hstep hn with ⟨user, now, rfl⟩ | ⟨m, hm, rfl | ⟨b, hb⟩⟩
    · exact ⟨_, [], ⟨user, now, rfl⟩, .nil _⟩
    · exact hall j n hm
    · exact (hall j m hm).trans (.single hb)

end App

end FirebaseLogin
