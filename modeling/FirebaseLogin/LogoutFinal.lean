import FirebaseLogin.AppInvariant

/-!
# Logging Out for Good

A confirmed logout signs out of Firebase and returns to the login screen. The error of a
sign-out that throws is caught and printed: the session stays, which shows at the next
launch, when the user of the session is taken to the main screen.

The session survives the process, so the results are about runs across any number of
terminations and relaunches.

## Main results

* `step_loggedOut`: without a session and a pending navigation, no step but a sign-in leads
  to the main screen.
* `staysLoggedOut_iff`: **a confirmed logout is final if and only if its sign-out does not
  throw**, or there is no session to sign out of.
* `relaunch_after_failed_signOut`: the run in which the main screen comes back.
-/

namespace FirebaseLogin

namespace App

open TransitionSystem

variable {P : Platform} {app app' : App} {a : Action}

/-- The steps that sign a user in: a successful login, or a session from outside of the
app. -/
def Action.signsIn : Action → Bool
  | .signInResult (.ok _) _ => true
  | .sessionChange (some _) => true
  | .launch (some (some _)) => true
  | _ => false

/-- Nobody is signed in, and nobody is on the way to the main screen. -/
structure LoggedOut (app : App) : Prop where
  inv : AppInv app
  session : app.currentUser = none
  idle : app.autoNavigations = []

/-- Popping changes neither the session nor the pending navigations. -/
theorem popViewController_frame (i : Nat) (app : App) :
    (app.popViewController i).currentUser = app.currentUser ∧
      (app.popViewController i).autoNavigations = app.autoNavigations ∧
      (app.stack = [] → (app.popViewController i).stack = []) := by
  by_cases hi : i ∈ app.stack
  · have hne : app.stack ≠ [] := List.ne_nil_of_mem hi
    by_cases htail : app.stack.tail = []
    · simp [popViewController, hi, refreshWindow, htail, hne]
    · simp [popViewController, hi, refreshWindow, htail, hne]
  · rw [popViewController_of_not_mem app hi]
    exact ⟨rfl, rfl, id⟩

/-- **One step stays logged out**, unless it signs in; and it pushes no main screen. -/
theorem step_loggedOut (h : LoggedOut app) (hstep : step P app a = some app')
    (ha : a.signsIn = false) : LoggedOut app' ∧ (app.stack = [] → app'.stack = []) := by
  have hinv := step_appInv h.inv hstep
  cases StepTo.of_step h.inv.sound hstep with
  | @launchIdle between _ _ =>
      have hnone : between.getD none = none := by
        cases between with
        | none => rfl
        | some second =>
            cases second with
            | none => rfl
            | some user => simp [Action.signsIn] at ha
      exact ⟨⟨hinv, hnone, rfl⟩, fun _ => rfl⟩
  | launchActive _ hne | launchGone _ hne => exact absurd h.session hne
  | terminate => exact ⟨⟨hinv, h.session, rfl⟩, fun _ => rfl⟩
  | @sessionChange user =>
      cases user with
      | none => exact ⟨⟨hinv, rfl, h.idle⟩, id⟩
      | some user => simp [Action.signsIn] at ha
  | facebookTap | facebookToken | facebookCancelled => exact ⟨⟨hinv, h.session, h.idle⟩, id⟩
  | facebookNoToken | facebookFailed | signInError =>
      rw [(presentAlert_eq _ _).choose_spec] at hinv ⊢
      exact ⟨⟨hinv, h.session, h.idle⟩, id⟩
  | signInOk => simp [Action.signsIn] at ha
  | autoNavigation hauto =>
      rw [h.idle] at hauto
      cases hauto
  | loginAlertOK => exact ⟨⟨hinv, by simp [h.session], h.idle⟩, id⟩
  | main => exact ⟨⟨hinv, h.session, h.idle⟩, id⟩
  | confirm => exact ⟨⟨hinv, by simp [signOut, setMain, h.session], h.idle⟩, id⟩
  | @pop i throws m queue =>
      obtain ⟨huser, hauto, hstack⟩ :=
        popViewController_frame i (app.setMain i { m with mainQueue := queue })
      exact ⟨⟨hinv, huser.trans h.session, hauto.trans h.idle⟩, hstack⟩

/-- A run without a sign-in stays logged out, and stays on the login screen once it is
there. -/
theorem run_loggedOut {h : List (App × Action)} (r : (system P).Run app h app')
    (happ : LoggedOut app) (hh : ∀ p ∈ h, p.2.signsIn = false) :
    LoggedOut app' ∧ (app.stack = [] → app'.stack = []) := by
  refine r.invariant (C := fun _ a => a.signsIn = false)
    (I := fun x => LoggedOut x ∧ (app.stack = [] → x.stack = [])) hh ⟨happ, id⟩ ?_
  rintro t a u ha ⟨ht, hstack⟩ hstep
  obtain ⟨hu, hkeep⟩ := step_loggedOut ht hstep ha
  exact ⟨hu, fun hnil => hkeep (hstack hnil)⟩

/-- Once the login screen is back on top, no main screen is shown without a sign-in, in
this process or after a relaunch. -/
def StaysLoggedOut (P : Platform) (app : App) : Prop :=
  ∀ h₁ u h₂ v, (system P).Run app h₁ u → u.loginOnTop = true → (system P).Run u h₂ v →
    (∀ p ∈ h₁ ++ h₂, p.2.signsIn = false) → v.stack = []

/-- An app that is logged out stays so. -/
theorem LoggedOut.stays (h : LoggedOut app) : StaysLoggedOut P app := by
  intro h₁ u h₂ v r₁ htop r₂ hno
  obtain ⟨hu, -⟩ := run_loggedOut r₁ h fun p hp => hno p (List.mem_append_left _ hp)
  obtain ⟨-, hkeep⟩ := run_loggedOut r₂ hu fun p hp => hno p (List.mem_append_right _ hp)
  exact hkeep (loginOnTop_iff.mp htop).2

/-- With a session, a relaunch shows the main screen. -/
theorem not_staysLoggedOut_of_session {user : FirebaseUser} (hrunning : app.running = true)
    (huser : app.currentUser = some user) : ¬ StaysLoggedOut P app := by
  intro hstays
  have hterminate : (system P).step app .terminate = some (notRunning (some user)) := by
    simp [system, step, hrunning, huser]
  have hlaunch : (system P).step (notRunning (some user)) (.launch none) =
      some { notRunning (some user) with
        running := true, login := ⟨true, true, false, true⟩,
        autoNavigations := [user.toUser] } := by
    have heq := launch_eq none (notRunning (some user))
    exact congrArg some heq
  obtain ⟨v, hv, hne⟩ : ∃ v, (system P).step { notRunning (some user) with
      running := true, login := ⟨true, true, false, true⟩,
      autoNavigations := [user.toUser] } (.autoNavigation 0) = some v ∧ v.stack ≠ [] := by
    refine ⟨_, rfl, ?_⟩
    exact List.cons_ne_nil _ _
  refine hne (hstays _ _ _ v (.snoc (.single hterminate) hlaunch) rfl (.single hv) ?_)
  simp [Action.signsIn]

/-- **A confirmed logout is final if and only if its sign-out does not throw**, or there is
no session to sign out of. In any run, and from the confirmation on over all runs. -/
theorem staysLoggedOut_iff {user : Option FirebaseUser} {h : List (App × Action)}
    (r : (system P).Run (notRunning user) h app) {i : Nat} {m : MainScreen} {throws : Bool}
    (hm : app.mains[i]? = some m) (hp : m.presented = some .closeSession)
    (hconfirm : step P app (.main i .alertOK throws) = some app') :
    StaysLoggedOut P app' ↔ throws = false ∨ app.currentUser = none := by
  have happ := run_appInv r
  have happ' := step_appInv happ hconfirm
  have hrunning : app.running = true := by
    by_contra hdead
    rw [(happ.alive (by simpa using hdead)).1] at hm
    cases hm
  cases StepTo.of_step happ.sound hconfirm with
  | main hm' hne =>
      obtain rfl := Option.some.inj (hm.symm.trans hm')
      exact absurd hp (hne rfl)
  | confirm hm' _ =>
      cases huser : app.currentUser with
      | none =>
          have hout : LoggedOut _ := ⟨happ', by simp [signOut, setMain, huser],
            (happ.of_confirm hm hp).1⟩
          exact ⟨fun _ => Or.inr rfl, fun _ => hout.stays⟩
      | some fu =>
          cases throws with
          | false =>
              have hout : LoggedOut _ := ⟨happ', rfl, (happ.of_confirm hm hp).1⟩
              exact ⟨fun _ => Or.inl rfl, fun _ => hout.stays⟩
          | true =>
              refine ⟨fun hstays => absurd hstays ?_, by simp⟩
              exact not_staysLoggedOut_of_session hrunning huser

/-- A login up to the question whether to log out. -/
def askedToLogOut : List Action :=
  [.launch none, .facebookTap, .facebookResult (.success (some "token")),
   .signInResult (.ok sampleUser) MainScreen.sampleNow, .main 0 .closeTap false]

/-- A logout whose sign-out succeeds is final. -/
theorem staysLoggedOut_after_signOut :
    ∃ app app', (system .utc).exec (notRunning none) askedToLogOut = some app ∧
      step .utc app (.main 0 .alertOK false) = some app' ∧ StaysLoggedOut .utc app' := by
  have hrun : ((system .utc).exec (notRunning none) askedToLogOut).any (fun app =>
      (app.mains[0]?.any fun m => m.presented = some .closeSession) ∧
        (step .utc app (.main 0 .alertOK false)).isSome) = true := by decide +kernel
  obtain ⟨app, happ, hq⟩ := (Option.any_eq_true _ _).mp hrun
  obtain ⟨hmain, hstep⟩ := of_decide_eq_true hq
  obtain ⟨m, hm, hp⟩ := (Option.any_eq_true _ _).mp hmain
  obtain ⟨app', happ'⟩ := Option.isSome_iff_exists.mp hstep
  refine ⟨app, app', happ, happ', ?_⟩
  exact (staysLoggedOut_iff (.of_exec happ) hm (of_decide_eq_true hp) happ').mpr (Or.inl rfl)

/-- **The main screen comes back after a relaunch.** The sign-out of a confirmed logout
throws; the user is back on the login screen, ends the app and starts it again, and is
taken to the main screen without a login. -/
theorem relaunch_after_failed_signOut :
    ∃ u v, (system .utc).exec (notRunning none) (askedToLogOut ++
        [.main 0 .alertOK true, .main 0 .runBlock false]) = some u ∧ u.loginOnTop = true ∧
      (system .utc).exec u [.terminate, .launch none, .autoNavigation MainScreen.sampleNow] =
        some v ∧ v.stack = [0] := by
  have hrun : ((system .utc).exec (notRunning none) (askedToLogOut ++
      [.main 0 .alertOK true, .main 0 .runBlock false])).any (fun u => u.loginOnTop = true ∧
        ((system .utc).exec u [.terminate, .launch none,
          .autoNavigation MainScreen.sampleNow]).any (fun v => v.stack = [0])) = true := by
    decide +kernel
  obtain ⟨u, hu, hq⟩ := (Option.any_eq_true _ _).mp hrun
  obtain ⟨htop, hrelaunch⟩ := of_decide_eq_true hq
  obtain ⟨v, hv, hstack⟩ := (Option.any_eq_true _ _).mp hrelaunch
  exact ⟨u, v, hu, htop, hv, of_decide_eq_true hstack⟩

end App

end FirebaseLogin
