import FirebaseLogin.AppInvariant

/-!
# Navigation and Session

Three events push a main screen and one pops it, the pop in a block queued after the
sign-out; the session is set by the Firebase login and cleared by the sign-out. In a run in
which only the app changes the session and no sign-out throws, `SessionInv` says in which
states who is signed in: nobody on the login screen, the user of the pending navigation,
the user of the main screen, and nobody any more while its pop is queued.

## Main results

* `step_sessionInv`: what one step preserves.
* `navigation_agrees_with_session`: **at most one attempt, pending navigation or main screen
  exists at a time, and with nothing outstanding or queued the main screen is on the stack
  if and only if a user is signed in, who is its user.**
-/

namespace FirebaseLogin

namespace App

open TransitionSystem

variable {P : Platform} {app app' : App} {a : Action}

/-- Only the app changes the session, and no sign-out throws. -/
def Action.ownSession : Action → Bool
  | .sessionChange _ => false
  | .launch between => between.isNone
  | .loginAlertOK throws => !throws
  | .main _ _ throws => !throws
  | _ => true

/-- Who is signed in. -/
structure SessionInv (app : App) : Prop where
  /-- Nobody, on the login screen. -/
  signedOut : app.running = true → app.stack = [] → app.autoNavigations = [] →
    app.currentUser = none
  /-- The user whose navigation is pending. -/
  navigating : ∀ u ∈ app.autoNavigations, ∃ user, app.currentUser = some user ∧
    u = user.toUser
  /-- The user of the main screen. -/
  signedIn : ∀ (i : Nat) (m : MainScreen), i ∈ app.stack → app.mains[i]? = some m →
    Block.popViewController ∉ m.mainQueue →
    ∃ user, app.currentUser = some user ∧ m.vc.userId = some user.uid
  /-- Nobody, while the main screen waits for its pop. -/
  leaving : ∀ (i : Nat) (m : MainScreen), i ∈ app.stack → app.mains[i]? = some m →
    Block.popViewController ∈ m.mainQueue → app.currentUser = none

/-- A step of the login screen that leaves session, navigations and stack alone. -/
theorem SessionInv.of_eq (h : SessionInv app) (hrunning : app'.running = app.running)
    (huser : app'.currentUser = app.currentUser)
    (hauto : app'.autoNavigations = app.autoNavigations) (hmains : app'.mains = app.mains)
    (hstack : app'.stack = app.stack) : SessionInv app' := by
  refine ⟨?_, ?_, ?_, ?_⟩
  · rw [hrunning, huser, hauto, hstack]
    exact h.signedOut
  · rw [huser, hauto]
    exact h.navigating
  · rw [huser, hmains, hstack]
    exact h.signedIn
  · rw [huser, hmains, hstack]
    exact h.leaving

/-- A step after which nobody is signed in, no navigation is pending and every main screen
on the stack waits for its pop. -/
theorem sessionInv_of_none (huser : app.currentUser = none) (hauto : app.autoNavigations = [])
    (hleaving : ∀ (i : Nat) (m : MainScreen), i ∈ app.stack → app.mains[i]? = some m →
      Block.popViewController ∈ m.mainQueue) : SessionInv app where
  signedOut _ _ _ := huser
  navigating := by simp [hauto]
  signedIn i m hi hm hq := absurd (hleaving i m hi hm) hq
  leaving _ _ _ _ _ := huser

/-- A push on the empty stack for the user who is signed in. -/
theorem sessionInv_pushMain {user : FirebaseUser} (now : Date) (hstack : app.stack = [])
    (huser : app.currentUser = some user) (hauto : app.autoNavigations = []) :
    SessionInv (app.pushMain user.toUser now) := by
  have hstack' : (app.pushMain user.toUser now).stack = [app.mains.length] := by
    simp [pushMain, refreshWindow, hstack]
  -- the screen on the stack is the new one
  have hnew : ∀ (i : Nat) (m : MainScreen), i ∈ (app.pushMain user.toUser now).stack →
      (app.pushMain user.toUser now).mains[i]? = some m →
      m = MainScreen.initial (some user.toUser) now := by
    intro i m hi hm
    rw [hstack', List.mem_singleton] at hi
    rcases getElem?_pushMain hm with ⟨-, rfl⟩ | ⟨n, hn, -⟩
    · rfl
    · have := (List.getElem?_eq_some_iff.mp hn).1
      omega
  refine ⟨?_, ?_, ?_, ?_⟩
  · intro _ hnil _
    rw [hstack'] at hnil
    cases hnil
  · have hauto' : (app.pushMain user.toUser now).autoNavigations = [] := hauto
    simp [hauto']
  · intro i m hi hm _
    rw [hnew i m hi hm]
    exact ⟨user, huser, rfl⟩
  · intro i m hi hm hq
    rw [hnew i m hi hm] at hq
    simp [MainScreen.initial] at hq

/-- A step of one main screen which, when it is on the stack, keeps its user and its
pops. -/
theorem SessionInv.setMain {i : Nat} {m m' : MainScreen} (h : SessionInv app)
    (hm : app.mains[i]? = some m)
    (hsame : i ∈ app.stack → m'.vc.userLogged = m.vc.userLogged ∧
      (Block.popViewController ∈ m'.mainQueue ↔ Block.popViewController ∈ m.mainQueue)) :
    SessionInv (app.setMain i m') where
  signedOut := h.signedOut
  navigating := h.navigating
  signedIn j n hj hn hq := by
    rcases getElem?_setMain hn with ⟨rfl, rfl⟩ | ⟨-, hn⟩
    · obtain ⟨huser, hpops⟩ := hsame hj
      obtain ⟨user, hcurrent, hid⟩ := h.signedIn j m hj hm fun hold => hq (hpops.mpr hold)
      refine ⟨user, hcurrent, ?_⟩
      rw [MainViewController.userId, huser]
      exact hid
    · exact h.signedIn j n hj hn hq
  leaving j n hj hn hq := by
    rcases getElem?_setMain hn with ⟨rfl, rfl⟩ | ⟨-, hn⟩
    · exact h.leaving j m hj hm ((hsame hj).2.mp hq)
    · exact h.leaving j n hj hn hq

/-- **One step keeps navigation and session together**, when the app alone changes the
session and its sign-out does not throw. -/
theorem step_sessionInv (happ : AppInv app) (h : SessionInv app)
    (hstep : step P app a = some app') (hown : a.ownSession = true) : SessionInv app' := by
  cases StepTo.of_step happ.sound hstep with
  | @launchIdle between _ _ =>
      obtain rfl : between = none := by simpa [Action.ownSession] using hown
      exact sessionInv_of_none rfl rfl (by simp [notRunning])
  | launchActive =>
      refine ⟨fun _ _ hnil => absurd hnil (List.cons_ne_nil _ _), ?_, ?_, ?_⟩
      · intro u hu
        exact ⟨_, rfl, List.mem_singleton.mp hu⟩
      · simp [notRunning]
      · simp [notRunning]
  | launchGone _ _ hgone => simp [Action.ownSession, hgone] at hown
  | terminate =>
      refine ⟨?_, ?_, ?_, ?_⟩
      · intro hrun
        cases hrun
      · simp [notRunning]
      · simp [notRunning]
      · simp [notRunning]
  | sessionChange => simp [Action.ownSession] at hown
  | facebookTap | facebookToken | facebookCancelled => exact h.of_eq rfl rfl rfl rfl rfl
  | facebookNoToken | facebookFailed | signInError =>
      rw [(presentAlert_eq _ _).choose_spec]
      exact h.of_eq rfl rfl rfl rfl rfl
  | signInOk _ hreq =>
      obtain ⟨-, hstack, -⟩ := happ.alone (outstanding_ne_zero_of_signIn hreq)
      have hauto := autoNavigations_eq_nil (happ.signIn_done hreq)
      exact sessionInv_pushMain _ hstack rfl hauto
  | @autoNavigation u rest now hauto =>
      obtain ⟨-, hstack, -⟩ := happ.alone (outstanding_ne_zero_of_auto hauto)
      have hrest := autoNavigations_eq_nil (happ.auto_done hauto)
      obtain ⟨user, huser, rfl⟩ := h.navigating u (by rw [hauto]; exact List.mem_cons_self)
      exact sessionInv_pushMain _ hstack huser hrest
  | loginAlertOK halert =>
      obtain ⟨hout, hstack⟩ := happ.loginAlert (by simp [halert])
      have hauto := autoNavigations_eq_nil hout
      refine ⟨?_, by simp [hauto], by simp [hstack], by simp [hstack]⟩
      intro hrun _ _
      simp [h.signedOut hrun hstack hauto]
  | main hm _ _ hframe => exact h.setMain hm fun _ => ⟨hframe.userLogged, hframe.pops⟩
  | @confirm i throws m hm hp =>
      obtain rfl : throws = false := by simpa [Action.ownSession] using hown
      obtain ⟨hauto, honly⟩ := happ.of_confirm hm hp
      refine sessionInv_of_none rfl hauto ?_
      intro j n hj hn
      rcases getElem?_setMain hn with ⟨-, rfl⟩ | ⟨hne, -⟩
      · exact List.mem_append_right _ (List.mem_singleton.mpr rfl)
      · exact absurd (honly j hj) hne
  | @pop i throws m queue hm hq =>
      by_cases hi : i ∈ app.stack
      · have huser := h.leaving i m hi hm (by rw [hq]; exact List.mem_cons_self)
        rw [(happ.dequeue hm).popViewController_eq hi]
        exact sessionInv_of_none huser (autoNavigations_eq_nil (happ.stack_eq hi).2)
          fun j _ hj _ => absurd hj List.not_mem_nil
      · rw [popViewController_of_not_mem (app.setMain i _) hi]
        exact h.setMain hm fun hmem => absurd hmem hi

/-- The session invariant along a run. -/
theorem run_sessionInv {user : Option FirebaseUser} {h : List (App × Action)}
    (r : (system P).Run (notRunning user) h app) (hown : ∀ p ∈ h, p.2.ownSession = true) :
    AppInv app ∧ SessionInv app := by
  refine r.invariant (C := fun _ a => a.ownSession = true)
    (I := fun app => AppInv app ∧ SessionInv app) hown ?_ ?_
  · refine ⟨run_appInv (.nil (T := system P) _), ?_, ?_, ?_, ?_⟩
    · intro hrun
      cases hrun
    · simp [notRunning]
    · simp [notRunning]
    · simp [notRunning]
  · rintro t a u ha ⟨happ, hsession⟩ hstep
    exact ⟨step_appInv happ hstep, step_sessionInv happ hsession hstep ha⟩

/-! ### Agreement -/

/-- Nothing is outstanding, and no pop is queued. -/
def Quiet (app : App) : Prop :=
  app.running = true ∧ app.outstanding = 0 ∧
    ∀ m ∈ app.mains, Block.popViewController ∉ m.mainQueue

/-- The clients a main screen saves go under the id of its user. -/
theorem path_of_saveTap (happ : AppInv app) {i : Nat} {m m' : MainScreen} {now : Date}
    {k : PushId} {throws : Bool} {uid : String} (hm : app.mains[i]? = some m)
    (hid : m.vc.userId = some uid)
    (hstep : step P app (.main i (.saveTap now k) throws) = some app')
    (hm' : app'.mains[i]? = some m') :
    ∃ ws, m'.issued = m.issued ++ ws ∧ ∀ w ∈ ws,
      w.request.path = FPath.ofString (uid ++ "/" ++ clientDbReference ++ "/" ++ k.val) := by
  cases StepTo.of_step happ.sound hstep with
  | main hmain _ hstep' _ =>
      obtain rfl := Option.some.inj (hm.symm.trans hmain)
      rcases getElem?_setMain hm' with ⟨-, rfl⟩ | ⟨hne, -⟩
      · have herrors := (happ.sound i m hm).errors
        obtain ⟨t, ht, hspec⟩ := MainScreen.step_saveTap (P := P) herrors now k
        obtain rfl : t = m' := Option.some.inj (ht.symm.trans hstep')
        refine ⟨_, hspec.issued, ?_⟩
        intro w hw
        obtain ⟨r, hr, rfl⟩ := List.mem_map.mp hw
        obtain ⟨-, u, hu, rfl⟩ := eq_saveClient_of_mem_writes hr
        obtain rfl : uid = u := Option.some.inj (hid.symm.trans hu)
        rw [saveClient_eq]
      · exact absurd rfl hne

/-- **Navigation and session agree.** In every run in which only the app changes the
session and no sign-out throws, at most one login attempt, pending navigation or main
screen exists at a time. With nothing outstanding or queued, a main screen is on the stack
if and only if a user is signed in; it is the screen of that user, and the clients saved
from it go under the uid of that user. -/
theorem navigation_agrees_with_session {user : Option FirebaseUser}
    {h : List (App × Action)} (r : (system P).Run (notRunning user) h app)
    (hown : ∀ p ∈ h, p.2.ownSession = true) :
    (app.facebookRequests + app.signInRequests + app.autoNavigations.length +
        app.stack.length ≤ 1 ∧
      (app.stack = [] ∨ ∃ i m, app.stack = [i] ∧ app.mains[i]? = some m)) ∧
    (Quiet app →
      (app.stack ≠ [] ↔ app.currentUser ≠ none) ∧
      ∀ (i : Nat) (m : MainScreen), i ∈ app.stack → app.mains[i]? = some m →
        ∃ fu, app.currentUser = some fu ∧ m.vc.userId = some fu.uid ∧
          ∀ now k throws app' m', step P app (.main i (.saveTap now k) throws) = some app' →
            app'.mains[i]? = some m' →
            ∃ ws, m'.issued = m.issued ++ ws ∧ ∀ w ∈ ws, w.request.path =
              FPath.ofString (fu.uid ++ "/" ++ clientDbReference ++ "/" ++ k.val)) := by
  obtain ⟨happ, hsession⟩ := run_sessionInv r hown
  have hmain : ∀ i ∈ app.stack, ∃ m, app.mains[i]? = some m := fun i hi =>
    ⟨_, List.getElem?_eq_getElem (happ.onStack i hi)⟩
  refine ⟨⟨happ.single, ?_⟩, ?_⟩
  · cases hstack : app.stack with
    | nil => exact Or.inl rfl
    | cons i rest =>
        have hi : i ∈ app.stack := by rw [hstack]; exact List.mem_cons_self
        obtain ⟨m, hm⟩ := hmain i hi
        exact Or.inr ⟨i, m, hstack ▸ (happ.stack_eq hi).1, hm⟩
  · rintro ⟨hrun, hout, hpops⟩
    have hsigned : ∀ (i : Nat) (m : MainScreen), i ∈ app.stack → app.mains[i]? = some m →
        ∃ fu, app.currentUser = some fu ∧ m.vc.userId = some fu.uid := fun i m hi hm =>
      hsession.signedIn i m hi hm (hpops m (List.mem_of_getElem? hm))
    refine ⟨⟨?_, ?_⟩, ?_⟩
    · intro hne
      obtain ⟨i, hi⟩ := List.exists_mem_of_ne_nil app.stack hne
      obtain ⟨m, hm⟩ := hmain i hi
      obtain ⟨fu, hfu, -⟩ := hsigned i m hi hm
      simp [hfu]
    · intro hne hstack
      exact hne (hsession.signedOut hrun hstack (autoNavigations_eq_nil hout))
    · intro i m hi hm
      obtain ⟨fu, hfu, hid⟩ := hsigned i m hi hm
      exact ⟨fu, hfu, hid, fun now k throws app' m' hstep hm' =>
        path_of_saveTap happ hm hid hstep hm'⟩

/-- A login with Facebook and Firebase. -/
def loggedIn : List Action :=
  [.launch none, .facebookTap, .facebookResult (.success (some "token")),
   .signInResult (.ok sampleUser) MainScreen.sampleNow]

/-- After a login the main screen of the signed-in user is on the stack. -/
theorem navigation_agrees_loggedIn :
    ∃ app, (system .utc).exec (notRunning none) loggedIn = some app ∧ app.stack ≠ [] ∧
      ∀ (i : Nat) (m : MainScreen), i ∈ app.stack → app.mains[i]? = some m →
        ∃ fu, app.currentUser = some fu ∧ m.vc.userId = some fu.uid := by
  have hrun : ((system .utc).exec (notRunning none) loggedIn).any (fun app =>
      app.running = true ∧ app.outstanding = 0 ∧
      (∀ m ∈ app.mains, Block.popViewController ∉ m.mainQueue) ∧
      app.currentUser = some sampleUser) = true := by
    decide +kernel
  obtain ⟨app, happ, hq⟩ := (Option.any_eq_true _ _).mp hrun
  obtain ⟨hrun, hout, hpops, huser⟩ := of_decide_eq_true hq
  obtain ⟨hiff, hmain⟩ := (navigation_agrees_with_session (.of_exec happ)
    (by decide +kernel)).2 ⟨hrun, hout, hpops⟩
  refine ⟨app, happ, hiff.mpr (by simp [huser]), ?_⟩
  intro i m hi hm
  obtain ⟨fu, hfu, hid, -⟩ := hmain i m hi hm
  exact ⟨fu, hfu, hid⟩

end App

end FirebaseLogin
