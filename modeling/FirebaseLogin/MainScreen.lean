import FirebaseLogin.Submit
import FirebaseLogin.TransitionSystem

/-!
# The Main Screen as a Transition System

A `MainScreen` is one instance of `MainViewController` with everything that can still
reach it: the blocks it has put on the main queue, its delayed blocks, its writes the
database has not answered, and the alert it presents. The main queue is first in, first
out; a delayed block enters it when its delay has passed, and since all delays of the
screen are the same, delayed blocks become due in the order in which they were requested.
A write may be answered at any later step, or never.

The actions of the system are unrestricted: what UIKit lets a user do is the predicate
`allowed`, so that a result may or may not rely on it.

## Main results

* `StepTo.of_step`: everything a step can do.
* `errors_eq_nil`: the **between-tap invariant** — no error is left over in any reachable
  state.
* `saveTap_refines_submit`: **the form refines the stateless `submit`**, from every
  reachable state.
-/

namespace FirebaseLogin

/-! ### The state and its actions -/

/-- One instance of the main screen, with everything that can still reach it. -/
structure MainScreen where
  vc : MainViewController
  /-- The number of save taps handled so far. -/
  taps : Nat
  mainQueue : List Block
  /-- The delayed blocks that are not yet due. -/
  timers : List Block
  /-- The writes the database has not answered. -/
  inFlight : List Write
  /-- All writes issued so far. -/
  issued : List Write
  /-- The alert on screen. -/
  presented : Option Alert
  /-- All alerts shown so far. -/
  shown : List Alert
  /-- Whether the view is in the hierarchy of the window. -/
  inWindow : Bool
deriving Repr, DecidableEq

namespace MainScreen

open MainViewController

/-- What can happen to the screen. -/
inductive Action where
  /-- A change of the name text that bypasses the delegate. -/
  | editName (text : String)
  /-- A change of the last-name text that bypasses the delegate. -/
  | editLastName (text : String)
  /-- An edit of the name field, proposed to the delegate. -/
  | changeName (range : NSRange) (string : String)
  /-- An edit of the last-name field, proposed to the delegate. -/
  | changeLastName (range : NSRange) (string : String)
  | editYears (text : String)
  | pickDate (date : Date)
  /-- A tap on the save button, with the instant and the push id it would draw. -/
  | saveTap (now : Date) (autoId : PushId)
  /-- A tap on the close button. -/
  | closeTap
  | alertOK
  | alertCancel
  /-- The next delayed block becomes due. -/
  | timerFires
  /-- The main queue runs its next block. -/
  | runBlock
  /-- The database answers the write of a tap. -/
  | writeCompletes (tap : Nat) (error : Option String)
deriving DecidableEq

/-- The screen when it is pushed: empty fields, the date of its creation, nothing
pending. -/
def initial (userLogged : Option User) (date : Date) : MainScreen where
  vc :=
    { userLogged := userLogged
      viewModel := { errors := [], dateSelected := date, client := User.empty }
      nameTextField := ⟨"", .label⟩
      lastNameTextField := ⟨"", .label⟩
      yearsTextField := ⟨"", .label⟩
      datePickerTint := .systemIndigo
      saveButtonEnabled := true
      closeButtonEnabled := true
      loaderAnimating := false }
  taps := 0
  mainQueue := []
  timers := []
  inFlight := []
  issued := []
  presented := none
  shown := []
  inWindow := true

/-- Run a handler of the controller. -/
def turn (s : MainScreen) (handler : Turn → Turn) : MainScreen × List Effect :=
  let t := handler ⟨s.vc, []⟩
  ({ s with vc := t.vc }, t.effects)

/-- The text of a name field after a proposed edit. -/
def applyEdit (P : Platform) (field : UITextField) (range : NSRange) (string : String) :
    UITextField :=
  if shouldChangeCharacters P string then
    { field with contents := replacingCharacters field.contents range string }
  else field

/-- The controller after an edit of a field or a pick of a date, `none` for the other
actions. -/
def edited (P : Platform) (vc : MainViewController) : Action → Option MainViewController
  | .editName text =>
      some { vc with nameTextField := { vc.nameTextField with contents := text } }
  | .editLastName text =>
      some { vc with lastNameTextField := { vc.lastNameTextField with contents := text } }
  | .changeName range string =>
      some { vc with nameTextField := applyEdit P vc.nameTextField range string }
  | .changeLastName range string =>
      some { vc with lastNameTextField := applyEdit P vc.lastNameTextField range string }
  | .editYears text =>
      some { vc with yearsTextField := { vc.yearsTextField with contents := text } }
  | .pickDate date => some (datePickerValueChanged date ⟨vc, []⟩).vc
  | _ => none

/-- Run a block of the main queue. -/
def execute (s : MainScreen) : Block → MainScreen × List Effect
  | .startLoading _ => ({ s with vc := startLoadingBlock s.vc }, [])
  | .stopLoading _ => ({ s with vc := stopLoadingBlock s.vc }, [])
  | .saveCompletion tap error => (s, [.present (.saveOutcome tap error)])
  | .popViewController => (s, [.popViewController])

/-- React to an action: the screen after the handlers ran, and the effects they request.
The action does not apply when it names an alert, a block or a write that is not there. -/
def handle (P : Platform) (s : MainScreen) (a : Action) :
    Option (MainScreen × List Effect) :=
  match a with
  | .saveTap now autoId =>
      some ({ s with taps := s.taps + 1 }.turn (saveButtonTapped P now s.taps autoId))
  | .closeTap => some (s.turn logOut)
  | .alertOK =>
      match s.presented with
      | none => none
      | some .closeSession => some ({ s with presented := none }.turn confirmLogOut)
      | some _ => some ({ s with presented := none }, [])
  | .alertCancel =>
      if s.presented = some .closeSession then some ({ s with presented := none }, [])
      else none
  | .timerFires =>
      match s.timers with
      | [] => none
      | b :: timers => some ({ s with timers := timers, mainQueue := s.mainQueue ++ [b] }, [])
  | .runBlock =>
      match s.mainQueue with
      | [] => none
      | b :: queue => some ({ s with mainQueue := queue }.execute b)
  | .writeCompletes tap error =>
      match s.inFlight.find? (fun w => w.tap == tap) with
      | none => none
      | some w =>
          some ({ s with
            inFlight := s.inFlight.erase w
            mainQueue := s.mainQueue ++ [.saveCompletion tap error] }, [])
  | a => (edited P s.vc a).map fun vc => ({ s with vc := vc }, [])

/-- An alert is shown only by a screen in the window that presents nothing else. -/
def canPresent (s : MainScreen) : Bool := s.inWindow && s.presented.isNone

/-- A screen can present when it is in the window and presents nothing. -/
theorem canPresent_iff {s : MainScreen} :
    s.canPresent = true ↔ s.inWindow = true ∧ s.presented = none := by
  simp [canPresent]

/-- Perform an effect. -/
def perform (s : MainScreen) : Effect → MainScreen
  | .async b => { s with mainQueue := s.mainQueue ++ [b] }
  | .asyncAfter b => { s with timers := s.timers ++ [b] }
  | .present alert =>
      { s with
        presented := if s.canPresent then some alert else s.presented
        shown := if s.canPresent then s.shown ++ [alert] else s.shown }
  | .setValue w => { s with inFlight := s.inFlight ++ [w], issued := s.issued ++ [w] }
  | .firebaseSignOut => s
  | .facebooklogOut => s
  | .popViewController => { s with inWindow := false }

/-- Perform effects in the order in which they were requested. -/
def performAll (s : MainScreen) (es : List Effect) : MainScreen := es.foldl perform s

/-- One step of the screen. -/
def step (P : Platform) (s : MainScreen) (a : Action) : Option MainScreen :=
  (handle P s a).map fun r => r.1.performAll r.2

/-- The main screen as a transition system. -/
def system (P : Platform) : TransitionSystem MainScreen Action where
  Init s := ∃ user date, s = initial user date
  step := step P

/-- What UIKit lets a user do: edits and taps reach a screen in the window that presents
no alert, and taps only an enabled control. -/
def allowed (s : MainScreen) : Action → Bool
  | .editName _ | .editLastName _ | .changeName _ _ | .changeLastName _ _ | .editYears _
  | .pickDate _ => s.canPresent
  | .saveTap _ _ => s.canPresent && s.vc.saveButtonEnabled
  | .closeTap => s.canPresent && s.vc.closeButtonEnabled
  | _ => true

/-! ### The steps of the screen -/

variable {P : Platform}

/-- The three shapes of a submission: rejected with one alert, accepted without a user to
write for, accepted with one write. -/
theorem submission_cases (P : Platform) (now : Date) (autoId : PushId)
    (vc : MainViewController) :
    (∃ message, (vc.submission P now autoId).alerts = [.dataErrors message] ∧
        (vc.submission P now autoId).writes = []) ∨
      ((vc.submission P now autoId).alerts = [] ∧
        (vc.submission P now autoId).writes = []) ∨
      ∃ w, (vc.submission P now autoId).alerts = [] ∧
        (vc.submission P now autoId).writes = [w] := by
  simp only [submission, submit]
  split
  · exact Or.inl ⟨_, rfl, rfl⟩
  · cases vc.userId with
    | none => exact Or.inr (Or.inl ⟨rfl, rfl⟩)
    | some uid => exact Or.inr (Or.inr ⟨_, rfl, rfl⟩)

/-- The specification of a save tap on the screen. -/
structure TapStep (P : Platform) (now : Date) (autoId : PushId) (s s' : MainScreen) :
    Prop where
  vc : AfterTap P now autoId s.vc s'.vc
  taps : s'.taps = s.taps + 1
  mainQueue : s'.mainQueue = s.mainQueue ++ [.startLoading s.taps]
  timers : s'.timers = s.timers ++ [.stopLoading s.taps]
  inFlight : s'.inFlight =
    s.inFlight ++ (s.vc.submission P now autoId).writes.map (Write.mk s.taps)
  issued : s'.issued =
    s.issued ++ (s.vc.submission P now autoId).writes.map (Write.mk s.taps)
  inWindow : s'.inWindow = s.inWindow
  /-- A screen that can present shows the alert of a rejected tap. -/
  presented : s.canPresent = true →
    s'.presented = (s.vc.submission P now autoId).alerts.head? ∧
      s'.shown = s.shown ++ (s.vc.submission P now autoId).alerts
  blocked : s.canPresent = false → s'.presented = s.presented ∧ s'.shown = s.shown

/-- **The step of a save tap**, when no error is left over. -/
theorem step_saveTap {s : MainScreen} (hs : s.vc.viewModel.errors = []) (now : Date)
    (autoId : PushId) :
    ∃ s', step P s (.saveTap now autoId) = some s' ∧ TapStep P now autoId s s' := by
  obtain ⟨vc', htap, hafter⟩ := saveButtonTapped_spec P now s.taps autoId s.vc hs
  refine ⟨{ s with taps := s.taps + 1, vc := vc' }.performAll
    (tapEffects P now s.taps autoId s.vc), by simp [step, handle, turn, htap], ?_⟩
  simp only [tapEffects, Submission.effects]
  -- the effects of the tap, for each shape of its submission
  rcases submission_cases P now autoId s.vc with ⟨m, ha, hw⟩ | ⟨ha, hw⟩ | ⟨w, ha, hw⟩
  · rw [ha, hw]
    refine ⟨hafter, rfl, rfl, rfl, by simp [performAll, perform, hw],
      by simp [performAll, perform, hw], rfl, ?_, ?_⟩
    · intro hp
      obtain ⟨hwin, hnone⟩ := canPresent_iff.mp hp
      simp [performAll, perform, canPresent, hwin, hnone, ha]
    · intro hp
      simp only [canPresent] at hp
      simp only [List.map_cons, List.map_nil, List.cons_append, List.nil_append, performAll,
        List.foldl_cons, List.foldl_nil, perform, canPresent, hp, Bool.false_eq_true,
        if_false, and_self]
  · rw [ha, hw]
    refine ⟨hafter, rfl, rfl, rfl, by simp [performAll, perform, hw],
      by simp [performAll, perform, hw], rfl, ?_, fun _ => ⟨rfl, rfl⟩⟩
    intro hp
    simpa [performAll, perform, ha] using (canPresent_iff.mp hp).2
  · rw [ha, hw]
    refine ⟨hafter, rfl, rfl, rfl, by simp [performAll, perform, hw],
      by simp [performAll, perform, hw], rfl, ?_, fun _ => ⟨rfl, rfl⟩⟩
    intro hp
    simpa [performAll, perform, ha] using (canPresent_iff.mp hp).2

/-- **Everything a step can do**, one constructor for each behavior. -/
inductive StepTo (P : Platform) (s : MainScreen) : Action → MainScreen → Prop
  | edit {a : Action} {vc : MainViewController} :
      edited P s.vc a = some vc → StepTo P s a { s with vc := vc }
  | saveTap {now : Date} {autoId : PushId} {s' : MainScreen} :
      TapStep P now autoId s s' → StepTo P s (.saveTap now autoId) s'
  | closeTap : StepTo P s .closeTap (s.perform (.present .closeSession))
  | confirm : s.presented = some .closeSession →
      StepTo P s .alertOK
        { s with presented := none, mainQueue := s.mainQueue ++ [.popViewController] }
  | dismiss {alert : Alert} : s.presented = some alert → alert ≠ .closeSession →
      StepTo P s .alertOK { s with presented := none }
  | cancel : s.presented = some .closeSession →
      StepTo P s .alertCancel { s with presented := none }
  | timerFires {b : Block} {timers : List Block} : s.timers = b :: timers →
      StepTo P s .timerFires { s with timers := timers, mainQueue := s.mainQueue ++ [b] }
  | startLoading {tap : Nat} {queue : List Block} : s.mainQueue = .startLoading tap :: queue →
      StepTo P s .runBlock { s with mainQueue := queue, vc := startLoadingBlock s.vc }
  | stopLoading {tap : Nat} {queue : List Block} : s.mainQueue = .stopLoading tap :: queue →
      StepTo P s .runBlock { s with mainQueue := queue, vc := stopLoadingBlock s.vc }
  | saveCompletion {tap : Nat} {error : Option String} {queue : List Block} :
      s.mainQueue = .saveCompletion tap error :: queue →
      StepTo P s .runBlock
        ({ s with mainQueue := queue }.perform (.present (.saveOutcome tap error)))
  | pop {queue : List Block} : s.mainQueue = .popViewController :: queue →
      StepTo P s .runBlock { s with mainQueue := queue, inWindow := false }
  | writeCompletes {w : Write} {error : Option String} : w ∈ s.inFlight →
      StepTo P s (.writeCompletes w.tap error)
        { s with
          inFlight := s.inFlight.erase w
          mainQueue := s.mainQueue ++ [.saveCompletion w.tap error] }

/-- Every step is one of `StepTo`, when no error is left over. -/
theorem StepTo.of_step {s s' : MainScreen} {a : Action} (hs : s.vc.viewModel.errors = [])
    (h : step P s a = some s') : StepTo P s a s' := by
  cases a with
  | saveTap now autoId =>
      obtain ⟨t, ht, hspec⟩ := step_saveTap (P := P) hs now autoId
      obtain rfl : t = s' := Option.some.inj (ht.symm.trans h)
      exact .saveTap hspec
  | closeTap =>
      obtain rfl : _ = s' := Option.some.inj h
      exact .closeTap
  | alertOK =>
      simp only [step, handle, Option.map_eq_some_iff] at h
      obtain ⟨r, hr, rfl⟩ := h
      split at hr
      · cases hr
      · rename_i hp
        obtain rfl := Option.some.inj hr
        exact .confirm hp
      · rename_i alert hne hp
        obtain rfl := Option.some.inj hr
        exact .dismiss hp hne
  | alertCancel =>
      simp only [step, handle, Option.map_eq_some_iff] at h
      obtain ⟨r, hr, rfl⟩ := h
      split at hr
      · rename_i hp
        obtain rfl := Option.some.inj hr
        exact .cancel hp
      · cases hr
  | timerFires =>
      simp only [step, handle, Option.map_eq_some_iff] at h
      obtain ⟨r, hr, rfl⟩ := h
      split at hr
      · cases hr
      · rename_i b timers ht
        obtain rfl := Option.some.inj hr
        exact .timerFires ht
  | runBlock =>
      simp only [step, handle, Option.map_eq_some_iff] at h
      obtain ⟨r, hr, rfl⟩ := h
      split at hr
      · cases hr
      · rename_i b queue hq
        obtain rfl := Option.some.inj hr
        cases b with
        | startLoading tap => exact .startLoading hq
        | stopLoading tap => exact .stopLoading hq
        | saveCompletion tap error => exact .saveCompletion hq
        | popViewController => exact .pop hq
  | writeCompletes tap error =>
      simp only [step, handle, Option.map_eq_some_iff] at h
      obtain ⟨r, hr, rfl⟩ := h
      split at hr
      · cases hr
      · rename_i w hw
        obtain rfl := Option.some.inj hr
        obtain rfl : w.tap = tap := by simpa using List.find?_some hw
        exact .writeCompletes (List.mem_of_find?_eq_some hw)
  | editName text | editLastName text | changeName range string
  | changeLastName range string | editYears text | pickDate date =>
      obtain rfl : _ = s' := Option.some.inj h
      exact .edit rfl

/-- An edit changes the texts and the selected date only. -/
theorem edited_frame {vc vc' : MainViewController} {a : Action}
    (h : edited P vc a = some vc') :
    vc'.viewModel.errors = vc.viewModel.errors ∧ vc'.userLogged = vc.userLogged ∧
      vc'.saveButtonEnabled = vc.saveButtonEnabled ∧
      vc'.closeButtonEnabled = vc.closeButtonEnabled ∧
      vc'.loaderAnimating = vc.loaderAnimating := by
  cases a <;> first
    | (obtain rfl := Option.some.inj h; exact ⟨rfl, rfl, rfl, rfl, rfl⟩)
    | cases h

/-! ### The form refines the submit function -/

/-- No step leaves an error behind. -/
theorem step_errors {s s' : MainScreen} {a : Action} (hs : s.vc.viewModel.errors = [])
    (h : step P s a = some s') : s'.vc.viewModel.errors = [] := by
  cases StepTo.of_step hs h with
  | edit hvc => exact (edited_frame hvc).1.trans hs
  | saveTap htap => exact htap.vc.errors
  | closeTap | confirm | dismiss | cancel | timerFires | startLoading | stopLoading
  | saveCompletion | pop | writeCompletes => exact hs

/-- Delayed blocks only end the loading. -/
theorem step_timers {s s' : MainScreen} {a : Action} (herrors : s.vc.viewModel.errors = [])
    (h : step P s a = some s') (hs : ∀ b ∈ s.timers, ∃ tap, b = .stopLoading tap) :
    ∀ b ∈ s'.timers, ∃ tap, b = .stopLoading tap := by
  cases StepTo.of_step herrors h with
  | saveTap htap =>
      intro b hb
      rw [htap.timers] at hb
      rcases List.mem_append.mp hb with hb | hb
      · exact hs b hb
      · exact ⟨s.taps, List.mem_singleton.mp hb⟩
  | timerFires ht =>
      intro b hb
      exact hs b (by rw [ht]; exact List.mem_cons_of_mem _ hb)
  | edit | closeTap | confirm | dismiss | cancel | startLoading | stopLoading
  | saveCompletion | pop | writeCompletes => exact hs

/-- What holds of a screen between its steps: no error is left over, and the delayed blocks
end a loading. -/
structure Sound (s : MainScreen) : Prop where
  errors : s.vc.viewModel.errors = []
  timers : ∀ b ∈ s.timers, ∃ tap, b = .stopLoading tap

/-- The invariant holds initially. -/
theorem sound_initial (user : Option User) (date : Date) : Sound (initial user date) :=
  ⟨rfl, by simp [initial]⟩

/-- A step keeps the invariant. -/
theorem step_sound {s s' : MainScreen} {a : Action} (hs : Sound s)
    (h : step P s a = some s') : Sound s' :=
  ⟨step_errors hs.errors h, step_timers hs.errors h hs.timers⟩

/-- **The between-tap invariant.** No error is left over in any reachable state. -/
theorem errors_eq_nil {s : MainScreen} (hs : (system P).Reachable s) :
    s.vc.viewModel.errors = [] := by
  refine hs.invariant (I := fun s => s.vc.viewModel.errors = []) ?_ ?_
  · rintro _ ⟨user, date, rfl⟩
    rfl
  · intro t a u ht hstep
    exact step_errors ht hstep

/-- **The form refines the stateless submit function.** In every reachable state, whatever
was edited, picked and tapped before, the outcome of a save tap is `submit` of the current
texts, the selected date, the clock and the id of the logged user. A rejected form is
listed error by error and nothing is written or changed; an accepted one is written once
under the user's clients; no error is left behind. -/
theorem saveTap_refines_submit {s : MainScreen} (hs : (system P).Reachable s) (now : Date)
    (autoId : PushId) :
    let N := s.vc.nameTextField.contents
    let L := s.vc.lastNameTextField.contents
    let Y := s.vc.yearsTextField.contents
    let d := s.vc.viewModel.dateSelected
    let E := formErrors P N L Y d now
    (saveButtonTapped P now s.taps autoId ⟨s.vc, []⟩).outcome =
        submit P N L Y d now s.vc.userId autoId ∧
      ∃ s', step P s (.saveTap now autoId) = some s' ∧ s'.vc.viewModel.errors = [] ∧
        (E ≠ [] → E.Nodup ∧ (E.map DataError.line).Nodup ∧ s'.issued = s.issued ∧
          s'.vc.texts = s.vc.texts ∧
          (s.canPresent = true →
            s'.presented = some (.dataErrors (errorLines E)) ∧
              s'.shown = s.shown ++ [.dataErrors (errorLines E)])) ∧
        (E = [] → ∀ u, s.vc.userId = some u →
          s'.issued = s.issued ++
            [⟨s.taps, FPath.ofString (u ++ "/" ++ clientDbReference ++ "/" ++ autoId.val),
              clientRecord P autoId.val N L (P.yearsBetween d now) d⟩]) := by
  intro N L Y d E
  have herrors := errors_eq_nil hs
  obtain ⟨s', hstep, htap⟩ := step_saveTap (P := P) herrors now autoId
  refine ⟨outcome_saveButtonTapped P now s.taps autoId herrors, s', hstep, htap.vc.errors,
    ?_, ?_⟩
  · intro hE
    have ho : s.vc.submission P now autoId = ⟨[.dataErrors (errorLines E)], [], N, L, Y⟩ :=
      submit_of_errors hE _ _
    refine ⟨formErrors_nodup P N L Y d now, errorLines_nodup P N L Y d now, ?_, ?_, ?_⟩
    · simp [htap.issued, ho]
    · simp [texts, htap.vc.name, htap.vc.lastName, htap.vc.years, ho, N, L, Y]
    · intro hp
      simpa [ho] using htap.presented hp
  · intro hE u hu
    have ho := submit_of_no_errors hE s.vc.userId autoId
    have hissued := htap.issued
    rw [submission, ho, hu] at hissued
    exact hissued

/-! ### A concrete screen -/

/-- The screen of a user with the id `"uid"`, created at the start of 2021. -/
def sampleScreen : MainScreen :=
  initial (some { User.empty with id := some "uid" }) (midnight 2021 1 1)

/-- The client of the tests, typed into an empty form. -/
def typeNewClient : List Action :=
  [.changeName ⟨0, 0⟩ "Dustin", .changeLastName ⟨0, 0⟩ "Henderson", .editYears "18",
   .pickDate (midnight 2003 1 1)]

/-- The instant of the save taps of the concrete runs, when that client is 18. -/
def sampleNow : Date := midnight 2021 6 1

/-- A tap on the empty form is rejected with three lines, and the client typed after it is
saved: nothing of the first tap is left. -/
theorem saveTap_refines_submit_newClient :
    ∃ s₁ s s', step .utc sampleScreen (.saveTap sampleNow sampleKey) = some s₁ ∧
      s₁.issued = [] ∧ s₁.vc.texts = ["", "", ""] ∧
      s₁.presented = some (.dataErrors ("Wrong Name, Must Contain More Than 3 Characters\n" ++
        "Wrong Lastname, Must Contain More Than 3 Characters\n" ++
        "Your Age Does Not Match The Selected Date\n")) ∧
      (system .utc).exec s₁ (.alertOK :: typeNewClient) = some s ∧
      step .utc s (.saveTap sampleNow sampleKey) = some s' ∧
      s'.vc.viewModel.errors = [] ∧
      s'.issued =
        [⟨1, FPath.ofString "uid/clients/-MQzA0bcdefghijklmno",
          [("id", .string "-MQzA0bcdefghijklmno"), ("name", .string "Dustin"),
           ("lastName", .string "Henderson"), ("years", .number 18),
           ("birthDay", .string "01/01/2003")]⟩] := by
  have hreach : (system .utc).Reachable sampleScreen := ⟨_, [], ⟨_, _, rfl⟩, .nil _⟩
  -- the rejected tap
  obtain ⟨-, s₁, hstep₁, -, hrejected, -⟩ :=
    saveTap_refines_submit hreach sampleNow sampleKey
  have hE : formErrors .utc "" "" "" (midnight 2021 1 1) sampleNow =
      [.name, .lastName, .birthdayNotMatch] := by
    decide +kernel
  have hne : formErrors .utc "" "" "" (midnight 2021 1 1) sampleNow ≠ [] := by simp [hE]
  obtain ⟨-, -, hissued₁, htexts₁, halert⟩ := hrejected hne
  have hshown := (halert rfl).1
  -- the accepted tap
  have hrun : ((system .utc).exec s₁ (.alertOK :: typeNewClient)).any (fun s =>
        s.vc.userId = some "uid" ∧ s.issued = [] ∧ s.taps = 1 ∧
        s.vc.nameTextField.contents = "Dustin" ∧
        s.vc.lastNameTextField.contents = "Henderson" ∧
        s.vc.yearsTextField.contents = "18" ∧
        s.vc.viewModel.dateSelected = midnight 2003 1 1) = true := by
    have h : (step .utc sampleScreen (.saveTap sampleNow sampleKey)).any (fun t =>
        ((system .utc).exec t (.alertOK :: typeNewClient)).any (fun s =>
          s.vc.userId = some "uid" ∧ s.issued = [] ∧ s.taps = 1 ∧
          s.vc.nameTextField.contents = "Dustin" ∧
          s.vc.lastNameTextField.contents = "Henderson" ∧
          s.vc.yearsTextField.contents = "18" ∧
          s.vc.viewModel.dateSelected = midnight 2003 1 1)) = true := by
      decide +kernel
    simpa only [hstep₁, Option.any_some] using h
  obtain ⟨s, hs, hq⟩ := (Option.any_eq_true _ _).mp hrun
  obtain ⟨hu, hissued, htaps, hN, hL, hY, hd⟩ := of_decide_eq_true hq
  have hexec : (system .utc).exec sampleScreen
      ([.saveTap sampleNow sampleKey] ++ .alertOK :: typeNewClient) = some s :=
    Option.bind_eq_some_iff.mpr ⟨s₁, hstep₁, hs⟩
  have hreach' : (system .utc).Reachable s := .of_exec ⟨_, _, rfl⟩ hexec
  obtain ⟨-, s', hstep, herrors, -, hwrite⟩ :=
    saveTap_refines_submit hreach' sampleNow sampleKey
  rw [hN, hL, hY, hd, hissued, htaps] at hwrite
  refine ⟨s₁, s, s', hstep₁, hissued₁, htexts₁, ?_, hs, hstep, herrors, ?_⟩
  · rw [hshown]
    refine congrArg (fun m => some (Alert.dataErrors m)) ?_
    exact (congrArg errorLines hE).trans (by decide +kernel)
  · rw [hwrite (by decide +kernel) "uid" hu]
    decide +kernel

end MainScreen

end FirebaseLogin
