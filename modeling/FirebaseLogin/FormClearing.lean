import FirebaseLogin.MainScreen

/-!
# When the Form is Emptied

An accepted tap empties the three text fields in the same turn in which it issues its
write, before the database has answered, and also when there is no user id and nothing is
written. What was typed is lost unless the write succeeds, and until then it is at risk.

## Main results

* `step_text_empty`, `run_text_empty`: an empty field stays empty until it is edited.
* `save_loses_texts`: **no save keeps what was typed until the database has acknowledged
  it**, and what holds of the texts at each later moment.
* `failed_save_loses_texts`: the runs in which a client is neither stored nor on screen.
-/

namespace FirebaseLogin

/-- The text fields of the form. -/
inductive FormField where
  | name
  | lastName
  | years
deriving Repr, DecidableEq

/-- The text of a field. -/
def MainViewController.text (vc : MainViewController) : FormField → String
  | .name => vc.nameTextField.contents
  | .lastName => vc.lastNameTextField.contents
  | .years => vc.yearsTextField.contents

namespace MainScreen

open MainViewController TransitionSystem

variable {P : Platform} {s s' : MainScreen} {a : Action}

/-- The actions by which the user edits a text field. -/
def Action.editsText : Action → Bool
  | .editName _ | .editLastName _ | .changeName _ _ | .changeLastName _ _
  | .editYears _ => true
  | _ => false

/-- The three fields are empty. -/
def TextsEmpty (vc : MainViewController) : Prop := vc.texts = ["", "", ""]

/-- The three fields are empty when each of them is. -/
theorem textsEmpty_iff {vc : MainViewController} : TextsEmpty vc ↔ ∀ f, vc.text f = "" := by
  constructor
  · intro h
    obtain ⟨hn, hl, hy⟩ : vc.nameTextField.contents = "" ∧
        vc.lastNameTextField.contents = "" ∧ vc.yearsTextField.contents = "" := by
      simpa [TextsEmpty, texts] using h
    intro f
    cases f with
    | name => exact hn
    | lastName => exact hl
    | years => exact hy
  · intro h
    rw [TextsEmpty, texts, show vc.nameTextField.contents = "" from h .name,
      show vc.lastNameTextField.contents = "" from h .lastName,
      show vc.yearsTextField.contents = "" from h .years]

/-- A save tap on a form without errors empties it. -/
theorem AfterTap.textsEmpty_of_valid {now : Date} {autoId : PushId}
    {vc vc' : MainViewController} (h : AfterTap P now autoId vc vc')
    (hvalid : formErrors P vc.nameTextField.contents vc.lastNameTextField.contents
      vc.yearsTextField.contents vc.viewModel.dateSelected now = []) : TextsEmpty vc' := by
  rw [TextsEmpty, texts, h.name, h.lastName, h.years, submission, submit_of_no_errors hvalid]

/-- The field an action edits. -/
def Action.field : Action → Option FormField
  | .editName _ | .changeName _ _ => some .name
  | .editLastName _ | .changeLastName _ _ => some .lastName
  | .editYears _ => some .years
  | _ => none

/-- The user edits a field: the edit is accepted and changes its text. -/
structure Edits (P : Platform) (f : FormField) (s : MainScreen) (a : Action) : Prop where
  field : a.field = some f
  changes : ∃ vc, edited P s.vc a = some vc ∧ vc.text f ≠ s.vc.text f

/-! ### Empty fields -/

/-- The text of a field is changed by edits of that field only. -/
theorem field_eq_of_edited {vc vc' : MainViewController} {f : FormField}
    (h : edited P vc a = some vc') (hne : vc'.text f ≠ vc.text f) : a.field = some f := by
  cases a with
  | editName | changeName | editLastName | changeLastName | editYears | pickDate =>
      obtain rfl := Option.some.inj h
      cases f with
      | name | lastName | years => first | rfl | exact absurd rfl hne
  | saveTap | closeTap | alertOK | alertCancel | timerFires | runBlock | writeCompletes =>
      cases h

/-- A save tap keeps the text of a field or empties it. -/
theorem AfterTap.text_cases {now : Date} {autoId : PushId} {vc vc' : MainViewController}
    (h : AfterTap P now autoId vc vc') (f : FormField) :
    vc'.text f = vc.text f ∨ vc'.text f = "" := by
  rcases submission_texts P now autoId vc with ⟨hn, hl, hy⟩ | ⟨hn, hl, hy⟩
  · left
    cases f with
    | name => exact h.name.trans hn
    | lastName => exact h.lastName.trans hl
    | years => exact h.years.trans hy
  · right
    cases f with
    | name => exact h.name.trans hn
    | lastName => exact h.lastName.trans hl
    | years => exact h.years.trans hy

/-- An empty field stays empty until it is edited: one step. -/
theorem step_text_empty {f : FormField} (herrors : s.vc.viewModel.errors = [])
    (h : step P s a = some s') (hs : s.vc.text f = "") :
    s'.vc.text f = "" ∨ Edits P f s a := by
  cases StepTo.of_step herrors h with
  | @edit a vc hvc =>
      by_cases hne : vc.text f = s.vc.text f
      · exact Or.inl (hne.trans hs)
      · exact Or.inr ⟨field_eq_of_edited hvc hne, vc, hvc, hne⟩
  | saveTap htap =>
      left
      rcases AfterTap.text_cases htap.vc f with hsame | hempty
      · exact hsame.trans hs
      · exact hempty
  | closeTap | confirm | dismiss | cancel | timerFires | startLoading | stopLoading
  | saveCompletion | pop | writeCompletes => exact Or.inl hs

/-- An empty field stays empty until it is edited: whole runs. -/
theorem run_text_empty {f : FormField} {h : List (MainScreen × Action)}
    (r : (system P).Run s h s') (herrors : s.vc.viewModel.errors = [])
    (hs : s.vc.text f = "") : s'.vc.text f = "" ∨ ∃ p ∈ h, Edits P f p.1 p.2 := by
  by_cases hedits : ∃ p ∈ h, Edits P f p.1 p.2
  · exact Or.inr hedits
  · have hnone : ∀ p ∈ h, ¬ Edits P f p.1 p.2 := fun p hp he => hedits ⟨p, hp, he⟩
    have hinv := r.invariant (C := fun t a => ¬ Edits P f t a)
      (I := fun t => t.vc.viewModel.errors = [] ∧ t.vc.text f = "") hnone ⟨herrors, hs⟩ ?_
    · exact Or.inl hinv.2
    · rintro t a u ha ⟨herrors, ht⟩ hstep
      exact ⟨step_errors herrors hstep, (step_text_empty herrors hstep ht).resolve_right ha⟩

/-- No field of a form without errors is empty. -/
theorem text_ne_empty_of_valid {vc : MainViewController} {now : Date}
    (hvalid : formErrors P vc.nameTextField.contents vc.lastNameTextField.contents
      vc.yearsTextField.contents vc.viewModel.dateSelected now = []) (f : FormField) :
    vc.text f ≠ "" := by
  obtain ⟨hname, hlast, hyears, -⟩ := formErrors_eq_nil_iff.mp hvalid
  have hcount : ¬ kMinStringToAccept < P.unicode.count "" := by
    rw [UnicodeData.count_empty]
    exact Nat.not_lt_zero _
  intro hempty
  cases f with
  | name => exact hcount (hempty ▸ hname)
  | lastName => exact hcount (hempty ▸ hlast)
  | years =>
      have hnone : intOfString? "" = none := by decide
      have htext : vc.yearsTextField.contents = "" := hempty
      rw [htext, hnone] at hyears
      cases hyears

/-- An action that edits no text edits no field. -/
theorem field_eq_none (ha : a.editsText = false) : a.field = none := by
  cases a with
  | editName | editLastName | changeName | changeLastName | editYears =>
      simp [Action.editsText] at ha
  | pickDate | saveTap | closeTap | alertOK | alertCancel | timerFires | runBlock
  | writeCompletes => rfl

/-- An emptied form stays empty until it is edited. -/
theorem run_texts_empty {h : List (MainScreen × Action)} (r : (system P).Run s h s')
    (herrors : s.vc.viewModel.errors = []) (hedits : ∀ p ∈ h, p.2.editsText = false)
    (hs : TextsEmpty s.vc) : TextsEmpty s'.vc := by
  rw [textsEmpty_iff] at hs ⊢
  intro f
  rcases run_text_empty r herrors (hs f) with hempty | ⟨p, hp, hedit⟩
  · exact hempty
  · have hfield := hedit.field
    rw [field_eq_none (hedits p hp)] at hfield
    cases hfield

/-- A form without errors is not empty. -/
theorem texts_ne_of_valid {vc vc' : MainViewController} {now : Date}
    (hvalid : formErrors P vc.nameTextField.contents vc.lastNameTextField.contents
      vc.yearsTextField.contents vc.viewModel.dateSelected now = [])
    (hvc' : TextsEmpty vc') : vc'.texts ≠ vc.texts := by
  intro heq
  have hempty : TextsEmpty vc := heq.symm.trans hvc'
  exact text_ne_empty_of_valid hvalid .name (textsEmpty_iff.mp hempty .name)

/-! ### The texts after a save -/

/-- The database has acknowledged the write of a tap. -/
def Acknowledged (h : List (MainScreen × Action)) (tap : Nat) : Prop :=
  ∃ t, (t, .writeCompletes tap none) ∈ h

/-- The write of a tap has failed. -/
def Failed (h : List (MainScreen × Action)) (tap : Nat) : Prop :=
  ∃ t error, (t, .writeCompletes tap (some error)) ∈ h

/-- **What a save should keep**, from the state `s` of the tap and at every moment of a
continuation from the state `s'` after it: the texts of a save that wrote nothing or failed
are still there, and the fields are empty only for a record the database has acknowledged. -/
def LosesNothing (P : Platform) (s s' : MainScreen) (h : List (MainScreen × Action)) :
    Prop :=
  ∀ h₁ h₂ u, h = h₁ ++ h₂ → (system P).Run s' h₁ u →
    (s'.issued = s.issued ∨ Failed h₁ s.taps → u.vc.texts = s.vc.texts) ∧
      (TextsEmpty u.vc → Acknowledged h₁ s.taps)

/-- A valid form is written exactly when its user has an id. -/
theorem TapStep.issued_eq_iff {now : Date} {autoId : PushId} (h : TapStep P now autoId s s')
    (hvalid : formErrors P s.vc.nameTextField.contents s.vc.lastNameTextField.contents
      s.vc.yearsTextField.contents s.vc.viewModel.dateSelected now = []) :
    s'.issued = s.issued ↔ s.vc.userId = none := by
  rw [h.issued, submission, submit_of_no_errors hvalid]
  cases s.vc.userId with
  | none => simp
  | some u => simp

/-- **No save keeps what was typed until the database has acknowledged it.** Take a valid
form in any reachable state, the tap, and any continuation without an edit of the texts. The
fields are empty from the tap on, so that `LosesNothing` fails whatever the outcome. At a
later moment, the texts of a save that wrote nothing or failed are kept exactly when the user
has an id and the write has not failed, and only an acknowledged record has left the fields
exactly when it has been acknowledged by then. -/
theorem save_loses_texts (hs : (system P).Reachable s) {now : Date} {autoId : PushId}
    (hvalid : formErrors P s.vc.nameTextField.contents s.vc.lastNameTextField.contents
      s.vc.yearsTextField.contents s.vc.viewModel.dateSelected now = [])
    (htap : step P s (.saveTap now autoId) = some s') {h : List (MainScreen × Action)}
    {u : MainScreen} (r : (system P).Run s' h u) (hedits : ∀ p ∈ h, p.2.editsText = false) :
    ¬ LosesNothing P s s' h ∧
      ((s'.issued = s.issued ∨ Failed h s.taps → u.vc.texts = s.vc.texts) ↔
        s.vc.userId ≠ none ∧ ¬ Failed h s.taps) ∧
      ((TextsEmpty u.vc → Acknowledged h s.taps) ↔ Acknowledged h s.taps) := by
  have herrors := errors_eq_nil hs
  obtain ⟨t, ht, hspec⟩ := step_saveTap (P := P) herrors now autoId
  obtain rfl : t = s' := Option.some.inj (ht.symm.trans htap)
  have hempty' : TextsEmpty t.vc := AfterTap.textsEmpty_of_valid hspec.vc hvalid
  have hempty : TextsEmpty u.vc := run_texts_empty r hspec.vc.errors hedits hempty'
  have hne := texts_ne_of_valid hvalid hempty
  refine ⟨?_, ?_, ?_⟩
  · -- right after the tap nothing is acknowledged
    intro hkeeps
    obtain ⟨w, hw⟩ := (hkeeps [] h t rfl (.nil t)).2 hempty'
    simp at hw
  · rw [hspec.issued_eq_iff hvalid]
    constructor
    · intro hkept
      exact ⟨fun hnone => hne (hkept (Or.inl hnone)), fun hfail => hne (hkept (Or.inr hfail))⟩
    · intro hok hlost
      exact absurd hlost (not_or.mpr hok)
  · exact ⟨fun hack => hack hempty, fun hack _ => hack⟩

/-- What follows the first save tap: its block, the answer of the database, and the
completion. -/
def answered (error : Option String) : List Action :=
  [.runBlock, .writeCompletes 0 error, .runBlock]

/-- A valid form whose write fails. -/
def failingSave : List Action :=
  typeNewClient ++ .saveTap sampleNow sampleKey :: answered (some "Permission denied")

/-- A save that is acknowledged in the end: both clauses hold then, and the texts were gone
before the answer. -/
theorem save_loses_texts_newClient :
    ∃ s s' u, (system .utc).exec sampleScreen typeNewClient = some s ∧
      step .utc s (.saveTap sampleNow sampleKey) = some s' ∧
      (system .utc).exec s' (answered none) = some u ∧
      ¬ LosesNothing .utc s s' ((system .utc).history s' (answered none)) ∧
      (s'.issued = s.issued ∨ Failed ((system .utc).history s' (answered none)) s.taps →
        u.vc.texts = s.vc.texts) ∧
      (TextsEmpty u.vc →
        Acknowledged ((system .utc).history s' (answered none)) s.taps) := by
  have hrun : ((system .utc).exec sampleScreen typeNewClient).any (fun s =>
      s.vc.userId ≠ none ∧ s.taps = 0 ∧
      formErrors .utc s.vc.nameTextField.contents s.vc.lastNameTextField.contents
        s.vc.yearsTextField.contents s.vc.viewModel.dateSelected sampleNow = [] ∧
      ((system .utc).exec s (.saveTap sampleNow sampleKey :: answered none)).isSome) =
        true := by
    decide +kernel
  obtain ⟨s, hs, hq⟩ := (Option.any_eq_true _ _).mp hrun
  obtain ⟨hid, htaps, hvalid, hrun⟩ := of_decide_eq_true hq
  obtain ⟨u, hu⟩ := Option.isSome_iff_exists.mp hrun
  obtain ⟨s', htap, hu⟩ := Option.bind_eq_some_iff.mp hu
  have hactions := map_snd_history hu
  have hmem : ∀ p ∈ (system .utc).history s' (answered none),
      p.2 ∈ answered none := fun p hp => hactions ▸ List.mem_map_of_mem hp
  have hacked : Acknowledged ((system .utc).history s' (answered none)) 0 := by
    have hin : Action.writeCompletes 0 none ∈ answered none := by simp [answered]
    rw [← hactions] at hin
    obtain ⟨⟨t, a⟩, ht, rfl⟩ := List.mem_map.mp hin
    exact ⟨t, ht⟩
  have hok : ¬ Failed ((system .utc).history s' (answered none)) 0 := by
    rintro ⟨t, e, ht⟩
    simpa [answered] using hmem _ ht
  have hedits : ∀ p ∈ (system .utc).history s' (answered none), p.2.editsText = false := by
    intro p hp
    have hcase := hmem p hp
    simp only [answered, List.mem_cons, List.not_mem_nil, or_false] at hcase
    rcases hcase with h | h | h <;> rw [h] <;> rfl
  rw [← htaps] at hacked hok
  obtain ⟨hloses, hkept, hack⟩ :=
    save_loses_texts (.of_exec ⟨_, _, rfl⟩ hs) hvalid htap (.of_exec hu) hedits
  exact ⟨s, s', u, hs, htap, hu, hloses, hkept.mpr ⟨hid, hok⟩, hack.mpr hacked⟩

/-- **A save that loses what was typed.** The write of a valid form fails, and the fields
are empty when the error is shown; without a user id nothing is written, and the fields
are empty all the same. -/
theorem failed_save_loses_texts :
    (∃ s u, (system .utc).exec sampleScreen typeNewClient = some s ∧
      (system .utc).exec sampleScreen failingSave = some u ∧
      (∀ p ∈ (system .utc).history sampleScreen failingSave, allowed p.1 p.2 = true) ∧
      s.vc.texts = ["Dustin", "Henderson", "18"] ∧ u.issued.length = 1 ∧
      u.presented = some (.saveOutcome 0 (some "Permission denied")) ∧
      u.vc.texts = ["", "", ""]) ∧
    ∃ u, (system .utc).exec (initial (some User.empty) (midnight 2021 1 1))
        (typeNewClient ++ [.saveTap sampleNow sampleKey]) = some u ∧
      u.issued = [] ∧ u.presented = none ∧ u.vc.texts = ["", "", ""] := by
  have hrun : ((system .utc).exec sampleScreen typeNewClient).any (fun s =>
      s.vc.texts = ["Dustin", "Henderson", "18"]) = true := by
    decide +kernel
  obtain ⟨s, hs, hsq⟩ := (Option.any_eq_true _ _).mp hrun
  have hrun : ((system .utc).exec sampleScreen failingSave).any (fun u =>
      u.issued.length = 1 ∧
      u.presented = some (.saveOutcome 0 (some "Permission denied")) ∧
      u.vc.texts = ["", "", ""]) = true := by
    decide +kernel
  obtain ⟨u, hu, huq⟩ := (Option.any_eq_true _ _).mp hrun
  have hrun : ((system .utc).exec (initial (some User.empty) (midnight 2021 1 1))
      (typeNewClient ++ [.saveTap sampleNow sampleKey])).any (fun u =>
        u.issued = [] ∧ u.presented = none ∧ u.vc.texts = ["", "", ""]) = true := by
    decide +kernel
  obtain ⟨v, hv, hvq⟩ := (Option.any_eq_true _ _).mp hrun
  exact ⟨⟨s, u, hs, hu, by decide +kernel, of_decide_eq_true hsq, of_decide_eq_true huq⟩,
    v, hv, of_decide_eq_true hvq⟩

end MainScreen

end FirebaseLogin
