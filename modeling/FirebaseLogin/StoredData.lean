import FirebaseLogin.MainScreen

/-!
# The Records the App Stores

The name and the last-name field change only through the delegate, which filters the
replacement; the years field is not filtered. This module follows the filter, the
validators and the encoder through whole runs: every record handed to the database is
the encoding of a `StoredClient`, whose fields of proof say what a stored record satisfies.

## Main results

* `step_letterFields`: the two name fields hold ASCII letters only, under every edit.
* `issued_valid`: **every record ever written is a complete, valid client stored under its
  own id**, and it is the client of the view model at the tap that wrote it.
-/

namespace FirebaseLogin

open MainViewController

/-- A client as the app stores it: complete and valid. -/
structure StoredClient (P : Platform) where
  key : PushId
  name : String
  lastName : String
  years : Int
  birthDay : String
  name_letters : ∀ c ∈ name.toList, IsASCIILetter c
  lastName_letters : ∀ c ∈ lastName.toList, IsASCIILetter c
  name_count : 3 ≤ P.unicode.count name
  lastName_count : 3 ≤ P.unicode.count lastName
  years_ge : 13 ≤ years
  years_le : years ≤ 120

namespace MainScreen

variable {P : Platform}

/-! ### The filtered fields -/

/-- Every change of a name text goes through the delegate. -/
def Action.viaDelegate : Action → Bool
  | .editName _ => false
  | .editLastName _ => false
  | _ => true

/-- The two name fields hold ASCII letters only. -/
def LetterFields (vc : MainViewController) : Prop :=
  (∀ c ∈ vc.nameTextField.contents.toList, IsASCIILetter c) ∧
    ∀ c ∈ vc.lastNameTextField.contents.toList, IsASCIILetter c

/-- An edit proposed to the delegate keeps a text of letters one, whatever it replaces. -/
theorem applyEdit_letters {field : UITextField} (range : NSRange) (string : String)
    (h : ∀ c ∈ field.contents.toList, IsASCIILetter c) :
    ∀ c ∈ (applyEdit P field range string).contents.toList, IsASCIILetter c := by
  intro c hc
  rw [applyEdit] at hc
  split at hc
  · rename_i haccept
    rcases mem_replacingCharacters hc with hold | hnew
    · exact h c hold
    · exact (shouldChangeCharacters_iff P string).mp haccept c hnew
  · exact h c hc

/-- An edit through the delegate keeps the name fields filtered. -/
theorem edited_letterFields {vc vc' : MainViewController} {a : Action}
    (h : edited P vc a = some vc') (ha : a.viaDelegate = true) (hvc : LetterFields vc) :
    LetterFields vc' := by
  obtain ⟨hname, hlast⟩ := hvc
  cases a with
  | editName text | editLastName text => simp [Action.viaDelegate] at ha
  | changeName range string =>
      obtain rfl := Option.some.inj h
      exact ⟨applyEdit_letters range string hname, hlast⟩
  | changeLastName range string =>
      obtain rfl := Option.some.inj h
      exact ⟨hname, applyEdit_letters range string hlast⟩
  | editYears text | pickDate date =>
      obtain rfl := Option.some.inj h
      exact ⟨hname, hlast⟩
  | saveTap | closeTap | alertOK | alertCancel | timerFires | runBlock | writeCompletes =>
      cases h

/-- A save tap keeps the texts or empties them. -/
theorem AfterTap.letterFields {now : Date} {autoId : PushId} {vc vc' : MainViewController}
    (h : AfterTap P now autoId vc vc') (hvc : LetterFields vc) : LetterFields vc' := by
  rw [LetterFields, h.name, h.lastName]
  rcases submission_texts P now autoId vc with ⟨hname, hlast, -⟩ | ⟨hname, hlast, -⟩
  · rw [hname, hlast]
    exact hvc
  · rw [hname, hlast]
    simp

/-- **One step keeps the name fields filtered.** -/
theorem step_letterFields {s s' : MainScreen} {a : Action} (hs : s.vc.viewModel.errors = [])
    (h : step P s a = some s') (ha : a.viaDelegate = true) (hvc : LetterFields s.vc) :
    LetterFields s'.vc := by
  cases StepTo.of_step hs h with
  | edit hedit => exact edited_letterFields hedit ha hvc
  | saveTap htap => exact AfterTap.letterFields htap.vc hvc
  | closeTap | confirm | dismiss | cancel | timerFires | startLoading | stopLoading
  | saveCompletion | pop | writeCompletes => exact hvc

/-- The name fields are filtered along every run that starts with empty fields and changes
them through the delegate only. -/
theorem run_letterFields {user : Option User} {date : Date} {h : List (MainScreen × Action)}
    {s : MainScreen} (r : (system P).Run (initial user date) h s)
    (hdelegate : ∀ p ∈ h, p.2.viaDelegate = true) :
    s.vc.viewModel.errors = [] ∧ LetterFields s.vc := by
  refine r.invariant (C := fun _ a => a.viaDelegate = true)
    (I := fun s => s.vc.viewModel.errors = [] ∧ LetterFields s.vc) hdelegate ?_ ?_
  · exact ⟨rfl, by simp [LetterFields, initial]⟩
  · rintro t a u ha ⟨herrors, hletters⟩ hstep
    exact ⟨step_errors herrors hstep, step_letterFields herrors hstep ha hletters⟩

/-! ### The records -/

/-- A write of a stored client, and where it comes from: the record holds the five entries of
the client, under its own key, and a tap of the history encodes the client of its view model
with no persisted field absent. -/
structure Stores (P : Platform) (h : List (MainScreen × Action)) (w : Write)
    (c : StoredClient P) : Prop where
  value : w.request.value =
    [("id", .string c.key.val), ("name", .string c.name), ("lastName", .string c.lastName),
     ("years", .number c.years), ("birthDay", .string c.birthDay)]
  key : w.request.path.getBack = some c.key.val
  tapped : ∃ (t : MainScreen) (now : Date) (u : String) (client : User),
    (t, .saveTap now c.key) ∈ h ∧ t.vc.userId = some u ∧
      client = (validation P now t.taps t.vc).vc.viewModel.client ∧
      w = ⟨t.taps, saveClient false u client c.key⟩ ∧
      client.name = some c.name ∧ client.lastName = some c.lastName ∧
      client.age = some c.years ∧ client.birthDate = some c.birthDay ∧
      c.birthDay = dateToString P t.vc.viewModel.dateSelected

/-- A longer history still holds the tap of a write. -/
theorem Stores.mono {h h' : List (MainScreen × Action)} {w : Write} {c : StoredClient P}
    (hw : Stores P h w c) (hsub : ∀ p ∈ h, p ∈ h') : Stores P h' w c := by
  obtain ⟨hvalue, hkey, t, now, u, client, hmem, hrest⟩ := hw
  exact ⟨hvalue, hkey, t, now, u, client, hsub _ hmem, hrest⟩

/-- The writes of one tap on a filtered form are writes of stored clients. -/
theorem TapStep.stores {now : Date} {autoId : PushId} {s : MainScreen} {w : Write}
    (herrors : s.vc.viewModel.errors = []) (hletters : LetterFields s.vc)
    (hw : w ∈ (s.vc.submission P now autoId).writes.map (Write.mk s.taps)) :
    ∃ c : StoredClient P, Stores P [(s, .saveTap now autoId)] w c := by
  obtain ⟨r, hr, rfl⟩ := List.mem_map.mp hw
  obtain ⟨hE, u, hu, rfl⟩ := eq_saveClient_of_mem_writes hr
  obtain ⟨hname, hlast, hyears, hmin, hmax⟩ := formErrors_eq_nil_iff.mp hE
  have hclient : (s.vc.validated P now).viewModel.client =
      (validation P now s.taps s.vc).vc.viewModel.client := by
    rw [validation_eq P now s.taps herrors]
  let c : StoredClient P :=
    { key := autoId
      name := s.vc.nameTextField.contents
      lastName := s.vc.lastNameTextField.contents
      years := P.yearsBetween s.vc.viewModel.dateSelected now
      birthDay := dateToString P s.vc.viewModel.dateSelected
      name_letters := hletters.1
      lastName_letters := hletters.2
      name_count := hname
      lastName_count := hlast
      years_ge := hmin
      years_le := hmax }
  have hfields : (s.vc.validated P now).viewModel.client =
      { s.vc.viewModel.client with
        name := some c.name, lastName := some c.lastName, age := some c.years,
        birthDate := some c.birthDay } := by
    simp [validated, storedName, Nat.not_le.mpr hname, Nat.not_le.mpr hlast, hyears, c]
  refine ⟨c, ?_, getBack_saveClient _ _ _, s, now, u, _, by simp [c], hu, hclient, rfl, ?_⟩
  · rw [saveClient_eq, hfields]
    rfl
  · rw [hfields]
    exact ⟨rfl, rfl, rfl, rfl, rfl⟩

/-- What one step adds to the writes: nothing, or the submission of a save tap. -/
theorem step_issued {s s' : MainScreen} {a : Action} (hs : s.vc.viewModel.errors = [])
    (h : step P s a = some s') :
    s'.issued = s.issued ∨ ∃ now autoId, a = .saveTap now autoId ∧
      s'.issued = s.issued ++
        (s.vc.submission P now autoId).writes.map (Write.mk s.taps) := by
  cases StepTo.of_step hs h with
  | saveTap htap => exact Or.inr ⟨_, _, rfl, htap.issued⟩
  | edit | closeTap | confirm | dismiss | cancel | timerFires | startLoading | stopLoading
  | saveCompletion | pop | writeCompletes => exact Or.inl rfl

/-- **Every record the app writes is a complete, valid client**, stored under its own id,
in every run that starts with empty fields and changes the name fields through the
delegate only. No default of the encoder is ever written. -/
theorem issued_valid {user : Option User} {date : Date} {h : List (MainScreen × Action)}
    {s : MainScreen} (r : (system P).Run (initial user date) h s)
    (hdelegate : ∀ p ∈ h, p.2.viaDelegate = true) :
    ∀ w ∈ s.issued, ∃ c : StoredClient P, Stores P h w c := by
  induction r with
  | nil => simp [initial]
  | @snoc t u h a r hstep ih =>
      have hdelegate' : ∀ p ∈ h, p.2.viaDelegate = true :=
        fun p hp => hdelegate p (List.mem_append_left _ hp)
      obtain ⟨herrors, hletters⟩ := run_letterFields r hdelegate'
      have hold : ∀ w ∈ t.issued, ∃ c : StoredClient P, Stores P (h ++ [(t, a)]) w c := by
        intro w hw
        obtain ⟨c, hc⟩ := ih hdelegate' w hw
        exact ⟨c, hc.mono fun p hp => List.mem_append_left _ hp⟩
      intro w hw
      rcases step_issued herrors hstep with hsame | ⟨now, autoId, rfl, hnew⟩
      · exact hold w (hsame ▸ hw)
      · rw [hnew] at hw
        rcases List.mem_append.mp hw with hw | hw
        · exact hold w hw
        · obtain ⟨c, hc⟩ := TapStep.stores herrors hletters hw
          exact ⟨c, hc.mono fun p hp => List.mem_append_right _ hp⟩

/-- The client of the tests, a paste that the delegate refuses, and the tap. -/
def pasteAndSave : List Action :=
  typeNewClient ++ [.changeName ⟨6, 0⟩ "!", .saveTap sampleNow sampleKey]

/-- The client of the tests is stored after a paste that the delegate refuses, with the five
entries that were typed. -/
theorem issued_valid_newClient :
    ∃ s, (system .utc).exec sampleScreen pasteAndSave = some s ∧
      (s.issued.map fun w => w.request.value) =
        [[("id", .string "-MQzA0bcdefghijklmno"), ("name", .string "Dustin"),
          ("lastName", .string "Henderson"), ("years", .number 18),
          ("birthDay", .string "01/01/2003")]] ∧
      ∀ w ∈ s.issued, ∃ c : StoredClient .utc, c.name = "Dustin" ∧ c.years = 18 ∧
        Stores .utc ((system .utc).history sampleScreen pasteAndSave) w c := by
  have hrun : ((system .utc).exec sampleScreen pasteAndSave).any (fun s =>
      (s.issued.map fun w => w.request.value) =
        [[("id", .string "-MQzA0bcdefghijklmno"), ("name", .string "Dustin"),
          ("lastName", .string "Henderson"), ("years", .number 18),
          ("birthDay", .string "01/01/2003")]]) = true := by
    decide +kernel
  obtain ⟨s, hs, hq⟩ := (Option.any_eq_true _ _).mp hrun
  have hrecords := of_decide_eq_true hq
  refine ⟨s, hs, hrecords, fun w hw => ?_⟩
  obtain ⟨c, hc⟩ := issued_valid (.of_exec hs) (by decide +kernel) w hw
  have hvalue : w.request.value ∈ s.issued.map fun w => w.request.value :=
    List.mem_map_of_mem hw
  rw [hrecords, List.mem_singleton, hc.value] at hvalue
  exact ⟨c, by simp_all, by simp_all, hc⟩

end MainScreen

end FirebaseLogin
