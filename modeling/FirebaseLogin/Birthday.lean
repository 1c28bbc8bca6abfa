import FirebaseLogin.MainScreen

/-!
# The Age and the Birth Date

The age check counts the years between two instants, with their time of day; the stored
birth date keeps the day only. On the Gregorian platform the two agree except on an
anniversary of the selected day, at a time of day earlier than that of the selected
instant: there the count misses the last calendar year and is one less than the calendar
years (`TimeZone.Skewed`, `skewedYears`). For a selected day after the day of the tap the
years are negative and counted backwards: there the two differ on an anniversary at a later
time of day, and the count is one *more* than the calendar years.

The picker of the form is in date mode, and its date carries a time of day all the same:
the form starts with the instant of its creation.

## Main results

* `ageErrors_eq_iff`: when two ages give the same errors.
* `tapClient_birthDate`: the stored text is the local day of the selected instant.
* `age_agrees_by_day_iff`: **exactly when the age that is stored and the errors that are
  listed depend on the calendar days only.**
* `anniversary_morning`: the run in which a client of 18 years is stored with 17.
-/

namespace FirebaseLogin

open MainViewController

/-- Two ages give the same errors exactly when they are the same or the typed age is
neither. -/
theorem ageErrors_eq_iff (typed : Option Int) (a b : Int) :
    ageErrors typed a = ageErrors typed b ↔ a = b ∨ (typed ≠ some a ∧ typed ≠ some b) := by
  have hmatch : ∀ y, ageErrors (some y) y ≠ [.birthdayNotMatch] := by
    intro y
    rw [ageErrors]
    split_ifs <;> simp_all
  have hmismatch : ∀ y, typed ≠ some y → ageErrors typed y = [.birthdayNotMatch] :=
    fun y hy => if_pos hy
  constructor
  · intro heq
    by_cases hab : a = b
    · exact Or.inl hab
    · refine Or.inr ⟨?_, ?_⟩
      · rintro rfl
        rw [hmismatch b (by simpa using hab)] at heq
        exact hmatch a heq
      · rintro rfl
        rw [hmismatch a (by simpa using fun h => hab h.symm)] at heq
        exact hmatch b heq.symm
  · rintro (rfl | ⟨ha, hb⟩)
    · rfl
    · rw [hmismatch a ha, hmismatch b hb]

namespace MainScreen

/-- The errors a save tap finds, before it lists them. -/
def tapErrors (P : Platform) (now : Date) (s : MainScreen) : List DataError :=
  (validation P now s.taps s.vc).vc.viewModel.errors

/-- The client a save tap stores when it finds no error. -/
def tapClient (P : Platform) (now : Date) (s : MainScreen) : User :=
  (validation P now s.taps s.vc).vc.viewModel.client

variable {P : Platform} {s : MainScreen}

/-- The errors of a tap are those of the form. -/
theorem tapErrors_eq (hs : (system P).Reachable s) (now : Date) :
    tapErrors P now s = formErrors P s.vc.nameTextField.contents
      s.vc.lastNameTextField.contents s.vc.yearsTextField.contents
      s.vc.viewModel.dateSelected now := by
  rw [tapErrors, validation_eq P now s.taps (errors_eq_nil hs)]
  rfl

/-- The age that is stored is the one that was typed. -/
theorem tapClient_age (hs : (system P).Reachable s) (now : Date) :
    (tapClient P now s).age = intOfString? s.vc.yearsTextField.contents := by
  rw [tapClient, validation_eq P now s.taps (errors_eq_nil hs)]
  rfl

/-- The birth date that is stored is the text of the selected date. -/
theorem tapClient_birthDate (hs : (system P).Reachable s) (now : Date) :
    (tapClient P now s).birthDate = some (dateToString P s.vc.viewModel.dateSelected) := by
  rw [tapClient, validation_eq P now s.taps (errors_eq_nil hs)]
  rfl

/-- The writes a save tap adds store its client. -/
theorem eq_tapClient_of_issued (hs : (system P).Reachable s) {now : Date} {autoId : PushId}
    {s' : MainScreen} (h : step P s (.saveTap now autoId) = some s') :
    ∃ ws, s'.issued = s.issued ++ ws ∧ ∀ w ∈ ws, tapErrors P now s = [] ∧
      ∃ u, s.vc.userId = some u ∧
        w.request = saveClient false u (tapClient P now s) autoId := by
  have herrors := errors_eq_nil hs
  obtain ⟨t, ht, hspec⟩ := step_saveTap (P := P) herrors now autoId
  obtain rfl : t = s' := Option.some.inj (ht.symm.trans h)
  refine ⟨_, hspec.issued, ?_⟩
  intro w hw
  obtain ⟨r, hr, rfl⟩ := List.mem_map.mp hw
  obtain ⟨hE, u, hu, rfl⟩ := eq_saveClient_of_mem_writes hr
  refine ⟨by rw [tapErrors_eq hs, hE], u, hu, ?_⟩
  rw [tapClient, validation_eq P now s.taps herrors]

variable {U : UnicodeData} {z : TimeZone}

/-- The stored text of an accepted tap is the text of one day of our era only. -/
theorem eq_localDate_of_birthDate (hs : (system (.gregorian U z)).Reachable s) {now : Date}
    (hera : 1 ≤ (z.localDate s.vc.viewModel.dateSelected).year) {D : CivilDate}
    (hD : 1 ≤ D.year)
    (h : (tapClient (.gregorian U z) now s).birthDate = some (formatCivil dateFormat D)) :
    D = z.localDate s.vc.viewModel.dateSelected := by
  rw [tapClient_birthDate hs] at h
  exact (formatCivil_injective hera hD (Option.some.inj h)).symm

/-- **The accepted age counts calendar years**, unless the pair is skewed and the form is
one that passes with the skewed count. The bounds of the age leave only the skewed counts
that are a year less: a selected day after that of the tap has none within them. -/
theorem accepted_age_iff (hs : (system (.gregorian U z)).Reachable s) (now : Date) :
    (tapErrors (.gregorian U z) now s = [] → (tapClient (.gregorian U z) now s).age =
        some (calendarYears (z.localDate s.vc.viewModel.dateSelected) (z.localDate now))) ↔
      ¬ (z.Skewed s.vc.viewModel.dateSelected now ∧
        2 < U.count s.vc.nameTextField.contents ∧
        2 < U.count s.vc.lastNameTextField.contents ∧
        intOfString? s.vc.yearsTextField.contents =
          some (skewedYears (z.localDate s.vc.viewModel.dateSelected) (z.localDate now)) ∧
        13 ≤ skewedYears (z.localDate s.vc.viewModel.dateSelected) (z.localDate now) ∧
        skewedYears (z.localDate s.vc.viewModel.dateSelected) (z.localDate now) ≤ 120) := by
  have hyears : (Platform.gregorian U z).yearsBetween s.vc.viewModel.dateSelected now =
      _ := z.yearsBetween_eq_ite s.vc.viewModel.dateSelected now
  rw [tapErrors_eq hs, tapClient_age hs, formErrors_eq_nil_iff, hyears]
  by_cases hskew : z.Skewed s.vc.viewModel.dateSelected now
  · rw [if_pos hskew]
    constructor
    · rintro hage ⟨-, hname, hlast, htyped, hmin, hmax⟩
      have heq := hage ⟨hname, hlast, htyped, hmin, hmax⟩
      rw [htyped] at heq
      exact skewedYears_ne _ _ (Option.some.inj heq)
    · rintro hno ⟨hname, hlast, htyped, hmin, hmax⟩
      exact absurd ⟨hskew, hname, hlast, htyped, hmin, hmax⟩ hno
  · rw [if_neg hskew]
    exact ⟨fun _ h => hskew h.1, fun _ hvalid => hvalid.2.2.1⟩

/-- **The errors depend on the calendar days only**, unless one pair is skewed, the other
is not, and the typed age is one of the two counts: the calendar years, or the skewed count
(a year less, or a year more for a selected day after that of the tap). -/
theorem tapErrors_by_day_iff {s₁ s₂ : MainScreen}
    (hs₁ : (system (.gregorian U z)).Reachable s₁)
    (hs₂ : (system (.gregorian U z)).Reachable s₂) {n₁ n₂ : Date}
    (htexts : s₁.vc.texts = s₂.vc.texts)
    (hday : z.localDate s₁.vc.viewModel.dateSelected =
      z.localDate s₂.vc.viewModel.dateSelected)
    (hnow : z.localDate n₁ = z.localDate n₂) :
    tapErrors (.gregorian U z) n₁ s₁ = tapErrors (.gregorian U z) n₂ s₂ ↔
      ((z.Skewed s₁.vc.viewModel.dateSelected n₁ ↔
          z.Skewed s₂.vc.viewModel.dateSelected n₂) ∨
        (intOfString? s₁.vc.yearsTextField.contents ≠ some (calendarYears
            (z.localDate s₁.vc.viewModel.dateSelected) (z.localDate n₁)) ∧
          intOfString? s₁.vc.yearsTextField.contents ≠ some (skewedYears
            (z.localDate s₁.vc.viewModel.dateSelected) (z.localDate n₁)))) := by
  obtain ⟨hN, hL, hY⟩ : s₁.vc.nameTextField.contents = s₂.vc.nameTextField.contents ∧
      s₁.vc.lastNameTextField.contents = s₂.vc.lastNameTextField.contents ∧
      s₁.vc.yearsTextField.contents = s₂.vc.yearsTextField.contents := by
    simpa [texts] using htexts
  have hyears₁ : (Platform.gregorian U z).yearsBetween s₁.vc.viewModel.dateSelected n₁ =
      _ := z.yearsBetween_eq_ite s₁.vc.viewModel.dateSelected n₁
  have hyears₂ : (Platform.gregorian U z).yearsBetween s₂.vc.viewModel.dateSelected n₂ =
      _ := z.yearsBetween_eq_ite s₂.vc.viewModel.dateSelected n₂
  have hne := skewedYears_ne (z.localDate s₁.vc.viewModel.dateSelected) (z.localDate n₁)
  rw [tapErrors_eq hs₁, tapErrors_eq hs₂, formErrors, formErrors, ← hN, ← hL, ← hY, hyears₁,
    hyears₂, ← hday, ← hnow, List.append_cancel_left_eq, ageErrors_eq_iff]
  by_cases h₁ : z.Skewed s₁.vc.viewModel.dateSelected n₁ <;>
    by_cases h₂ : z.Skewed s₂.vc.viewModel.dateSelected n₂
  · simp [h₁, h₂]
  · simp only [h₁, h₂, if_true, if_false, hne, true_iff, false_or]
    exact And.comm
  · simp only [h₁, h₂, if_true, if_false, hne.symm, false_iff, false_or, not_true_eq_false]
  · simp [h₁, h₂]

/-- **Exactly when age and birth date agree by calendar day.** On the Gregorian platform,
in every reachable state and for every instant of the tap:

* what the tap stores is its client, whose birth date is the text of the local day of the
  selected instant, and of no other day of our era;
* an accepted age is the number of complete calendar years from that day to the day of the
  tap, unless the pair of instants is skewed and the form passes with the skewed count;
* two taps on forms with the same texts, on the same selected day and the same day of the
  tap, find the same errors exactly when both pairs are skewed or neither is, or the typed
  age is neither the calendar years nor the skewed count.

The skewed count is the calendar years less one when the selected day is not after the day of
the tap, and the calendar years plus one when it is. -/
theorem age_agrees_by_day_iff {s₁ s₂ : MainScreen}
    (hs₁ : (system (.gregorian U z)).Reachable s₁)
    (hs₂ : (system (.gregorian U z)).Reachable s₂) (n₁ n₂ : Date)
    (htexts : s₁.vc.texts = s₂.vc.texts)
    (hday : z.localDate s₁.vc.viewModel.dateSelected =
      z.localDate s₂.vc.viewModel.dateSelected)
    (hnow : z.localDate n₁ = z.localDate n₂) :
    let P := Platform.gregorian U z
    let d₁ := s₁.vc.viewModel.dateSelected
    let d₂ := s₂.vc.viewModel.dateSelected
    let typed := intOfString? s₁.vc.yearsTextField.contents
    let c := calendarYears (z.localDate d₁) (z.localDate n₁)
    let c' := skewedYears (z.localDate d₁) (z.localDate n₁)
    ((∀ autoId s', step P s₁ (.saveTap n₁ autoId) = some s' →
        ∃ ws, s'.issued = s₁.issued ++ ws ∧ ∀ w ∈ ws, tapErrors P n₁ s₁ = [] ∧
          ∃ u, s₁.vc.userId = some u ∧
            w.request = saveClient false u (tapClient P n₁ s₁) autoId) ∧
      (tapClient P n₁ s₁).birthDate = some (formatCivil dateFormat (z.localDate d₁)) ∧
      (1 ≤ (z.localDate d₁).year → ∀ D : CivilDate, 1 ≤ D.year →
        (tapClient P n₁ s₁).birthDate = some (formatCivil dateFormat D) →
        D = z.localDate d₁)) ∧
    ((tapErrors P n₁ s₁ = [] → (tapClient P n₁ s₁).age = some c) ↔
      ¬ (z.Skewed d₁ n₁ ∧ 2 < U.count s₁.vc.nameTextField.contents ∧
        2 < U.count s₁.vc.lastNameTextField.contents ∧ typed = some c' ∧
        13 ≤ c' ∧ c' ≤ 120)) ∧
    (tapErrors P n₁ s₁ = tapErrors P n₂ s₂ ↔
      ((z.Skewed d₁ n₁ ↔ z.Skewed d₂ n₂) ∨ (typed ≠ some c ∧ typed ≠ some c'))) := by
  intro P d₁ d₂ typed c c'
  refine ⟨⟨?_, tapClient_birthDate hs₁ n₁, ?_⟩, accepted_age_iff hs₁ n₁,
    tapErrors_by_day_iff hs₁ hs₂ htexts hday hnow⟩
  · intro autoId s' h
    exact eq_tapClient_of_issued hs₁ h
  · intro hera D hD h
    exact eq_localDate_of_birthDate hs₁ hera hD h

/-- An instant of a day, by its hour in UTC. -/
def atHour (day : Date) (hour : Int) : Date := day + hour * (3600 * 10 ^ 9)

/-- The client of the tests, born at three in the afternoon of the selected day. -/
def typeAfternoonClient (years : String) : List Action :=
  typeNewClient ++ [.editYears years, .pickDate (atHour (midnight 2003 1 1) 15)]

/-- Far from an anniversary the hour of the tap does not matter. -/
theorem age_agrees_by_day_newClient :
    ∃ s, (system .utc).exec sampleScreen (typeAfternoonClient "18") = some s ∧
      tapErrors .utc (atHour sampleNow 10) s = tapErrors .utc (atHour sampleNow 16) s := by
  have hrun : ((system .utc).exec sampleScreen (typeAfternoonClient "18")).any
      (fun s => s.vc.viewModel.dateSelected = atHour (midnight 2003 1 1) 15) = true := by
    decide +kernel
  obtain ⟨s, hs, hq⟩ := (Option.any_eq_true _ _).mp hrun
  have hd := of_decide_eq_true hq
  have hreach : (system .utc).Reachable s := .of_exec ⟨_, _, rfl⟩ hs
  refine ⟨s, hs, ((age_agrees_by_day_iff hreach hreach (atHour sampleNow 10)
    (atHour sampleNow 16) rfl rfl (by decide +kernel)).2.2).mpr (Or.inl ?_)⟩
  rw [hd]
  decide +kernel

/-- **The morning of the eighteenth birthday.** With the selected instant in the afternoon,
a tap in the morning of the anniversary stores an age of 17 beside the birth date, from
which 18 calendar years have passed; and it refuses the age of 18, which a tap in the
evening of the same day accepts. -/
theorem anniversary_morning :
    ∃ s t, (system .utc).exec sampleScreen (typeAfternoonClient "17") = some s ∧
      (system .utc).exec sampleScreen (typeAfternoonClient "18") = some t ∧
      tapErrors .utc (atHour (midnight 2021 1 1) 10) s = [] ∧
      (tapClient .utc (atHour (midnight 2021 1 1) 10) s).age = some 17 ∧
      (tapClient .utc (atHour (midnight 2021 1 1) 10) s).birthDate = some "01/01/2003" ∧
      calendarYears ((TimeZone.fixed 0).localDate s.vc.viewModel.dateSelected)
        ((TimeZone.fixed 0).localDate (atHour (midnight 2021 1 1) 10)) = 18 ∧
      tapErrors .utc (atHour (midnight 2021 1 1) 10) t = [.birthdayNotMatch] ∧
      tapErrors .utc (atHour (midnight 2021 1 1) 16) t = [] := by
  have hrun : ((system .utc).exec sampleScreen (typeAfternoonClient "17")).any (fun s =>
      tapErrors .utc (atHour (midnight 2021 1 1) 10) s = [] ∧
      (tapClient .utc (atHour (midnight 2021 1 1) 10) s).age = some 17 ∧
      (tapClient .utc (atHour (midnight 2021 1 1) 10) s).birthDate = some "01/01/2003" ∧
      calendarYears ((TimeZone.fixed 0).localDate s.vc.viewModel.dateSelected)
        ((TimeZone.fixed 0).localDate (atHour (midnight 2021 1 1) 10)) = 18) = true := by
    decide +kernel
  obtain ⟨s, hs, hsq⟩ := (Option.any_eq_true _ _).mp hrun
  have hrun : ((system .utc).exec sampleScreen (typeAfternoonClient "18")).any (fun t =>
      tapErrors .utc (atHour (midnight 2021 1 1) 10) t = [.birthdayNotMatch] ∧
      tapErrors .utc (atHour (midnight 2021 1 1) 16) t = []) = true := by
    decide +kernel
  obtain ⟨t, ht, htq⟩ := (Option.any_eq_true _ _).mp hrun
  obtain ⟨hE, hage, hbirth, hyears⟩ := of_decide_eq_true hsq
  obtain ⟨hmorning, hevening⟩ := of_decide_eq_true htq
  exact ⟨s, t, hs, ht, hE, hage, hbirth, hyears, hmorning, hevening⟩

end MainScreen

end FirebaseLogin
