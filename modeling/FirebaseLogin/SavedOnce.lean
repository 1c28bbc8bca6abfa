import FirebaseLogin.FormClearing
import FirebaseLogin.StoredData

/-!
# One Form, One Write

Nothing but a queued block disables the save button, so that a second tap may be handled
before it runs, and a delayed block enables the button again whatever the write does. What
rules out a second write of the same form is the form itself: the tap that writes empties
its three fields, and the validators reject an empty one, whatever the view model still
holds of the client. Between two writes the user has filled in every field again.

## Main results

* `exists_issuing_tap`: the tap that issued a write, and the runs before and after it.
* `edited_between_writes`: **between any two writes of a screen each of the three fields
  has been edited.**
-/

namespace FirebaseLogin

namespace MainScreen

open MainViewController TransitionSystem

variable {P : Platform} {s s' : MainScreen} {a : Action}

/-! ### The writes of a run -/

/-- The save tap that issues a write: the form is valid, and the write is the only one it
adds. -/
structure Issues (P : Platform) (t : MainScreen) (a : Action) (u : MainScreen) (w : Write) :
    Prop where
  step_eq : step P t a = some u
  issued : u.issued = t.issued ++ [w]
  valid : ∃ now autoId, a = .saveTap now autoId ∧
    formErrors P t.vc.nameTextField.contents t.vc.lastNameTextField.contents
      t.vc.yearsTextField.contents t.vc.viewModel.dateSelected now = []

/-- A step issues no write or one. -/
theorem step_issues (herrors : s.vc.viewModel.errors = []) (h : step P s a = some s') :
    s'.issued = s.issued ∨ ∃ w, Issues P s a s' w := by
  rcases step_issued herrors h with hsame | ⟨now, autoId, rfl, hissued⟩
  · exact Or.inl hsame
  · rcases submission_cases P now autoId s.vc with ⟨m, -, hw⟩ | ⟨-, hw⟩ | ⟨r, -, hw⟩
    · rw [hw] at hissued
      exact Or.inl (by simpa using hissued)
    · rw [hw] at hissued
      exact Or.inl (by simpa using hissued)
    · have hmem : r ∈ (s.vc.submission P now autoId).writes := by
        rw [hw]
        exact List.mem_cons_self
      obtain ⟨hvalid, -⟩ := eq_saveClient_of_mem_writes hmem
      rw [hw] at hissued
      exact Or.inr ⟨⟨s.taps, r⟩, h, hissued, now, autoId, rfl, hvalid⟩

/-- After the tap that issued a write the fields are empty. -/
theorem Issues.text_empty {t u : MainScreen} {w : Write} (h : Issues P t a u w)
    (herrors : t.vc.viewModel.errors = []) (f : FormField) : u.vc.text f = "" := by
  obtain ⟨hstep, -, now, autoId, rfl, hvalid⟩ := h
  obtain ⟨u', hu', htap⟩ := step_saveTap (P := P) herrors now autoId
  obtain rfl : u' = u := Option.some.inj (hu'.symm.trans hstep)
  exact textsEmpty_iff.mp (AfterTap.textsEmpty_of_valid htap.vc hvalid) f

/-- **The tap that issued a write.** A write that was not there at the start of a run was
issued by a tap of the run. -/
theorem exists_issuing_tap {h : List (MainScreen × Action)} (r : (system P).Run s h s')
    (herrors : s.vc.viewModel.errors = []) {i : Nat} {w : Write}
    (hi : s.issued.length ≤ i) (hw : s'.issued[i]? = some w) :
    ∃ h₁ t a u h₂, h = h₁ ++ (t, a) :: h₂ ∧ (system P).Run s h₁ t ∧
      t.vc.viewModel.errors = [] ∧ t.issued.length = i ∧ Issues P t a u w ∧
      (system P).Run u h₂ s' := by
  induction r with
  | nil =>
      have hlt := (List.getElem?_eq_some_iff.mp hw).1
      omega
  | @snoc t u h a r hstep ih =>
      have ht : t.vc.viewModel.errors = [] :=
        r.invariant_of_step (I := fun t => t.vc.viewModel.errors = []) herrors
          fun _ _ _ ht hstep => step_errors ht hstep
      -- the write was there before the last step
      have hold : t.issued[i]? = some w → ∃ h₁ t' a' u' h₂, h ++ [(t, a)] =
          h₁ ++ (t', a') :: h₂ ∧ (system P).Run s h₁ t' ∧ t'.vc.viewModel.errors = [] ∧
          t'.issued.length = i ∧ Issues P t' a' u' w ∧ (system P).Run u' h₂ u := by
        intro hw'
        obtain ⟨h₁, t', a', u', h₂, rfl, r₁, herr, hlen, hissues, r₂⟩ := ih hw'
        exact ⟨h₁, t', a', u', h₂ ++ [(t, a)], by simp, r₁, herr, hlen, hissues,
          Run.snoc r₂ hstep⟩
      rcases step_issues ht hstep with hsame | ⟨w', hissues⟩
      · exact hold (hsame ▸ hw)
      · rw [hissues.issued, List.getElem?_append] at hw
        split_ifs at hw with hlt
        · exact hold hw
        · rw [List.getElem?_singleton] at hw
          split_ifs at hw with hzero
          · obtain rfl := Option.some.inj hw
            exact ⟨h, t, a, u, [], rfl, r, ht, by omega, hissues, Run.nil u⟩

/-- **One form is saved at most once.** Take any two writes a screen has issued, the `i`-th
and the `j`-th. They come from two taps of the run, and between the two the user has edited
each of the three fields. -/
theorem edited_between_writes {user : Option User} {date : Date}
    {h : List (MainScreen × Action)} (r : (system P).Run (initial user date) h s)
    {i j : Nat} {v w : Write} (hij : i < j) (hv : s.issued[i]? = some v)
    (hw : s.issued[j]? = some w) :
    ∃ h₁ t₁ a₁ u₁ h₂ t₂ a₂ u₂ h₃, h = h₁ ++ (t₁, a₁) :: (h₂ ++ (t₂, a₂) :: h₃) ∧
      t₁.issued.length = i ∧ Issues P t₁ a₁ u₁ v ∧
      t₂.issued.length = j ∧ Issues P t₂ a₂ u₂ w ∧
      ∀ f, ∃ p ∈ h₂, Edits P f p.1 p.2 := by
  obtain ⟨h₁, t₁, a₁, u₁, h', rfl, -, herrors₁, hi, hissues₁, r'⟩ :=
    exists_issuing_tap r rfl (Nat.zero_le i) hv
  have herrors : u₁.vc.viewModel.errors = [] := step_errors herrors₁ hissues₁.step_eq
  have hlength : u₁.issued.length ≤ j := by
    rw [hissues₁.issued, List.length_append, List.length_singleton]
    omega
  obtain ⟨h₂, t₂, a₂, u₂, h₃, rfl, r₂, -, hj, hissues₂, -⟩ :=
    exists_issuing_tap r' herrors hlength hw
  refine ⟨h₁, t₁, a₁, u₁, h₂, t₂, a₂, u₂, h₃, rfl, hi, hissues₁, hj, hissues₂, ?_⟩
  intro f
  -- the first tap emptied the field, and the second one found it filled in
  obtain ⟨now, autoId, rfl, hvalid⟩ := hissues₂.valid
  have hempty := hissues₁.text_empty herrors₁ f
  exact (run_text_empty r₂ herrors hempty).resolve_left (text_ne_empty_of_valid hvalid f)

/-- The push id of a later write. -/
def laterKey : PushId where
  val := "-MQzA0bcdefghijklmnp"
  length_eq := by decide
  chars := by
    have hall : "-MQzA0bcdefghijklmnp".toList.all (· ∈ pushChars.toList) = true := by decide
    intro c hc
    exact of_decide_eq_true (List.all_eq_true.mp hall c hc)

/-- The client of the tests is saved, tapped again without effect, typed once more and saved
again. -/
def savedTwice : List Action :=
  typeNewClient ++ [.saveTap sampleNow sampleKey, .saveTap sampleNow laterKey, .alertOK] ++
    typeNewClient ++ [.saveTap sampleNow laterKey]

/-- The two writes of a client saved twice are separated by an edit of each field. -/
theorem edited_between_writes_savedTwice :
    ∃ s, (system .utc).exec sampleScreen savedTwice = some s ∧ s.issued.length = 2 ∧
      ∃ h₁ t₁ a₁ h₂ t₂ a₂ h₃, (system .utc).history sampleScreen savedTwice =
          h₁ ++ (t₁, a₁) :: (h₂ ++ (t₂, a₂) :: h₃) ∧
        t₁.issued.length = 0 ∧ t₂.issued.length = 1 ∧
        ∀ f, ∃ p ∈ h₂, Edits .utc f p.1 p.2 := by
  have hrun : ((system .utc).exec sampleScreen savedTwice).any (fun s =>
      s.issued.length = 2) = true := by
    decide +kernel
  obtain ⟨s, hs, hq⟩ := (Option.any_eq_true _ _).mp hrun
  have hlength : s.issued.length = 2 := of_decide_eq_true hq
  have hv : s.issued[0]? = some (s.issued.get ⟨0, by omega⟩) := List.getElem?_eq_getElem _
  have hw : s.issued[1]? = some (s.issued.get ⟨1, by omega⟩) := List.getElem?_eq_getElem _
  obtain ⟨h₁, t₁, a₁, u₁, h₂, t₂, a₂, u₂, h₃, heq, hi, -, hj, -, hedits⟩ :=
    edited_between_writes (.of_exec hs) Nat.zero_lt_one hv hw
  exact ⟨s, hs, hlength, h₁, t₁, a₁, h₂, t₂, a₂, h₃, heq, hi, hj, hedits⟩

end MainScreen

end FirebaseLogin
