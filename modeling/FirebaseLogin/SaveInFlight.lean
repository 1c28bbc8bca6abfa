import FirebaseLogin.MainScreen

/-!
# Interaction while a Save is in Flight

An accepted tap queues `startLoading`, which disables the two buttons, issues its write,
and delays `stopLoading`, which enables them again, by one second. The delay is fixed: it
does not wait for the write. The buttons are disabled during a write exactly as long as
no `stopLoading` block runs before the database has answered.

## Main results

* `step_busyDisabled`: what one step preserves.
* `busyDisabled_iff`: **the buttons stay disabled along a run if and only if no
  `stopLoading` block of the run overtakes a write.**
* `slow_write_leaves_buttons_enabled`: the run in which a slow write is overtaken.
-/

namespace FirebaseLogin

namespace MainScreen

open MainViewController TransitionSystem

variable {P : Platform} {s s' : MainScreen} {a : Action}

/-- A write is under way: it is not answered, and the `startLoading` block of its tap has
run. -/
def UnderWay (s : MainScreen) (w : Write) : Prop :=
  w ∈ s.inFlight ∧ Block.startLoading w.tap ∉ s.mainQueue

/-- Whether a write is under way is decided by the queues of the screen. -/
instance (s : MainScreen) (w : Write) : Decidable (UnderWay s w) :=
  inferInstanceAs (Decidable (_ ∧ _))

/-- The two buttons are disabled while a write is under way. -/
def BusyDisabled (s : MainScreen) : Prop :=
  ∀ w, UnderWay s w → s.vc.saveButtonEnabled = false ∧ s.vc.closeButtonEnabled = false

/-- A `stopLoading` block is about to run although a write is under way. -/
def Overtakes (s : MainScreen) (a : Action) : Prop :=
  a = .runBlock ∧ (∃ tap, s.mainQueue.head? = some (.stopLoading tap)) ∧ ∃ w, UnderWay s w

/-- Whether the buttons are disabled as they should is decided over the writes in flight. -/
instance (s : MainScreen) : Decidable (BusyDisabled s) :=
  decidable_of_iff (∀ w ∈ s.inFlight, UnderWay s w →
      s.vc.saveButtonEnabled = false ∧ s.vc.closeButtonEnabled = false)
    ⟨fun h w hw => h w hw.1 hw, fun h w _ hw => h w hw⟩

/-- A write that is under way was so before, when the step only takes writes away and only
adds blocks. -/
theorem UnderWay.of_subset {w : Write} (h : UnderWay s' w)
    (hflight : ∀ w ∈ s'.inFlight, w ∈ s.inFlight)
    (hqueue : ∀ tap, Block.startLoading tap ∈ s.mainQueue →
      Block.startLoading tap ∈ s'.mainQueue) : UnderWay s w :=
  ⟨hflight w h.1, fun hw => h.2 (hqueue w.tap hw)⟩

/-- Removing a block that starts no loading does not put a write under way. -/
theorem UnderWay.of_tail {w : Write} {b : Block} {queue : List Block}
    (hq : s.mainQueue = b :: queue) (hb : ∀ tap, b ≠ .startLoading tap)
    (hflight : w ∈ s.inFlight) (hw : Block.startLoading w.tap ∉ queue) : UnderWay s w := by
  refine ⟨hflight, ?_⟩
  rw [hq, List.mem_cons]
  rintro (h | h)
  · exact hb w.tap h.symm
  · exact hw h

/-- **One step keeps the buttons disabled** during a write, unless a `stopLoading` block
overtakes it. -/
theorem step_busyDisabled (herrors : s.vc.viewModel.errors = []) (h : step P s a = some s')
    (hs : BusyDisabled s) (hok : ¬ Overtakes s a) : BusyDisabled s' := by
  intro w hw
  cases StepTo.of_step herrors h with
  | edit hvc =>
      obtain ⟨-, -, hsave, hclose, -⟩ := edited_frame hvc
      rw [hsave, hclose]
      exact hs w hw
  | saveTap htap =>
      rw [htap.vc.saveButtonEnabled, htap.vc.closeButtonEnabled]
      -- the write of this tap is not under way: its own block is still queued
      obtain ⟨hflight, hqueue⟩ := hw
      rw [htap.mainQueue] at hqueue
      rw [htap.inFlight] at hflight
      rcases List.mem_append.mp hflight with hold | hnew
      · exact hs w ⟨hold, fun hmem => hqueue (List.mem_append_left _ hmem)⟩
      · obtain ⟨r, -, rfl⟩ := List.mem_map.mp hnew
        exact absurd (List.mem_append_right _ (List.mem_singleton.mpr rfl)) hqueue
  | closeTap | dismiss | cancel => exact hs w hw
  | confirm =>
      exact hs w (hw.of_subset (fun _ h => h) fun tap h => List.mem_append_left _ h)
  | timerFires =>
      exact hs w (hw.of_subset (fun _ h => h) fun tap h => List.mem_append_left _ h)
  | writeCompletes =>
      exact hs w (hw.of_subset (fun _ h => List.mem_of_mem_erase h)
        fun tap h => List.mem_append_left _ h)
  | startLoading => exact ⟨rfl, rfl⟩
  | stopLoading hq =>
      have hold := UnderWay.of_tail hq (by simp) hw.1 hw.2
      exact absurd ⟨rfl, ⟨_, by rw [hq, List.head?_cons]⟩, w, hold⟩ hok
  | saveCompletion hq => exact hs w (UnderWay.of_tail hq (by simp) hw.1 hw.2)
  | pop hq => exact hs w (UnderWay.of_tail hq (by simp) hw.1 hw.2)

/-- A block that overtakes a write enables the buttons during it. -/
theorem not_busyDisabled_of_overtakes (h : step P s a = some s') (ho : Overtakes s a) :
    ¬ BusyDisabled s' := by
  obtain ⟨rfl, ⟨tap, htap⟩, w, hflight, hqueue⟩ := ho
  obtain ⟨queue, hq⟩ := List.head?_eq_some_iff.mp htap
  simp only [step, handle, hq, execute, Option.map_some, Option.some.injEq] at h
  subst h
  intro hbusy
  have hw : Block.startLoading w.tap ∉ queue :=
    fun hmem => hqueue (by rw [hq]; exact List.mem_cons_of_mem _ hmem)
  have hsave := (hbusy w ⟨hflight, hw⟩).1
  cases hsave

/-- **The buttons stay disabled during every write of a run if and only if no
`stopLoading` block overtakes a write.** -/
theorem busyDisabled_iff {user : Option User} {date : Date}
    {h : List (MainScreen × Action)} (r : (system P).Run (initial user date) h s) :
    (∀ x ∈ visited h s, BusyDisabled x) ↔ ∀ p ∈ h, ¬ Overtakes p.1 p.2 := by
  constructor
  · rintro hall ⟨t, a⟩ hmem ho
    obtain ⟨h₁, u, h₂, rfl, -, hstep, r₂⟩ := r.exists_split hmem
    have hu : u ∈ visited (h₁ ++ (t, a) :: h₂) s := by
      have := r₂.start_mem_visited
      simp only [visited, List.map_append, List.map_cons, List.mem_append,
        List.mem_cons] at this ⊢
      tauto
    exact not_busyDisabled_of_overtakes hstep ho (hall u hu)
  · intro hok
    have hinv := r.invariant_visited (C := fun t a => ¬ Overtakes t a)
      (I := fun s => s.vc.viewModel.errors = [] ∧ BusyDisabled s) hok
      ⟨rfl, fun w hw => by simp [UnderWay, initial] at hw⟩
      fun t a u ha ht hstep =>
        ⟨step_errors ht.1 hstep, step_busyDisabled ht.1 hstep ht.2 ha⟩
    intro x hx
    exact (hinv x hx).2

/-- A save whose write is answered within the second: typed, tapped, and run until the
buttons are enabled again. -/
def promptSave : List Action :=
  typeNewClient ++ [.saveTap sampleNow sampleKey, .runBlock, .writeCompletes 0 none,
    .runBlock, .alertOK, .timerFires, .runBlock]

/-- A save whose write is not answered when the second has passed. -/
def slowSave : List Action :=
  typeNewClient ++ [.saveTap sampleNow sampleKey, .runBlock, .timerFires, .runBlock]

/-- No block overtakes the write of a prompt save. -/
theorem busyDisabled_promptSave :
    ∃ s, (system .utc).exec sampleScreen promptSave = some s ∧ s.issued.length = 1 ∧
      ∀ p ∈ (system .utc).history sampleScreen promptSave, ¬ Overtakes p.1 p.2 := by
  have hrun : ((system .utc).exec sampleScreen promptSave).any (fun s =>
      s.issued.length = 1 ∧
      ∀ x ∈ visited ((system .utc).history sampleScreen promptSave) s, BusyDisabled x) =
        true := by
    decide +kernel
  obtain ⟨s, hs, hq⟩ := (Option.any_eq_true _ _).mp hrun
  obtain ⟨hissued, hbusy⟩ := of_decide_eq_true hq
  exact ⟨s, hs, hissued, (busyDisabled_iff (.of_exec hs)).mp hbusy⟩

/-- **A slow write leaves the buttons enabled.** One second after the tap both buttons are
enabled while the write is under way, so that the user can log out during it. -/
theorem slow_write_leaves_buttons_enabled :
    ∃ s, (system .utc).Reachable s ∧ (system .utc).exec sampleScreen slowSave = some s ∧
      (∀ p ∈ (system .utc).history sampleScreen slowSave, allowed p.1 p.2 = true) ∧
      (∃ w ∈ s.inFlight, UnderWay s w) ∧ s.vc.saveButtonEnabled = true ∧
      s.vc.closeButtonEnabled = true ∧ ¬ BusyDisabled s := by
  have hrun : ((system .utc).exec sampleScreen slowSave).any (fun s =>
      (∃ w ∈ s.inFlight, UnderWay s w) ∧ s.vc.saveButtonEnabled = true ∧
      s.vc.closeButtonEnabled = true ∧ ¬ BusyDisabled s) = true := by
    decide +kernel
  obtain ⟨s, hs, hq⟩ := (Option.any_eq_true _ _).mp hrun
  exact ⟨s, .of_exec ⟨_, _, rfl⟩ hs, hs, by decide +kernel, of_decide_eq_true hq⟩

end MainScreen

end FirebaseLogin
