import FirebaseLogin.MainScreen

/-!
# The Outcome of a Save

When the database answers a write, a block on the main queue presents the outcome from the
screen, whatever the screen is doing at that moment. A screen that presents another alert,
or that has left the window, shows nothing, and the outcome is not presented again.

For each tap, an outcome is pending (its write is in flight, or its block is queued) or it
has been delivered; the counting invariant `OutcomeInv` says that these exclude each other.

## Main results

* `step_outcome`: everything a step can do to the outcome of a tap.
* `outcome_of_completion`: the delivery of an outcome, once its block has run.
* `outcome_shown_iff`: **the outcome of a completed write is shown exactly once if and only
  if the screen can present when its block runs.**
* `outcome_lost_behind_logout_alert`: the run in which the error of a save is never seen.
-/

namespace FirebaseLogin

/-- The outcome alerts of a tap. -/
def Alert.isOutcomeOf (tap : Nat) : Alert → Bool
  | .saveOutcome k _ => k == tap
  | _ => false

/-- The completion blocks of a tap. -/
def Block.isCompletionOf (tap : Nat) : Block → Bool
  | .saveCompletion k _ => k == tap
  | _ => false

namespace MainScreen

open MainViewController TransitionSystem

variable {P : Platform} {s s' : MainScreen} {a : Action}

/-- The outcome alerts of a tap that were shown to the user. -/
def outcomesShown (s : MainScreen) (tap : Nat) : List Alert :=
  s.shown.filter (Alert.isOutcomeOf tap)

/-- The outcomes of a tap that are still to come: unanswered writes and queued blocks. -/
def pendingOutcomes (s : MainScreen) (tap : Nat) : Nat :=
  s.inFlight.countP (fun w => w.tap == tap) + s.mainQueue.countP (Block.isCompletionOf tap)

/-! ### What a step does to the outcomes -/

/-- A save tap shows no outcome. -/
theorem TapStep.outcomesShown_eq {now : Date} {autoId : PushId}
    (h : TapStep P now autoId s s') (tap : Nat) :
    outcomesShown s' tap = outcomesShown s tap := by
  have halerts :
      (s.vc.submission P now autoId).alerts.filter (Alert.isOutcomeOf tap) = [] := by
    rcases submission_cases P now autoId s.vc with ⟨m, ha, -⟩ | ⟨ha, -⟩ | ⟨w, ha, -⟩ <;>
      rw [ha] <;> rfl
  cases hp : s.canPresent with
  | true =>
      rw [outcomesShown, (h.presented hp).2, List.filter_append, halerts]
      simp [outcomesShown]
  | false => rw [outcomesShown, (h.blocked hp).2, outcomesShown]

/-- A save tap queues no completion. -/
theorem TapStep.countP_mainQueue {now : Date} {autoId : PushId}
    (h : TapStep P now autoId s s') (tap : Nat) :
    s'.mainQueue.countP (Block.isCompletionOf tap) =
      s.mainQueue.countP (Block.isCompletionOf tap) := by
  rw [h.mainQueue]
  simp [Block.isCompletionOf]

/-- A save tap adds at most one pending outcome, its own. -/
theorem TapStep.pendingOutcomes_le {now : Date} {autoId : PushId}
    (h : TapStep P now autoId s s') :
    pendingOutcomes s' s.taps ≤ pendingOutcomes s s.taps + 1 := by
  have hlength : (s.vc.submission P now autoId).writes.length ≤ 1 := by
    rcases submission_cases P now autoId s.vc with ⟨m, -, hw⟩ | ⟨-, hw⟩ | ⟨w, -, hw⟩ <;>
      simp [hw]
  have hnew := List.countP_le_length (p := fun w : Write => w.tap == s.taps)
    (l := (s.vc.submission P now autoId).writes.map (Write.mk s.taps))
  rw [List.length_map] at hnew
  simp only [pendingOutcomes, h.countP_mainQueue, h.inFlight, List.countP_append]
  omega

/-- A save tap leaves the outcomes of the other taps pending as they were. -/
theorem TapStep.pendingOutcomes_eq {now : Date} {autoId : PushId}
    (h : TapStep P now autoId s s') {tap : Nat} (htap : tap ≠ s.taps) :
    pendingOutcomes s' tap = pendingOutcomes s tap := by
  have hnew : ((s.vc.submission P now autoId).writes.map (Write.mk s.taps)).countP
      (fun w => w.tap == tap) = 0 := by
    rw [List.countP_eq_zero]
    intro w hw
    obtain ⟨r, -, rfl⟩ := List.mem_map.mp hw
    simpa using fun heq => htap heq.symm
  simp only [pendingOutcomes, h.countP_mainQueue, h.inFlight, List.countP_append, hnew]
  omega

/-- The answer of a write moves its outcome from the writes to the queue. -/
theorem pendingOutcomes_writeCompletes {w : Write} (hw : w ∈ s.inFlight)
    (error : Option String) (tap : Nat) :
    pendingOutcomes { s with
        inFlight := s.inFlight.erase w
        mainQueue := s.mainQueue ++ [.saveCompletion w.tap error] } tap =
      pendingOutcomes s tap := by
  have herase := (List.perm_cons_erase hw).countP_eq (fun w => w.tap == tap)
  rw [List.countP_cons] at herase
  simp only [pendingOutcomes, List.countP_append, List.countP_singleton, Block.isCompletionOf,
    herase]
  by_cases htap : w.tap = tap
  · simp only [htap, beq_self_eq_true, if_true]
    omega
  · simp [htap]

/-- A completion block delivers the outcome of its tap: it is no longer pending, and it is
shown by a screen that can present. -/
theorem outcome_delivered {tap : Nat} {error : Option String} {queue : List Block}
    (hq : s.mainQueue = .saveCompletion tap error :: queue) :
    pendingOutcomes ({ s with mainQueue := queue }.perform
        (.present (.saveOutcome tap error))) tap + 1 = pendingOutcomes s tap ∧
      outcomesShown ({ s with mainQueue := queue }.perform
          (.present (.saveOutcome tap error))) tap =
        outcomesShown s tap ++ (if s.canPresent then [.saveOutcome tap error] else []) := by
  refine ⟨?_, ?_⟩
  · simp only [pendingOutcomes, perform, hq, List.countP_cons, Block.isCompletionOf,
      beq_self_eq_true, if_true]
    omega
  · have hsame : { s with mainQueue := queue }.canPresent = s.canPresent := rfl
    simp only [outcomesShown, perform, hsame]
    cases s.canPresent <;> simp [Alert.isOutcomeOf]

/-- What a step can do to the outcome of a tap. -/
inductive OutcomeStep (s : MainScreen) (a : Action) (s' : MainScreen) (tap : Nat) : Prop
  /-- Nothing is added and nothing is shown. -/
  | quiet : s.taps ≤ s'.taps → pendingOutcomes s' tap = pendingOutcomes s tap →
      outcomesShown s' tap = outcomesShown s tap → OutcomeStep s a s' tap
  /-- The tap itself. -/
  | tapped : tap = s.taps → s'.taps = s.taps + 1 →
      pendingOutcomes s' tap ≤ pendingOutcomes s tap + 1 →
      outcomesShown s' tap = outcomesShown s tap → OutcomeStep s a s' tap
  /-- The completion block runs: the outcome is shown by a screen that can present. -/
  | delivered (error : Option String) : a = .runBlock →
      s.mainQueue.head? = some (.saveCompletion tap error) → s'.taps = s.taps →
      pendingOutcomes s' tap + 1 = pendingOutcomes s tap →
      outcomesShown s' tap =
        outcomesShown s tap ++ (if s.canPresent then [.saveOutcome tap error] else []) →
      OutcomeStep s a s' tap

/-- **Everything a step can do to the outcome of a tap.** -/
theorem step_outcome (hs : Sound s) (h : step P s a = some s') (tap : Nat) :
    OutcomeStep s a s' tap := by
  cases StepTo.of_step hs.errors h with
  | saveTap htap =>
      by_cases heq : tap = s.taps
      · exact .tapped heq htap.taps (heq ▸ htap.pendingOutcomes_le) (htap.outcomesShown_eq tap)
      · exact .quiet (by rw [htap.taps]; omega) (htap.pendingOutcomes_eq heq)
          (htap.outcomesShown_eq tap)
  | closeTap =>
      refine .quiet (le_refl _) rfl ?_
      simp only [outcomesShown, perform]
      split_ifs <;> simp [Alert.isOutcomeOf]
  | confirm =>
      exact .quiet (le_refl _) (by simp [pendingOutcomes, Block.isCompletionOf]) rfl
  | timerFires ht =>
      obtain ⟨k, rfl⟩ := hs.timers _ (by rw [ht]; exact List.mem_cons_self)
      exact .quiet (le_refl _) (by simp [pendingOutcomes, Block.isCompletionOf]) rfl
  | startLoading hq =>
      exact .quiet (le_refl _) (by simp [pendingOutcomes, hq, Block.isCompletionOf]) rfl
  | stopLoading hq =>
      exact .quiet (le_refl _) (by simp [pendingOutcomes, hq, Block.isCompletionOf]) rfl
  | pop hq =>
      exact .quiet (le_refl _) (by simp [pendingOutcomes, hq, Block.isCompletionOf]) rfl
  | writeCompletes hw => exact .quiet (le_refl _) (pendingOutcomes_writeCompletes hw _ tap) rfl
  | @saveCompletion k error queue hq =>
      by_cases heq : k = tap
      · subst heq
        obtain ⟨hpending, hshown⟩ := outcome_delivered hq
        exact .delivered error rfl (by rw [hq, List.head?_cons]) rfl hpending hshown
      · refine .quiet (le_refl _) ?_ ?_
        · simp [pendingOutcomes, perform, hq, Block.isCompletionOf, heq]
        · simp only [outcomesShown, perform]
          split_ifs <;> simp [Alert.isOutcomeOf, heq]
  | edit | dismiss | cancel => exact .quiet (le_refl _) rfl rfl

/-! ### The counting invariant -/

/-- An outcome is pending or shown, at most once in all; taps to come have none. -/
structure OutcomeInv (s : MainScreen) : Prop where
  sound : Sound s
  once : ∀ tap, pendingOutcomes s tap + (outcomesShown s tap).length ≤ 1
  fresh : ∀ tap, s.taps ≤ tap → pendingOutcomes s tap = 0 ∧ outcomesShown s tap = []

/-- The invariant holds initially. -/
theorem outcomeInv_initial (user : Option User) (date : Date) :
    OutcomeInv (initial user date) where
  sound := sound_initial user date
  once tap := by simp [initial, pendingOutcomes, outcomesShown]
  fresh tap _ := by simp [initial, pendingOutcomes, outcomesShown]

/-- A step keeps the invariant. -/
theorem step_outcomeInv (hs : OutcomeInv s) (h : step P s a = some s') : OutcomeInv s' where
  sound := step_sound hs.sound h
  once tap := by
    have honce := hs.once tap
    cases step_outcome hs.sound h tap with
    | quiet _ hpending hshown => rw [hpending, hshown]; exact honce
    | tapped htap _ hpending hshown =>
        obtain ⟨hzero, hnil⟩ := hs.fresh tap (by omega)
        rw [hshown, hnil, List.length_nil]
        omega
    | delivered error _ _ _ hpending hshown =>
        rw [hshown, List.length_append]
        split_ifs <;> simp only [List.length_cons, List.length_nil] <;> omega
  fresh tap htap := by
    cases step_outcome hs.sound h tap with
    | quiet htaps hpending hshown =>
        rw [hpending, hshown]
        exact hs.fresh tap (by omega)
    | tapped heq htaps _ _ => omega
    | delivered error _ _ htaps hpending _ =>
        have := (hs.fresh tap (by omega)).1
        omega

/-- The invariant holds along every run. -/
theorem run_outcomeInv {user : Option User} {date : Date} {h : List (MainScreen × Action)}
    (r : (system P).Run (initial user date) h s) : OutcomeInv s :=
  r.invariant_of_step (outcomeInv_initial user date)
    fun _ _ _ ht hstep => step_outcomeInv ht hstep

/-- Once nothing of a tap is pending, its outcome does not change any more. -/
theorem run_outcomesShown {h : List (MainScreen × Action)} (r : (system P).Run s h s')
    (hs : OutcomeInv s) {tap : Nat} (htap : tap < s.taps) (hzero : pendingOutcomes s tap = 0) :
    outcomesShown s' tap = outcomesShown s tap := by
  have hinv := r.invariant_of_step (I := fun t => OutcomeInv t ∧ tap < t.taps ∧
      pendingOutcomes t tap = 0 ∧ outcomesShown t tap = outcomesShown s tap)
    ⟨hs, htap, hzero, rfl⟩ ?_
  · exact hinv.2.2.2
  · rintro t a u ⟨ht, hlt, hpend, hshown⟩ hstep
    refine ⟨step_outcomeInv ht hstep, ?_⟩
    cases step_outcome ht.sound hstep tap with
    | quiet htaps hpending hsame =>
        exact ⟨by omega, by omega, hsame.trans hshown⟩
    | tapped heq _ _ _ => omega
    | delivered error _ _ _ hpending _ => omega

/-! ### The delivery of an outcome -/

/-- **The delivery of an outcome.** Once its completion block has run, the outcome of a tap
has been shown once if the screen could present, and is never shown otherwise. -/
theorem outcome_of_completion {user : Option User} {date : Date}
    {h : List (MainScreen × Action)} (r : (system P).Run (initial user date) h s)
    {t : MainScreen} {tap : Nat} {error : Option String} (hmem : (t, .runBlock) ∈ h)
    (hhead : t.mainQueue.head? = some (.saveCompletion tap error)) :
    outcomesShown s tap = if t.canPresent then [.saveOutcome tap error] else [] := by
  obtain ⟨h₁, u, h₂, -, r₁, hstep, r₂⟩ := r.exists_split hmem
  have ht := run_outcomeInv r₁
  have hu := step_outcomeInv ht hstep
  have hpos : 0 < pendingOutcomes t tap := by
    have hb : Block.saveCompletion tap error ∈ t.mainQueue := List.mem_of_mem_head? hhead
    have := List.countP_pos_iff.mpr ⟨_, hb, show Block.isCompletionOf tap _ = true by
      simp [Block.isCompletionOf]⟩
    rw [pendingOutcomes]
    omega
  have hnil : outcomesShown t tap = [] :=
    List.length_eq_zero_iff.mp (by have := ht.once tap; omega)
  have hlt : tap < t.taps := by
    by_contra hge
    have := (ht.fresh tap (by omega)).1
    omega
  obtain ⟨queue, hq⟩ := List.head?_eq_some_iff.mp hhead
  simp only [system, step, handle, hq, execute, performAll, List.foldl_cons, List.foldl_nil,
    Option.map_some, Option.some.injEq] at hstep
  subst hstep
  obtain ⟨hpending, hshown⟩ := outcome_delivered hq
  have honce := ht.once tap
  rw [run_outcomesShown r₂ hu hlt (by omega), hshown, hnil, List.nil_append]

/-- A queued block stays queued until it runs. -/
theorem step_mem_mainQueue (herrors : s.vc.viewModel.errors = []) (h : step P s a = some s')
    {b : Block} (hb : b ∈ s.mainQueue) :
    b ∈ s'.mainQueue ∨ (a = .runBlock ∧ s.mainQueue.head? = some b) := by
  have hpop : ∀ {c : Block} {queue : List Block}, s.mainQueue = c :: queue →
      b ∈ queue ∨ (Action.runBlock = .runBlock ∧ s.mainQueue.head? = some b) := by
    intro c queue hq
    rw [hq, List.mem_cons] at hb
    rcases hb with rfl | hb
    · exact Or.inr ⟨rfl, by rw [hq, List.head?_cons]⟩
    · exact Or.inl hb
  cases StepTo.of_step herrors h with
  | saveTap htap => exact Or.inl (by rw [htap.mainQueue]; exact List.mem_append_left _ hb)
  | confirm | timerFires | writeCompletes => exact Or.inl (List.mem_append_left _ hb)
  | startLoading hq | stopLoading hq | saveCompletion hq | pop hq => exact hpop hq
  | edit | closeTap | dismiss | cancel => exact Or.inl hb

/-- A queued block is still queued at the end of a run, or a step of the run ran it. -/
theorem run_mem_mainQueue {h : List (MainScreen × Action)} (r : (system P).Run s h s')
    (hs : OutcomeInv s) {b : Block} (hb : b ∈ s.mainQueue) :
    b ∈ s'.mainQueue ∨ ∃ t, (t, .runBlock) ∈ h ∧ t.mainQueue.head? = some b := by
  induction r with
  | nil => exact Or.inl hb
  | @snoc t u h a r hstep ih =>
      have ht : OutcomeInv t :=
        r.invariant_of_step hs fun _ _ _ ht hstep => step_outcomeInv ht hstep
      rcases ih with hqueue | ⟨v, hmem, hhead⟩
      · rcases step_mem_mainQueue ht.sound.errors hstep hqueue with hb' | ⟨rfl, hhead⟩
        · exact Or.inl hb'
        · exact Or.inr ⟨t, by simp, hhead⟩
      · exact Or.inr ⟨v, List.mem_append_left _ hmem, hhead⟩

/-- **No outcome is lost if and only if the screen can present when it arrives.** For
every write the database answers in a run, once its completion is no longer queued there
is a step that ran it; the outcome is shown exactly once if the screen was in the window
and presented nothing at that step, and only then. -/
theorem outcome_shown_iff {user : Option User} {date : Date}
    {h : List (MainScreen × Action)} (r : (system P).Run (initial user date) h s)
    {t : MainScreen} {tap : Nat} {error : Option String}
    (hmem : (t, .writeCompletes tap error) ∈ h)
    (hdone : Block.saveCompletion tap error ∉ s.mainQueue) :
    ∃ v, (v, .runBlock) ∈ h ∧ v.mainQueue.head? = some (.saveCompletion tap error) ∧
      (outcomesShown s tap = [.saveOutcome tap error] ↔
        v.inWindow = true ∧ v.presented = none) := by
  obtain ⟨h₁, u, h₂, rfl, r₁, hstep, r₂⟩ := r.exists_split hmem
  have ht := run_outcomeInv r₁
  have hu := step_outcomeInv ht hstep
  have hqueued : Block.saveCompletion tap error ∈ u.mainQueue := by
    cases StepTo.of_step ht.sound.errors hstep with
    | writeCompletes => exact List.mem_append_right _ (List.mem_singleton.mpr rfl)
    | edit hvc => cases hvc
  obtain ⟨v, hv, hhead⟩ := (run_mem_mainQueue r₂ hu hqueued).resolve_left hdone
  have hv' : (v, .runBlock) ∈ h₁ ++ (t, .writeCompletes tap error) :: h₂ :=
    List.mem_append_right _ (List.mem_cons_of_mem _ hv)
  refine ⟨v, hv', hhead, ?_⟩
  rw [outcome_of_completion r hv' hhead, ← canPresent_iff]
  cases v.canPresent <;> simp

/-- A save whose error is shown. -/
def seenError : List Action :=
  typeNewClient ++ [.saveTap sampleNow sampleKey, .runBlock,
    .writeCompletes 0 (some "Permission denied"), .runBlock, .alertOK, .timerFires, .runBlock]

/-- A save whose error arrives while the user is asked to confirm a logout. -/
def unseenError : List Action :=
  typeNewClient ++ [.saveTap sampleNow sampleKey, .runBlock, .timerFires, .runBlock,
    .closeTap, .writeCompletes 0 (some "Permission denied"), .runBlock, .alertCancel]

/-- The error of a save is shown by a screen that presents nothing. -/
theorem outcome_shown_seenError :
    ∃ s v, (system .utc).exec sampleScreen seenError = some s ∧
      (v, .runBlock) ∈ (system .utc).history sampleScreen seenError ∧
      v.mainQueue.head? = some (.saveCompletion 0 (some "Permission denied")) ∧
      outcomesShown s 0 = [.saveOutcome 0 (some "Permission denied")] ∧
      v.inWindow = true ∧ v.presented = none := by
  have hrun : ((system .utc).exec sampleScreen seenError).any (fun s =>
      s.mainQueue = [] ∧
      outcomesShown s 0 = [.saveOutcome 0 (some "Permission denied")]) = true := by
    decide +kernel
  obtain ⟨s, hs, hq⟩ := (Option.any_eq_true _ _).mp hrun
  obtain ⟨hqueue, hshown⟩ := of_decide_eq_true hq
  obtain ⟨⟨t, a⟩, hmem, rfl⟩ : ∃ p ∈ (system .utc).history sampleScreen seenError,
      p.2 = .writeCompletes 0 (some "Permission denied") := by decide +kernel
  obtain ⟨v, hv, hhead, hiff⟩ := outcome_shown_iff (.of_exec hs) hmem (by simp [hqueue])
  exact ⟨s, v, hs, hv, hhead, hshown, hiff.mp hshown⟩

/-- **An error the user never sees.** The write fails while the logout confirmation is on
screen; the confirmation is cancelled, and no alert of the failure is ever shown. -/
theorem outcome_lost_behind_logout_alert :
    ∃ s, (system .utc).exec sampleScreen unseenError = some s ∧
      (∀ p ∈ (system .utc).history sampleScreen unseenError, allowed p.1 p.2 = true) ∧
      (∃ p ∈ (system .utc).history sampleScreen unseenError,
        p.2 = .writeCompletes 0 (some "Permission denied")) ∧
      s.mainQueue = [] ∧ s.timers = [] ∧ s.inFlight = [] ∧ s.presented = none ∧
      outcomesShown s 0 = [] := by
  have hrun : ((system .utc).exec sampleScreen unseenError).any (fun s =>
      s.mainQueue = [] ∧ s.timers = [] ∧ s.inFlight = [] ∧ s.presented = none ∧
      outcomesShown s 0 = []) = true := by
    decide +kernel
  obtain ⟨s, hs, hq⟩ := (Option.any_eq_true _ _).mp hrun
  exact ⟨s, hs, by decide +kernel, by decide +kernel, of_decide_eq_true hq⟩

end MainScreen

end FirebaseLogin
