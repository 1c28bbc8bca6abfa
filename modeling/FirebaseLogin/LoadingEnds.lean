import FirebaseLogin.MainScreen

/-!
# The End of Loading

Every save tap, accepted or rejected, queues a block that starts the loading and delays a
block that ends it. The screen keeps no count of the loadings under way: the blocks set and
clear flags, and the blocks of several taps may run in many orders. The invariant looks
ahead: if the pending blocks run in their order, the screen is ready at the end.

## Main results

* `step_readyAhead`: what one step preserves.
* `ready_of_no_loading_block`: **in every reachable state without a pending loading block
  the loader is stopped and both buttons are enabled.**
* `exists_ready`: from every reachable state the blocks alone lead to such a state.
-/

namespace FirebaseLogin

/-- The blocks that start or end a loading. -/
def Block.isLoading : Block → Bool
  | .startLoading _ | .stopLoading _ => true
  | .saveCompletion _ _ | .popViewController => false

namespace MainScreen

open MainViewController TransitionSystem

variable {P : Platform} {s s' : MainScreen} {a : Action}

/-- The loader is stopped and both buttons are enabled. -/
def ready (vc : MainViewController) : Bool :=
  !vc.loaderAnimating && vc.saveButtonEnabled && vc.closeButtonEnabled

/-- The form is ready when its loader is still and its buttons are enabled. -/
theorem ready_iff {vc : MainViewController} :
    ready vc = true ↔ vc.loaderAnimating = false ∧ vc.saveButtonEnabled = true ∧
      vc.closeButtonEnabled = true := by
  simp [ready, and_assoc]

/-- Whether the screen is ready after a block, given whether it was before. -/
def readyAfter (r : Bool) : Block → Bool
  | .startLoading _ => false
  | .stopLoading _ => true
  | .saveCompletion _ _ | .popViewController => r

/-- Whether the screen is ready once the pending blocks have run: the queued ones first, then
the delayed ones. -/
def readyAhead (s : MainScreen) : Bool :=
  (s.mainQueue ++ s.timers).foldl readyAfter (ready s.vc)

/-! ### Looking ahead -/

/-- Blocks that are not about loading do not matter. -/
theorem foldl_readyAfter {blocks : List Block} (h : ∀ b ∈ blocks, b.isLoading = false)
    (r : Bool) : blocks.foldl readyAfter r = r := by
  induction blocks with
  | nil => rfl
  | cons b blocks ih =>
      have hb : readyAfter r b = r := by
        have hloading := h b List.mem_cons_self
        cases b with
        | startLoading | stopLoading => cases hloading
        | saveCompletion | popViewController => rfl
      rw [List.foldl_cons, hb]
      exact ih fun c hc => h c (List.mem_cons_of_mem _ hc)

/-- A block that is not about loading may enter the queue anywhere. -/
theorem readyAhead_enqueue {b : Block} (hb : b.isLoading = false) (queue timers : List Block)
    (r : Bool) :
    ((queue ++ [b]) ++ timers).foldl readyAfter r = (queue ++ timers).foldl readyAfter r := by
  have hsame : ([b] : List Block).foldl readyAfter (queue.foldl readyAfter r) =
      queue.foldl readyAfter r :=
    foldl_readyAfter (by simpa using hb) _
  rw [List.foldl_append, List.foldl_append, hsame, ← List.foldl_append]

/-- The state after a block has run looks ahead to the same end. -/
theorem readyAhead_dequeue {b : Block} {queue : List Block} {vc' : MainViewController}
    (hq : s.mainQueue = b :: queue) (hvc : ready vc' = readyAfter (ready s.vc) b) :
    (queue ++ s.timers).foldl readyAfter (ready vc') = readyAhead s := by
  rw [readyAhead, hq, List.cons_append, List.foldl_cons, hvc]

/-- **One step keeps the end in sight.** A save tap queues the start of a loading in the
middle of the pending blocks, but its end at the very end of them. -/
theorem step_readyAhead (herrors : s.vc.viewModel.errors = []) (h : step P s a = some s')
    (hs : readyAhead s = true) : readyAhead s' = true := by
  cases StepTo.of_step herrors h with
  | edit hvc =>
      obtain ⟨-, -, hsave, hclose, hloader⟩ := edited_frame hvc
      rw [← hs]
      simp only [readyAhead, ready, hsave, hclose, hloader]
  | saveTap htap =>
      rw [readyAhead, htap.timers, ← List.append_assoc, List.foldl_append]
      rfl
  | closeTap | dismiss | cancel => exact hs
  | confirm | writeCompletes =>
      rw [← hs]
      exact readyAhead_enqueue rfl _ _ _
  | timerFires ht =>
      rw [← hs, readyAhead, readyAhead, ht, List.append_assoc]
      rfl
  | startLoading hq | stopLoading hq | saveCompletion hq | pop hq =>
      rw [← hs]
      refine readyAhead_dequeue hq ?_
      simp [ready, readyAfter, startLoadingBlock, stopLoadingBlock, perform]

/-- In every reachable state the end of the loading is in sight. -/
theorem readyAhead_of_reachable (hs : (system P).Reachable s) : readyAhead s = true := by
  have hinv := hs.invariant (I := fun s => s.vc.viewModel.errors = [] ∧ readyAhead s = true)
    ?_ ?_
  · exact hinv.2
  · rintro _ ⟨user, date, rfl⟩
    exact ⟨rfl, rfl⟩
  · rintro t a u ⟨herrors, ht⟩ hstep
    exact ⟨step_errors herrors hstep, step_readyAhead herrors hstep ht⟩

/-- **The main screen comes back from loading.** In every reachable state in which no loading
block is queued or delayed, the loader is stopped and both buttons are enabled. -/
theorem ready_of_no_loading_block (hs : (system P).Reachable s)
    (hnone : ∀ b ∈ s.mainQueue ++ s.timers, b.isLoading = false) :
    s.vc.loaderAnimating = false ∧ s.vc.saveButtonEnabled = true ∧
      s.vc.closeButtonEnabled = true := by
  have hahead := readyAhead_of_reachable hs
  rw [readyAhead, foldl_readyAfter hnone] at hahead
  exact ready_iff.mp hahead

/-- Two taps before the first block runs, the second one on the emptied form, and then all
their blocks. -/
def twoTaps : List Action :=
  typeNewClient ++ [.saveTap sampleNow sampleKey, .saveTap sampleNow sampleKey, .runBlock,
    .runBlock, .timerFires, .runBlock, .timerFires, .runBlock]

/-- After two taps and their four blocks the screen is ready, although the write is still not
answered. -/
theorem ready_twoTaps :
    ∃ s, (system .utc).exec sampleScreen twoTaps = some s ∧ s.taps = 2 ∧
      s.inFlight.length = 1 ∧ s.vc.loaderAnimating = false ∧
      s.vc.saveButtonEnabled = true ∧ s.vc.closeButtonEnabled = true := by
  have hrun : ((system .utc).exec sampleScreen twoTaps).any (fun s =>
      s.taps = 2 ∧ s.inFlight.length = 1 ∧
      ∀ b ∈ s.mainQueue ++ s.timers, b.isLoading = false) = true := by
    decide +kernel
  obtain ⟨s, hs, hq⟩ := (Option.any_eq_true _ _).mp hrun
  obtain ⟨htaps, hflight, hnone⟩ := of_decide_eq_true hq
  have hreach : (system .utc).Reachable s := .of_exec ⟨_, _, rfl⟩ hs
  exact ⟨s, hs, htaps, hflight, ready_of_no_loading_block hreach hnone⟩

/-! ### The blocks run out -/

/-- The block at the head of the queue can run, and leaves the rest of the queue and the
delayed blocks as they are. -/
theorem exists_runBlock {b : Block} {queue : List Block} (hq : s.mainQueue = b :: queue) :
    ∃ s', step P s .runBlock = some s' ∧ s'.mainQueue = queue ∧ s'.timers = s.timers := by
  refine ⟨_, by rw [step, handle, hq]; rfl, ?_⟩
  cases b with
  | startLoading | stopLoading | saveCompletion | popViewController => exact ⟨rfl, rfl⟩

/-- The steps the system takes by itself: a delay passes, a block runs. -/
def Action.isInternal : Action → Bool
  | .timerFires | .runBlock => true
  | _ => false

/-- The pending blocks run out by themselves. -/
theorem exists_drained (n : Nat) (s : MainScreen)
    (hn : s.mainQueue.length + 2 * s.timers.length = n) :
    ∃ h s', (system P).Run s h s' ∧ (∀ p ∈ h, p.2.isInternal = true) ∧
      s'.mainQueue = [] ∧ s'.timers = [] := by
  induction n using Nat.strong_induction_on generalizing s with
  | _ n ih =>
      -- one internal step with fewer blocks to go
      have hnext : ∀ {a : Action} {t : MainScreen}, step P s a = some t → a.isInternal = true →
          t.mainQueue.length + 2 * t.timers.length < n →
          ∃ h s', (system P).Run s h s' ∧ (∀ p ∈ h, p.2.isInternal = true) ∧
            s'.mainQueue = [] ∧ s'.timers = [] := by
        intro a t hstep ha hlt
        obtain ⟨h, s', r, hh, hdone⟩ := ih _ hlt t rfl
        refine ⟨[(s, a)] ++ h, s', (Run.single hstep).trans r, ?_, hdone⟩
        intro p hp
        rcases List.mem_append.mp hp with hp | hp
        · rw [List.mem_singleton.mp hp]
          exact ha
        · exact hh p hp
      cases ht : s.timers with
      | cons b timers =>
          have hfires : step P s .timerFires = some { s with
              timers := timers, mainQueue := s.mainQueue ++ [b] } := by
            rw [step, handle, ht]
            rfl
          refine hnext hfires rfl ?_
          simp only [List.length_append, List.length_singleton]
          rw [ht, List.length_cons] at hn
          omega
      | nil =>
          cases hq : s.mainQueue with
          | nil => exact ⟨[], s, .nil s, by simp, hq, ht⟩
          | cons b queue =>
              obtain ⟨t, hstep, hqueue, htimers⟩ := exists_runBlock (P := P) hq
              refine hnext hstep rfl ?_
              rw [hqueue, htimers]
              rw [hq, List.length_cons] at hn
              omega

/-- **From every reachable state the blocks alone make the screen ready**: no tap, answer or
dismissal is needed. -/
theorem exists_ready (hs : (system P).Reachable s) :
    ∃ h s', (system P).Run s h s' ∧ (∀ p ∈ h, p.2.isInternal = true) ∧
      s'.mainQueue = [] ∧ s'.timers = [] ∧ ready s'.vc = true := by
  obtain ⟨h, s', r, hh, hqueue, htimers⟩ := exists_drained (P := P) _ s rfl
  have hahead := readyAhead_of_reachable (hs.trans r)
  rw [readyAhead, hqueue, htimers] at hahead
  exact ⟨h, s', r, hh, hqueue, htimers, hahead⟩

end MainScreen

end FirebaseLogin
