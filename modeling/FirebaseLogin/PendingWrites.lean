import FirebaseLogin.WriteTree

/-!
# What the Pending Writes Show

The runs of `FWriteTree.m`: writes are added, and removed when the server has acknowledged or
rejected them. The compound write is changed at each step, and rebuilt only where `removeWriteId:`
finds that the removed write overlaps with others. It does so by the paths of the records, which
for an update are above the locations that it writes.

The results are about runs whose keys are told apart by every comparison of the source and in which
no write touches a `.priority`, as `FirebaseLogin.CompoundWrite` says.

## Main results

* `removeWriteId_cases`: what a removal can do.
* `pending_writes_seen`: **the observers see the data of the server with the pending writes done
  in their order**, in every run whose removals the paths of the records tell apart.
* `proper_of_first`: the removals of the oldest write are such removals, where no update is
  pending.
* `server_overwrite_seen`: what new data of the server change for the observers.
* `excluded_writes_left_out`: the views of transactions, without their own writes.
* `update_lost_from_view`: **a pending update is no longer seen** when an earlier write between
  its path and its locations is removed.
-/

namespace FirebaseLogin

open KeyTree
open FImmutableTree (ofValue setTree Pruned)

variable {κ ν : Type}

/-- The locations that pending writes write, in the order of the writes. -/
def pendingOf (records : List (FWriteRecord κ ν)) : List (List κ × KeyTree κ ν) :=
  records.flatMap FWriteRecord.writes

/-- The locations of records around one. -/
theorem pendingOf_split (earlier later : List (FWriteRecord κ ν)) (r : FWriteRecord κ ν) :
    pendingOf (earlier ++ r :: later) = pendingOf earlier ++ r.writes ++ pendingOf later := by
  simp [pendingOf]

/-- The locations of records in two parts. -/
theorem pendingOf_append (earlier later : List (FWriteRecord κ ν)) :
    pendingOf (earlier ++ later) = pendingOf earlier ++ pendingOf later :=
  List.flatMap_append

section Records

variable [DecidableEq κ]

/-- A visible record whose writes remove nothing. -/
def FWriteRecord.Sound (r : FWriteRecord κ ν) : Prop :=
  r.visible = true ∧
    match r.data with
    | .overwrite node => Solid node
    | .merge changedChildren => Pruned Solid changedChildren.writeTree

/-- What a record adds to a compound write. -/
def FWriteRecord.addTo (r : FWriteRecord κ ν) (c : FCompoundWrite κ ν) : FCompoundWrite κ ν :=
  match r.data with
  | .overwrite node => c.addWrite node r.path
  | .merge changedChildren => c.addCompoundWrite changedChildren r.path

omit [DecidableEq κ] in
/-- The record writes at or below its path. -/
theorem path_prefix_of_mem_writes {r : FWriteRecord κ ν} {w : List κ × KeyTree κ ν}
    (hw : w ∈ r.writes) : r.path <+: w.1 := by
  rw [FWriteRecord.writes] at hw
  split at hw
  · obtain rfl := List.mem_singleton.mp hw
    exact List.prefix_rfl
  · obtain ⟨e, -, rfl⟩ := List.mem_map.mp hw
    exact List.prefix_append _ _

omit [DecidableEq κ] in
/-- The locations of a record lie beside each other. -/
theorem FWriteRecord.Sound.eq_of_above {r : FWriteRecord κ ν} (hr : r.Sound)
    {w x : List κ × KeyTree κ ν} (hw : w ∈ r.writes) (hx : x ∈ r.writes) (hpre : w.1 <+: x.1) :
    w.1 = x.1 := by
  obtain ⟨writeId, path, data, visible⟩ := r
  cases data with
  | overwrite node =>
      obtain rfl := List.mem_singleton.mp hw
      obtain rfl := List.mem_singleton.mp hx
      rfl
  | merge changedChildren =>
      obtain ⟨e, he, rfl⟩ := List.mem_map.mp hw
      obtain ⟨e', he', rfl⟩ := List.mem_map.mp hx
      rw [List.prefix_append_right_inj] at hpre
      exact congrArg (path ++ ·) (hr.2.eq_of_above he he' hpre)

/-- `containsPath` asks whether the record writes at or above a path. -/
theorem containsPath_iff (r : FWriteRecord κ ν) (p : List κ) :
    FWriteTree.containsPath r p = true ↔ ∃ w ∈ r.writes, w.1 <+: p := by
  rw [FWriteTree.containsPath, FWriteRecord.writes]
  split
  · simp
  · simp only [List.any_eq_true, List.isPrefixOf_iff_prefix, List.mem_map]
    constructor
    · rintro ⟨e, he, hpre⟩
      exact ⟨_, ⟨e, he, rfl⟩, hpre⟩
    · rintro ⟨w, ⟨e, he, rfl⟩, hpre⟩
      exact ⟨e, he, hpre⟩

omit [DecidableEq κ] in
/-- The nodes of a sound record are not empty. -/
theorem FWriteRecord.Sound.solid {r : FWriteRecord κ ν} (hr : r.Sound)
    {w : List κ × KeyTree κ ν} (hw : w ∈ r.writes) : Solid w.2 := by
  obtain ⟨writeId, path, data, visible⟩ := r
  cases data with
  | overwrite node =>
      obtain rfl := List.mem_singleton.mp hw
      exact hr.2
  | merge changedChildren =>
      obtain ⟨e, he, rfl⟩ := List.mem_map.mp hw
      have hsolid := hr.2.of_mem_forEach he
      exact hsolid

/-- A compound write stays layered when a sound record is added. -/
theorem Layered.addTo {c : FCompoundWrite κ ν} {ws : List (List κ × KeyTree κ ν)}
    (h : Layered c ws) {r : FWriteRecord κ ν} (hr : r.Sound) :
    Layered (r.addTo c) (ws ++ r.writes) := by
  obtain ⟨writeId, path, data, visible⟩ := r
  cases data with
  | overwrite node => exact h.addWrite hr.2 path
  | merge changedChildren => exact h.addCompoundWrite hr.2 path

/-- Rebuilt from the root, the compound write does what the records do. -/
theorem layered_layerTreeFromWrites {records : List (FWriteRecord κ ν)}
    (h : ∀ r ∈ records, r.Sound) :
    Layered (FWriteTree.layerTreeFromWrites records (fun _ => true) []) (pendingOf records) := by
  have hfoldl : FWriteTree.layerTreeFromWrites records (fun _ => true) [] =
      records.foldl (fun c r => r.addTo c) FCompoundWrite.emptyWrite := by
    rw [FWriteTree.layerTreeFromWrites]
    congr 1
  have hrecords : ∀ (records : List (FWriteRecord κ ν)) {c : FCompoundWrite κ ν}
      {ws : List (List κ × KeyTree κ ν)}, Layered c ws → (∀ r ∈ records, r.Sound) →
      Layered (records.foldl (fun c r => r.addTo c) c) (ws ++ pendingOf records) := by
    intro records
    induction records with
    | nil =>
        intro c ws hc _
        simpa [pendingOf] using hc
    | cons r records ih =>
        intro c ws hc h
        rw [List.forall_mem_cons] at h
        have hrest := ih (hc.addTo h.1) h.2
        rwa [List.append_assoc] at hrest
  rw [hfoldl]
  exact hrecords records .empty h

end Records

namespace FWriteTree

variable [DecidableEq κ]

/-! ### What a removal can do -/

/-- The removed write is shadowed by a later one. -/
def Shadowed (r : FWriteRecord κ ν) (later : List (FWriteRecord κ ν)) : Prop :=
  ∃ c ∈ later, c.visible = true ∧ containsPath c r.path = true

/-- The path of another write is at or below the removed one. -/
def Overlapped (r : FWriteRecord κ ν) (others : List (FWriteRecord κ ν)) : Prop :=
  ∃ c ∈ others, c.visible = true ∧ r.path <+: c.path

/-- The scan stops at a write that shadows the removed one. -/
theorem removalScan_false (r : FWriteRecord κ ν) (index : Nat)
    (xs : List (FWriteRecord κ ν × Nat)) (overlaps : Bool) :
    removalScan r index xs false overlaps = (false, overlaps) := by
  cases xs with
  | nil => rfl
  | cons x xs => rfl

/-- The scan, over any records with their indices. -/
theorem removalScan_eq (r : FWriteRecord κ ν) (index : Nat) (xs : List (FWriteRecord κ ν × Nat))
    (overlaps : Bool) :
    ∃ v o, removalScan r index xs true overlaps = (v, o) ∧
      (v = false ↔
        ∃ x ∈ xs, x.1.visible = true ∧ index ≤ x.2 ∧ containsPath x.1 r.path = true) ∧
      (v = true → (o = true ↔
        overlaps = true ∨ ∃ x ∈ xs, x.1.visible = true ∧ r.path <+: x.1.path)) := by
  induction xs generalizing overlaps with
  | nil => exact ⟨true, overlaps, rfl, by simp, by simp⟩
  | cons x xs ih =>
      obtain ⟨c, i⟩ := x
      rw [removalScan, if_pos rfl]
      by_cases hvisible : c.visible = true
      · rw [if_pos hvisible]
        by_cases hshadow : index ≤ i ∧ containsPath c r.path = true
        · rw [if_pos (by simpa using hshadow), removalScan_false]
          refine ⟨false, overlaps, rfl, ?_, by simp⟩
          exact iff_of_true rfl ⟨(c, i), List.mem_cons_self, hvisible, hshadow⟩
        · rw [if_neg (by simpa using hshadow)]
          by_cases hoverlap : r.path <+: c.path
          · rw [if_pos (List.isPrefixOf_iff_prefix.mpr hoverlap)]
            simpa only [List.exists_mem_cons_iff, hvisible, hshadow, hoverlap, and_self, and_false,
              false_or, true_or, or_true] using ih true
          · rw [if_neg (fun h => hoverlap (List.isPrefixOf_iff_prefix.mp h))]
            simpa only [List.exists_mem_cons_iff, hshadow, hoverlap, and_false, false_or]
              using ih overlaps
      · rw [if_neg hvisible]
        simpa [hvisible] using ih overlaps

/-- Indices do not matter to what holds of some element. -/
theorem exists_mem_zipIdx {α : Type} (P : α → Prop) (l : List α) (k : Nat) :
    (∃ x ∈ l.zipIdx k, P x.1) ↔ ∃ c ∈ l, P c := by
  constructor
  · rintro ⟨x, hx, hP⟩
    exact ⟨x.1, List.fst_mem_of_mem_zipIdx hx, hP⟩
  · rintro ⟨c, hc, hP⟩
    rw [← List.zipIdx_map_fst k l, List.mem_map] at hc
    obtain ⟨x, hx, rfl⟩ := hc
    exact ⟨x, hx, hP⟩

/-- The indices from the length of the first part on are those of the second. -/
theorem exists_mem_zipIdx_append {α : Type} (P : α → Prop) (l l' : List α) :
    (∃ x ∈ (l ++ l').zipIdx, l.length ≤ x.2 ∧ P x.1) ↔ ∃ c ∈ l', P c := by
  rw [List.zipIdx_append, Nat.zero_add, ← exists_mem_zipIdx P l' l.length]
  constructor
  · rintro ⟨x, hx, hle, hP⟩
    rcases List.mem_append.mp hx with hx | hx
    · have hlt := List.snd_lt_of_mem_zipIdx hx
      omega
    · exact ⟨x, hx, hP⟩
  · rintro ⟨x, hx, hP⟩
    exact ⟨x, List.mem_append_right _ hx, List.le_snd_of_mem_zipIdx hx, hP⟩

/-- The scan that a removal makes. -/
theorem removalScan_cases (earlier later : List (FWriteRecord κ ν)) (r : FWriteRecord κ ν) :
    ∃ v o, removalScan r earlier.length (earlier ++ later).zipIdx.reverse r.visible false =
        (v, o) ∧
      (v = false ↔ r.visible = false ∨ Shadowed r later) ∧
      (v = true → (o = true ↔ Overlapped r (earlier ++ later))) := by
  have hshadowed : (∃ x ∈ (earlier ++ later).zipIdx.reverse, x.1.visible = true ∧
      earlier.length ≤ x.2 ∧ containsPath x.1 r.path = true) ↔ Shadowed r later := by
    rw [Shadowed, ← exists_mem_zipIdx_append _ earlier later]
    simp only [List.mem_reverse, and_left_comm]
  have hoverlapped : (∃ x ∈ (earlier ++ later).zipIdx.reverse, x.1.visible = true ∧
      r.path <+: x.1.path) ↔ Overlapped r (earlier ++ later) := by
    simp only [List.mem_reverse]
    exact exists_mem_zipIdx (fun c : FWriteRecord κ ν => c.visible = true ∧ r.path <+: c.path) _ 0
  cases hr : r.visible with
  | false => exact ⟨false, false, removalScan_false _ _ _ _, by simp, by simp⟩
  | true =>
      have hscan := removalScan_eq r earlier.length (earlier ++ later).zipIdx.reverse false
      rw [hshadowed, hoverlapped] at hscan
      simpa using hscan

/-- What a removal can do, for the records before and after the removed one. -/
theorem removeWriteId_cases {t t' : FWriteTree κ ν} {writeId : Int} {mayBeVisible : Bool}
    (h : t.removeWriteId writeId = some (t', mayBeVisible)) :
    ∃ earlier r later, t.allWrites = earlier ++ r :: later ∧ r.writeId = writeId ∧
      (∀ c ∈ earlier, c.writeId ≠ writeId) ∧
      ((t' = { t with allWrites := earlier ++ later } ∧ mayBeVisible = false ∧
          (r.visible = false ∨ Shadowed r later)) ∨
        (t' = resetTree { t with allWrites := earlier ++ later } ∧ mayBeVisible = true ∧
          ¬ Shadowed r later ∧ Overlapped r (earlier ++ later)) ∨
        (t' = { t with
            allWrites := earlier ++ later
            visibleWrites := r.writes.foldl (fun c w => c.removeWriteAtPath w.1)
              t.visibleWrites } ∧ mayBeVisible = true ∧
          ¬ Shadowed r later ∧ ¬ Overlapped r (earlier ++ later))) := by
  rw [removeWriteId] at h
  split at h
  · cases h
  · rename_i index hindex
    obtain ⟨hlt, hid, hfirst⟩ := List.findIdx?_eq_some_iff_getElem.mp hindex
    rw [List.getElem?_eq_getElem hlt, Option.map_some, Option.some_inj,
      List.eraseIdx_eq_take_drop_succ] at h
    have hsplit : t.allWrites =
        t.allWrites.take index ++ t.allWrites[index] :: t.allWrites.drop (index + 1) := by
      rw [← List.drop_eq_getElem_cons hlt, List.take_append_drop]
    refine ⟨_, _, _, hsplit, by simpa using hid, ?_, ?_⟩
    · intro c hc
      obtain ⟨j, hj, rfl⟩ := List.mem_take_iff_getElem.mp hc
      simpa using hfirst j (by omega)
    have hlength : (t.allWrites.take index).length = index :=
      List.length_take_of_le (Nat.le_of_lt hlt)
    obtain ⟨v, o, hscan, hv, ho⟩ := removalScan_cases (t.allWrites.take index)
      (t.allWrites.drop (index + 1)) t.allWrites[index]
    rw [hlength] at hscan
    simp only [hscan] at h
    cases v with
    | false =>
        obtain ⟨rfl, rfl⟩ := Prod.mk.inj h
        exact .inl ⟨rfl, rfl, hv.mp rfl⟩
    | true =>
        have hnot : ¬ Shadowed t.allWrites[index] (t.allWrites.drop (index + 1)) :=
          fun hshadowed => by simpa using hv.mpr (.inr hshadowed)
        cases o with
        | true =>
            obtain ⟨rfl, rfl⟩ := Prod.mk.inj h
            exact .inr (.inl ⟨rfl, rfl, hnot, (ho rfl).mp rfl⟩)
        | false =>
            have hnot' : ¬ Overlapped t.allWrites[index]
                (t.allWrites.take index ++ t.allWrites.drop (index + 1)) :=
              fun hoverlapped => by simpa using (ho rfl).mpr hoverlapped
            refine .inr (.inr ?_)
            rw [FWriteRecord.writes]
            cases hdata : t.allWrites[index].data with
            | overwrite node =>
                rw [hdata] at h
                obtain ⟨rfl, rfl⟩ := Prod.mk.inj h
                exact ⟨rfl, rfl, hnot, hnot'⟩
            | merge changedChildren =>
                rw [hdata] at h
                obtain ⟨rfl, rfl⟩ := Prod.mk.inj h
                exact ⟨by rw [List.foldl_map], rfl, hnot, hnot'⟩

/-- The oldest write is found, and removed as `removeWriteId_cases` says. -/
theorem removeWriteId_head {t : FWriteTree κ ν} {r : FWriteRecord κ ν}
    {later : List (FWriteRecord κ ν)} (hall : t.allWrites = r :: later) :
    ∃ t' mayBeVisible, t.removeWriteId r.writeId = some (t', mayBeVisible) ∧
      ((t' = { t with allWrites := later } ∧ mayBeVisible = false ∧
          (r.visible = false ∨ Shadowed r later)) ∨
        (t' = resetTree { t with allWrites := later } ∧ mayBeVisible = true ∧
          ¬ Shadowed r later ∧ Overlapped r later) ∨
        (t' = { t with
            allWrites := later
            visibleWrites := r.writes.foldl (fun c w => c.removeWriteAtPath w.1)
              t.visibleWrites } ∧ mayBeVisible = true ∧
          ¬ Shadowed r later ∧ ¬ Overlapped r later)) := by
  have hsome : ∃ x, t.removeWriteId r.writeId = some x := by
    rw [removeWriteId, hall, List.findIdx?_cons]
    simp
  obtain ⟨⟨t', mayBeVisible⟩, hremove⟩ := hsome
  obtain ⟨earlier, r', later', hsplit, hid, hfirst, hcases⟩ := removeWriteId_cases hremove
  rw [hall] at hsplit
  cases earlier with
  | cons c earlier =>
      obtain ⟨rfl, -⟩ := List.cons.inj hsplit
      exact absurd rfl (hfirst r List.mem_cons_self)
  | nil =>
      obtain ⟨rfl, rfl⟩ := List.cons.inj hsplit
      exact ⟨t', mayBeVisible, hremove, hcases⟩

/-! ### Runs -/

/-- What happens to the pending writes. -/
inductive Action (κ ν : Type) where
  | overwrite (path : List κ) (newData : KeyTree κ ν) (writeId : Int) (visible : Bool)
  | merge (path : List κ) (changedChildren : FCompoundWrite κ ν) (writeId : Int)
  | remove (writeId : Int)
  | removeAll

/-- The pending writes after an action. -/
def step (t : FWriteTree κ ν) : Action κ ν → Option (FWriteTree κ ν)
  | .overwrite path newData writeId visible => t.addOverwriteAtPath path newData writeId visible
  | .merge path changedChildren writeId => t.addMergeAtPath path changedChildren writeId
  | .remove writeId => (t.removeWriteId writeId).map Prod.fst
  | .removeAll => some t.removeAllWrites.1

/-- The pending writes as a transition system. -/
def system (κ ν : Type) [DecidableEq κ] : TransitionSystem (FWriteTree κ ν) (Action κ ν) where
  Init t := t = initial
  step := step

/-- No location of the one is above or below a location of the other. -/
def Beside (r c : FWriteRecord κ ν) : Prop :=
  ∀ w ∈ r.writes, ∀ w' ∈ c.writes, ¬ w.1 <+: w'.1 ∧ ¬ w'.1 <+: w.1

/-- The writes that are added are visible and remove nothing, and a write that is removed is found
to be shadowed or to overlap, or lies beside the other ones. -/
def Proper (t : FWriteTree κ ν) : Action κ ν → Prop
  | .overwrite _ newData _ visible => visible = true ∧ Solid newData
  | .merge _ changedChildren _ => Pruned Solid changedChildren.writeTree
  | .remove writeId => ∀ earlier r later, t.allWrites = earlier ++ r :: later →
      r.writeId = writeId → (∀ c ∈ earlier, c.writeId ≠ writeId) →
      Shadowed r later ∨ Overlapped r (earlier ++ later) ∨ ∀ c ∈ earlier ++ later, Beside r c
  | .removeAll => True

/-- The compound write does what the pending writes do. -/
structure Settled (t : FWriteTree κ ν) : Prop where
  sound : ∀ r ∈ t.allWrites, r.Sound
  layered : Layered t.visibleWrites (pendingOf t.allWrites)

/-- A record that is added. -/
theorem Settled.add {t t' : FWriteTree κ ν} (h : t.Settled) {r : FWriteRecord κ ν}
    (hr : r.Sound) (hall : t'.allWrites = t.allWrites ++ [r])
    (hvisible : t'.visibleWrites = r.addTo t.visibleWrites) : t'.Settled := by
  refine ⟨fun r' hr' => ?_, ?_⟩
  · rw [hall, List.mem_append, List.mem_singleton] at hr'
    rcases hr' with hr' | rfl
    · exact h.sound r' hr'
    · exact hr
  · have hadd := h.layered.addTo hr
    rw [hvisible, hall, pendingOf_split]
    simpa [pendingOf] using hadd

/-- The writes of a record that lies beside the others are removed alone. -/
theorem layered_removeWrites {c : FCompoundWrite κ ν} {earlier later : List (FWriteRecord κ ν)}
    {r : FWriteRecord κ ν} (h : Layered c (pendingOf (earlier ++ r :: later))) (hr : r.Sound)
    (hbeside : ∀ c ∈ earlier ++ later, Beside r c) :
    Layered (r.writes.foldl (fun c w => c.removeWriteAtPath w.1) c)
      (pendingOf (earlier ++ later)) := by
  have hapart : ∀ w ∈ pendingOf (earlier ++ later), ∀ x ∈ r.writes,
      ¬ x.1 <+: w.1 ∧ ¬ w.1 <+: x.1 := by
    intro w hw x hx
    obtain ⟨c, hc, hw⟩ := List.mem_flatMap.mp hw
    exact hbeside c hc x hx w hw
  rw [pendingOf_append] at hapart ⊢
  rw [pendingOf_split] at h
  have hequal : ∀ w ∈ pendingOf earlier ++ r.writes ++ pendingOf later, ∀ x ∈ r.writes,
      w.1 <+: x.1 ∨ x.1 <+: w.1 → w.1 = x.1 := by
    intro w hw x hx hcomparable
    by_cases hwr : w ∈ r.writes
    · rcases hcomparable with hpre | hpre
      · exact hr.eq_of_above hwr hx hpre
      · exact (hr.eq_of_above hx hwr hpre).symm
    · obtain ⟨hnot, hnot'⟩ := hapart w (by simp_all) x hx
      exact absurd hcomparable (not_or.mpr ⟨hnot', hnot⟩)
  have hkeep : ∀ w ∈ pendingOf earlier ++ pendingOf later, ∀ x ∈ r.writes, w.1 ≠ x.1 := by
    intro w hw x hx heq
    exact (hapart w hw x hx).1 (heq ▸ List.prefix_rfl)
  rw [List.forall_mem_append] at hkeep
  have hremove := h.removeWrites hequal
  rw [List.filter_append, List.filter_append,
    List.filter_eq_self.mpr fun w hw => decide_eq_true (hkeep.1 w hw),
    List.filter_eq_self.mpr fun w hw => decide_eq_true (hkeep.2 w hw),
    List.filter_eq_nil_iff.mpr fun w hw => by simpa using ⟨w.2, hw⟩, List.append_nil] at hremove
  exact hremove

/-- A step keeps the compound write settled. -/
theorem Settled.step {t t' : FWriteTree κ ν} {a : Action κ ν} (h : t.Settled) (ha : Proper t a)
    (hstep : t.step a = some t') : t'.Settled := by
  cases a with
  | overwrite path newData writeId visible =>
      rw [FWriteTree.step, addOverwriteAtPath] at hstep
      split at hstep
      · obtain rfl := Option.some.inj hstep
        obtain ⟨rfl, hsolid⟩ := ha
        exact h.add (r := ⟨writeId, path, .overwrite newData, true⟩) ⟨rfl, hsolid⟩ rfl rfl
      · cases hstep
  | merge path changedChildren writeId =>
      rw [FWriteTree.step, addMergeAtPath] at hstep
      split at hstep
      · obtain rfl := Option.some.inj hstep
        exact h.add (r := ⟨writeId, path, .merge changedChildren, true⟩) ⟨rfl, ha⟩ rfl rfl
      · cases hstep
  | remove writeId =>
      rw [FWriteTree.step, Option.map_eq_some_iff] at hstep
      obtain ⟨⟨u, mayBeVisible⟩, hremove, rfl⟩ := hstep
      obtain ⟨earlier, r, later, hall, hid, hfirst, hcases⟩ := removeWriteId_cases hremove
      have hr : r.Sound := h.sound r (by simp [hall])
      have hsound : ∀ r' ∈ earlier ++ later, r'.Sound := by
        intro r' hr'
        refine h.sound r' ?_
        rw [hall, List.mem_append, List.mem_cons]
        rcases List.mem_append.mp hr' with hr' | hr'
        · exact .inl hr'
        · exact .inr (.inr hr')
      have hlayered := h.layered
      rw [hall] at hlayered
      rcases hcases with ⟨rfl, -, hshadowed⟩ | ⟨rfl, -, -, -⟩ | ⟨rfl, -, hnot, hnot'⟩
      · refine ⟨hsound, ?_⟩
        obtain ⟨c, hc, -, hcontains⟩ := hshadowed.resolve_left (by simp [hr.1])
        obtain ⟨w, hw, hpre⟩ := (containsPath_iff c r.path).mp hcontains
        rw [pendingOf_split] at hlayered
        have hleave := hlayered.leaveOut rfl (List.mem_flatMap.mpr ⟨c, hc, hw⟩)
          fun x hx => hpre.trans (path_prefix_of_mem_writes hx)
        rwa [← pendingOf_append] at hleave
      · exact ⟨hsound, layered_layerTreeFromWrites hsound⟩
      · refine ⟨hsound, layered_removeWrites hlayered hr ?_⟩
        exact ((ha earlier r later hall hid hfirst).resolve_left hnot).resolve_left hnot'
  | removeAll =>
      obtain rfl := Option.some.inj hstep
      exact ⟨by simp [removeAllWrites], .empty⟩

/-- Where no update is pending, the oldest write can be removed. -/
theorem proper_of_first {t : FWriteTree κ ν} {r : FWriteRecord κ ν}
    {later : List (FWriteRecord κ ν)} (hall : t.allWrites = r :: later)
    (hdata : ∀ c ∈ r :: later, c.visible = true ∧ ∃ node, c.data = .overwrite node) :
    Proper t (.remove r.writeId) := by
  intro earlier r' later' hsplit hid hfirst
  rw [hall] at hsplit
  cases earlier with
  | cons c earlier =>
      obtain ⟨rfl, -⟩ := List.cons.inj hsplit
      exact absurd rfl (hfirst r List.mem_cons_self)
  | nil =>
      obtain ⟨rfl, rfl⟩ := List.cons.inj hsplit
      refine or_iff_not_imp_left.mpr fun hshadowed => or_iff_not_imp_left.mpr fun hoverlapped => ?_
      intro c hc w hw w' hw'
      obtain ⟨-, node, hnode⟩ := hdata r List.mem_cons_self
      obtain ⟨hvisible, node', hnode'⟩ := hdata c (List.mem_cons_of_mem _ hc)
      rw [FWriteRecord.writes, hnode, List.mem_singleton] at hw
      have hc' : (c.path, node') ∈ c.writes := by simp [FWriteRecord.writes, hnode']
      rw [FWriteRecord.writes, hnode', List.mem_singleton] at hw'
      subst hw hw'
      refine ⟨fun hpre => hoverlapped ⟨c, hc, hvisible, hpre⟩, fun hpre => ?_⟩
      exact hshadowed ⟨c, hc, hvisible, (containsPath_iff c r.path).mpr ⟨_, hc', hpre⟩⟩

/-! ### What the observers see -/

/-- A node shows at a path what the pending writes do on the data of the server. -/
def Shows (t : FWriteTree κ ν) (s : KeyTree κ ν) (treePath : List κ) (n : KeyTree κ ν) : Prop :=
  ∀ q, (n.getChild q).value? =
    ((doWrites (pendingOf t.allWrites) s).getChild (treePath ++ q)).value?

namespace Settled

variable {t : FWriteTree κ ν} (h : t.Settled) {s : KeyTree κ ν} (hs : s.WellFormed)
include h

/-- The nodes of the pending writes are not empty. -/
theorem solid : ∀ w ∈ pendingOf t.allWrites, Solid w.2 := by
  intro w hw
  obtain ⟨r, hr, hw⟩ := List.mem_flatMap.mp hw
  exact (h.sound r hr).solid hw

include hs

/-- The value that the pending writes leave at a location. -/
theorem doWrites_pendingOf_value? (q : List κ) :
    ((doWrites (pendingOf t.allWrites) s).getChild q).value? =
      (sets t.visibleWrites.writeTree q).getD (s.getChild q).value? := by
  rw [doWrites_value? h.solid hs, h.layered.sets]

/-- A node that the pending writes decide is what is seen there. -/
theorem shows_completeNodeAtPath {treePath : List κ} {n : KeyTree κ ν}
    (hnode : t.visibleWrites.completeNodeAtPath treePath = some n) : t.Shows s treePath n := by
  intro q
  rw [h.doWrites_pendingOf_value? hs, completeNodeAtPath_spec hnode, Option.getD_some]

/-- The writes at a path, done on the data of the server or on other data, where they decide
everything. -/
theorem shows_applyToNode (treePath : List κ) {n : KeyTree κ ν} (hn : n.WellFormed)
    (hdecided : n = s.getChild treePath ∨
      (t.visibleWrites.childCompoundWriteAtPath treePath).hasCompleteWriteAtPath [] = true) :
    t.Shows s treePath ((t.visibleWrites.childCompoundWriteAtPath treePath).applyToNode n) := by
  intro q
  have hvalid := valid_childCompoundWriteAtPath h.layered.pruned treePath
  rw [h.doWrites_pendingOf_value? hs, hvalid.applyToNode_value? hn,
    ← sets_childCompoundWriteAtPath, getChild_append]
  rcases hdecided with rfl | hcomplete
  · rfl
  · obtain ⟨v, hv⟩ := Option.isSome_iff_exists.mp hcomplete
    have hsets : sets (FCompoundWrite.childCompoundWriteAtPath treePath
        ⟨t.visibleWrites.writeTree⟩).writeTree q = some (v.getChild q).value? :=
      completeNodeAtPath_spec hv q
    rw [hsets, Option.getD_some, Option.getD_some]

/-- What the observers see, with the data of the server. -/
theorem shows_withServer (treePath : List κ) :
    ∃ n, t.calculateCompleteEventCacheAtPath treePath (some (s.getChild treePath)) none false =
      some n ∧ t.Shows s treePath n := by
  simp only [calculateCompleteEventCacheAtPath, and_self, if_true]
  cases hnode : t.visibleWrites.completeNodeAtPath treePath with
  | some shadowingNode => exact ⟨shadowingNode, rfl, h.shows_completeNodeAtPath hs hnode⟩
  | none =>
      have hshows := h.shows_applyToNode hs treePath (hs.getChild treePath) (.inl rfl)
      cases hempty : (t.visibleWrites.childCompoundWriteAtPath treePath).isEmpty with
      | true =>
          rw [applyToNode_of_isEmpty hempty] at hshows
          exact ⟨_, rfl, hshows⟩
      | false => exact ⟨_, rfl, hshows⟩

/-- What they see without them. -/
theorem shows_withoutServer {treePath : List κ} {n : KeyTree κ ν}
    (hn : t.calculateCompleteEventCacheAtPath treePath none none false = some n) :
    t.Shows s treePath n := by
  simp only [calculateCompleteEventCacheAtPath, and_self, if_true] at hn
  cases hnode : t.visibleWrites.completeNodeAtPath treePath with
  | some shadowingNode =>
      rw [hnode] at hn
      exact Option.some.inj hn ▸ h.shows_completeNodeAtPath hs hnode
  | none =>
      simp only [hnode, Option.isNone_none, Bool.true_and, Option.getD_none] at hn
      split at hn
      · cases hn
      · split at hn
        · cases hn
        · rename_i hcomplete
          obtain rfl := Option.some.inj hn
          exact h.shows_applyToNode hs treePath .empty (.inr (by simpa using hcomplete))

end Settled

/-- The compound write is settled in every run of proper steps. -/
theorem settled_of_run {t : FWriteTree κ ν} {h : List (FWriteTree κ ν × Action κ ν)}
    (run : (system κ ν).Run initial h t) (hproper : ∀ x ∈ h, Proper x.1 x.2) : t.Settled :=
  run.invariant (I := Settled) hproper ⟨by simp [initial], .empty⟩
    fun _ _ _ ha ht hstep => ht.step ha hstep

/-- **The observers at a path see the data of the server with the pending writes done in their
order**, and without the data of the server they see nothing that these could change. -/
theorem pending_writes_seen {t : FWriteTree κ ν} {h : List (FWriteTree κ ν × Action κ ν)}
    (run : (system κ ν).Run initial h t) (hproper : ∀ x ∈ h, Proper x.1 x.2)
    {s : KeyTree κ ν} (hs : s.WellFormed) (treePath : List κ) :
    (∃ n, t.calculateCompleteEventCacheAtPath treePath (some (s.getChild treePath)) none false =
        some n ∧ t.Shows s treePath n) ∧
      ∀ n, t.calculateCompleteEventCacheAtPath treePath none none false = some n →
        t.Shows s treePath n :=
  ⟨(settled_of_run run hproper).shows_withServer hs treePath,
    fun _ hn => (settled_of_run run hproper).shows_withoutServer hs hn⟩

omit [DecidableEq κ] in
/-- A leaf is not empty. -/
theorem solid_leaf (v : ν) : Solid (.leaf v : KeyTree κ ν) :=
  ⟨.leaf v, rfl⟩

omit [DecidableEq κ] in
/-- A node with one leaf is well formed. -/
theorem wellFormed_child (k : κ) (v : ν) :
    WellFormed (.children [⟨k, .leaf v⟩] : KeyTree κ ν) :=
  .children (by simp) (by simp [isEmpty]) (by simp [WellFormed.leaf])

/-- Two writes, the second of them below the first. -/
def twoWrites : List (Action Nat Nat) :=
  [.overwrite [1] (.leaf 5) 0 true, .overwrite [1, 2] (.leaf 7) 1 true]

/-- The run of two writes meets the conditions. -/
theorem proper_twoWrites :
    ∀ x ∈ (system Nat Nat).history initial twoWrites, Proper x.1 x.2 := by
  refine List.forall_mem_cons.mpr ⟨⟨rfl, solid_leaf 5⟩, ?_⟩
  exact List.forall_mem_cons.mpr ⟨⟨rfl, solid_leaf 7⟩, List.forall_mem_nil _⟩

/-- The two writes, and the acknowledgement of the first. -/
def writesInOrder : List (Action Nat Nat) := twoWrites ++ [.remove 0]

/-- The run of writes in order meets the conditions. -/
theorem proper_writesInOrder :
    ∀ x ∈ (system Nat Nat).history initial writesInOrder, Proper x.1 x.2 := by
  refine List.forall_mem_cons.mpr ⟨⟨rfl, solid_leaf 5⟩, ?_⟩
  refine List.forall_mem_cons.mpr ⟨⟨rfl, solid_leaf 7⟩, ?_⟩
  refine List.forall_mem_cons.mpr ⟨?_, List.forall_mem_nil _⟩
  exact proper_of_first (r := ⟨0, [1], .overwrite (.leaf 5), true⟩) rfl (by simp)

/-- The observer of a path sees the update that is pending below it. -/
theorem pending_writes_seen_writesInOrder :
    ∃ t, (system Nat Nat).exec initial writesInOrder = some t ∧
      pendingOf t.allWrites = [([1, 2], .leaf 7)] ∧
      ∃ n, t.calculateCompleteEventCacheAtPath [1] (some (.leaf 5)) none false = some n ∧
        t.Shows (.children [⟨1, .leaf 5⟩]) [1] n := by
  obtain ⟨t, ht⟩ : ∃ t, (system Nat Nat).exec initial writesInOrder = some t := ⟨_, rfl⟩
  have hseen := pending_writes_seen (.of_exec ht) proper_writesInOrder (wellFormed_child 1 5) [1]
  refine ⟨t, ht, ?_, hseen.1⟩
  cases ht
  rfl

/-! ### Data from the server -/

/-- **What an overwrite by the server changes for the observers.** Without an event, the pending
writes decide what is seen at the path whatever the data of the server are; else the event shows
the new data of the server with the pending writes done on top. -/
theorem server_overwrite_seen {t : FWriteTree κ ν} {h : List (FWriteTree κ ν × Action κ ν)}
    (run : (system κ ν).Run initial h t) (hproper : ∀ x ∈ h, Proper x.1 x.2)
    {s s' : KeyTree κ ν} (hs : s.WellFormed) (hs' : s'.WellFormed) (treePath childPath : List κ) :
    (t.calculateEventCacheAfterServerOverwriteAtPath treePath childPath
        (some (s'.getChild treePath)) = none → ∀ q,
      ((doWrites (pendingOf t.allWrites) s').getChild (treePath ++ childPath ++ q)).value? =
        ((doWrites (pendingOf t.allWrites) s).getChild (treePath ++ childPath ++ q)).value?) ∧
      ∀ n, t.calculateEventCacheAfterServerOverwriteAtPath treePath childPath
          (some (s'.getChild treePath)) = some n → t.Shows s' (treePath ++ childPath) n := by
  have hsettled := settled_of_run run hproper
  cases hnode : t.visibleWrites.completeNodeAtPath (treePath ++ childPath) with
  | some shadowingNode =>
      refine ⟨fun _ q => ?_, fun n hn => ?_⟩
      · exact (hsettled.shows_completeNodeAtPath hs' hnode q).symm.trans
          (hsettled.shows_completeNodeAtPath hs hnode q)
      · rw [calculateEventCacheAfterServerOverwriteAtPath, FCompoundWrite.hasCompleteWriteAtPath,
          hnode] at hn
        cases hn
  | none =>
      have hshows := hsettled.shows_applyToNode hs' (treePath ++ childPath)
        (hs'.getChild (treePath ++ childPath)) (.inl rfl)
      rw [getChild_append s' treePath childPath] at hshows
      have hsome : t.calculateEventCacheAfterServerOverwriteAtPath treePath childPath
          (some (s'.getChild treePath)) =
            some ((t.visibleWrites.childCompoundWriteAtPath (treePath ++ childPath)).applyToNode
              ((s'.getChild treePath).getChild childPath)) := by
        rw [calculateEventCacheAfterServerOverwriteAtPath, FCompoundWrite.hasCompleteWriteAtPath,
          hnode]
        simp only [Option.isSome_none, Bool.false_eq_true, if_false, Option.map_some]
        split
        · rename_i hempty
          rw [applyToNode_of_isEmpty hempty]
        · rfl
      refine ⟨fun hnone => ?_, fun n hn => ?_⟩
      · rw [hsome] at hnone
        cases hnone
      · rw [hsome] at hn
        exact Option.some.inj hn ▸ hshows

/-- New data of the server below a pending update raise no event. -/
theorem server_overwrite_seen_writesInOrder :
    ∃ t, (system Nat Nat).exec initial writesInOrder = some t ∧
      t.calculateEventCacheAfterServerOverwriteAtPath [1] [2] (some (.leaf 5)) = none ∧
      ((doWrites (pendingOf t.allWrites) (.children [⟨1, .leaf 5⟩])).getChild [1, 2]).value? =
        ((doWrites (pendingOf t.allWrites) .empty).getChild [1, 2]).value? := by
  obtain ⟨t, ht⟩ : ∃ t, (system Nat Nat).exec initial writesInOrder = some t := ⟨_, rfl⟩
  have hseen := server_overwrite_seen (.of_exec ht) proper_writesInOrder .empty
    (wellFormed_child 1 5) [1] [2]
  have hnone : t.calculateEventCacheAfterServerOverwriteAtPath [1] [2] (some (.leaf 5)) =
      none := by
    cases ht
    rfl
  exact ⟨t, ht, hnone, hseen.1 hnone []⟩

/-! ### Updates from above -/

/-- The removal of the oldest write when no later one is found to shadow or overlap it. -/
theorem removeWriteId_first {t : FWriteTree κ ν} {r : FWriteRecord κ ν}
    {later : List (FWriteRecord κ ν)} (hall : t.allWrites = r :: later)
    (hr : r.visible = true) (hshadowed : ¬ Shadowed r later) (hoverlapped : ¬ Overlapped r later) :
    t.step (.remove r.writeId) = some { t with
      allWrites := later
      visibleWrites := r.writes.foldl (fun c w => c.removeWriteAtPath w.1) t.visibleWrites } := by
  obtain ⟨t', mayBeVisible, hremove, hcases⟩ := removeWriteId_head hall
  rw [step, hremove, Option.map_some]
  rcases hcases with ⟨-, -, h⟩ | ⟨-, -, -, h⟩ | ⟨rfl, -⟩
  · exact absurd h (by simp [hr, hshadowed])
  · exact absurd h hoverlapped
  · rfl

/-- **A pending update is lost from view.** An update is above the oldest write and writes below
it. When this write is removed, nothing of the update is left in the compound write: its observers
see the data of the server. -/
theorem update_lost_from_view {t : FWriteTree κ ν} {h : List (FWriteTree κ ν × Action κ ν)}
    (run : (system κ ν).Run initial h t) (hproper : ∀ x ∈ h, Proper x.1 x.2)
    {r : FWriteRecord κ ν} {node : KeyTree κ ν} {later : List (FWriteRecord κ ν)}
    (hall : t.allWrites = r :: later) (hnode : r.data = .overwrite node)
    (habove : ∀ w ∈ pendingOf later, ¬ w.1 <+: r.path)
    (hbelow : ∀ c ∈ later, ¬ r.path <+: c.path) :
    ∃ t', t.step (.remove r.writeId) = some t' ∧ t'.allWrites = later ∧
      ∀ w ∈ pendingOf later, r.path <+: w.1 → ∀ completeServerCache,
        t'.calculateCompleteEventCacheAtPath w.1 completeServerCache none false =
          completeServerCache := by
  have hsettled := settled_of_run run hproper
  have hwrites : r.writes = [(r.path, node)] := by rw [FWriteRecord.writes, hnode]
  have hlayered := hsettled.layered
  have hshadowed : ¬ Shadowed r later := by
    rintro ⟨c, hc, -, hcontains⟩
    obtain ⟨w, hw, hpre⟩ := (containsPath_iff c r.path).mp hcontains
    exact habove w (List.mem_flatMap.mpr ⟨c, hc, hw⟩) hpre
  have hstep := removeWriteId_first hall (hsettled.sound r (by simp [hall])).1 hshadowed
    fun ⟨c, hc, _, hpre⟩ => hbelow c hc hpre
  rw [hwrites, List.foldl_cons, List.foldl_nil] at hstep
  refine ⟨_, hstep, rfl, fun w _ hpre completeServerCache => ?_⟩
  -- the compound write has no values at or below the removed location any more
  have hcovers : ∀ q, r.path <+: q →
      ¬ Covers (t.visibleWrites.removeWriteAtPath r.path).writeTree q := by
    intro q hq hcovers
    rw [writeTree_removeWriteAtPath, covers_setTree_empty hlayered.pruned
      (fun p hp hne => hlayered.not_covers_above ?_ hp hne)] at hcovers
    · exact hcovers.2 hq
    · intro w hw hpre
      rw [hall, ← List.nil_append (r :: later), pendingOf_split, hwrites] at hw
      simp only [pendingOf, List.flatMap_nil, List.nil_append, List.singleton_append,
        List.mem_cons] at hw
      rcases hw with rfl | hw
      · rfl
      · exact absurd hpre (habove w hw)
  have hpruned : Pruned Solid (t.visibleWrites.removeWriteAtPath r.path).writeTree := by
    rw [writeTree_removeWriteAtPath]
    exact hlayered.pruned.setTree_empty r.path
  have hnone : (t.visibleWrites.removeWriteAtPath r.path).completeNodeAtPath w.1 = none := by
    rw [FCompoundWrite.completeNodeAtPath, Option.map_eq_none_iff, ← Option.not_isSome_iff_eq_none]
    exact hcovers w.1 hpre
  have hempty : ((t.visibleWrites.removeWriteAtPath r.path).childCompoundWriteAtPath
      w.1).isEmpty = true := by
    refine isEmpty_of_sets_nil ?_
    refine (sets_childCompoundWriteAtPath _ w.1 []).trans ?_
    rw [List.append_nil]
    rcases sets_of_not_covers hpruned (hcovers w.1 hpre) with ⟨-, q, hq⟩ | ⟨hsets, -⟩
    · exact absurd hq (hcovers _ (hpre.trans (List.prefix_append _ _)))
    · exact hsets
  simp only [calculateCompleteEventCacheAtPath, and_self, if_true, hnone, hempty]

/-- A write, and an update of the root that writes below it. -/
def updateFromAbove : List (Action Nat Nat) :=
  [.overwrite [1] (.leaf 5) 0 true,
    .merge [] ⟨.node none [⟨1, .node none [⟨2, ofValue (.leaf 7)⟩]⟩]⟩ 1]

/-- The update is seen before the removal, and bare data of the server after it. -/
theorem update_lost_from_view_updateFromAbove :
    ∃ t t', (system Nat Nat).exec initial updateFromAbove = some t ∧
      t.step (.remove 0) = some t' ∧
      pendingOf t'.allWrites = [([1, 2], .leaf 7)] ∧
      t.calculateCompleteEventCacheAtPath [1, 2] (some (.leaf 6)) none false = some (.leaf 7) ∧
      t'.calculateCompleteEventCacheAtPath [1, 2] (some (.leaf 6)) none false =
        some (.leaf 6) := by
  obtain ⟨t, ht⟩ : ∃ t, (system Nat Nat).exec initial updateFromAbove = some t := ⟨_, rfl⟩
  have hproper : ∀ x ∈ (system Nat Nat).history initial updateFromAbove, Proper x.1 x.2 := by
    refine List.forall_mem_cons.mpr ⟨⟨rfl, solid_leaf 5⟩, ?_⟩
    refine List.forall_mem_cons.mpr ⟨?_, List.forall_mem_nil _⟩
    have hvalue : Pruned Solid (ofValue (.leaf 7) : FImmutableTree Nat (KeyTree Nat Nat)) :=
      .value (solid_leaf 7)
    have hchild : Pruned Solid (.node none [⟨2, ofValue (.leaf 7)⟩] :
        FImmutableTree Nat (KeyTree Nat Nat)) :=
      .children (by simp) (by simp) (by simpa using hvalue)
    exact .children (by simp) (by simp) (by simpa using hchild)
  have hrun : (system Nat Nat).Run initial _ t := .of_exec ht
  cases ht
  obtain ⟨t', hstep, hall, hlost⟩ := update_lost_from_view hrun hproper rfl rfl
    (fun w hw => by obtain rfl := List.mem_singleton.mp hw; decide) (by decide)
  refine ⟨_, t', rfl, hstep, congrArg pendingOf hall, rfl, ?_⟩
  exact hlost ([1, 2], .leaf 7) List.mem_cons_self (by decide) _

/-! ### Views without some of the writes -/

/-- What is written at a path, seen from a path above it. -/
theorem setsAt_append (p r q : List κ) (T : FImmutableTree κ (KeyTree κ ν)) :
    setsAt (p ++ r) T (p ++ q) = setsAt r T q := by
  induction p with
  | nil => rfl
  | cons k p ih => rw [List.cons_append, List.cons_append, setsAt, if_pos rfl, ih]

/-- Writes below a path, seen from there. -/
theorem setsOf_map_append (p : List κ) (ws : List (List κ × KeyTree κ ν)) (q : List κ) :
    setsOf (ws.map fun w => (p ++ w.1, w.2)) (p ++ q) = setsOf ws q := by
  induction ws with
  | nil => rfl
  | cons w ws ih => rw [List.map_cons, setsOf_cons, setsOf_cons, ih, setsAt_append]

/-- Writes that are added one after the other. -/
theorem valid_addWrites {c : FCompoundWrite κ ν} (hc : c.Valid)
    {ws : List (List κ × KeyTree κ ν)} (hws : ∀ w ∈ ws, Solid w.2) :
    (ws.foldl (fun c w => c.addWrite w.2 w.1) c).Valid ∧
      ∀ q, sets (ws.foldl (fun c w => c.addWrite w.2 w.1) c).writeTree q =
        (setsOf ws q).or (sets c.writeTree q) := by
  induction ws generalizing c with
  | nil => exact ⟨hc, fun q => rfl⟩
  | cons w ws ih =>
      rw [List.forall_mem_cons] at hws
      obtain ⟨hvalid, hsets⟩ := ih (hc.addWrite hws.1.1 (.inl hws.1.2)) hws.2
      refine ⟨hvalid, fun q => ?_⟩
      rw [List.foldl_cons, hsets, hc.sets_addWrite (.inl hws.1.2), setsOf_cons, Option.or_assoc]

/-- A record added to a valid compound write is done after it. -/
theorem valid_addTo {c : FCompoundWrite κ ν} (hc : c.Valid) {r : FWriteRecord κ ν}
    (hr : r.Sound) :
    (r.addTo c).Valid ∧
      ∀ q, sets (r.addTo c).writeTree q = (setsOf r.writes q).or (sets c.writeTree q) := by
  have haddTo : r.addTo c = r.writes.foldl (fun c w => c.addWrite w.2 w.1) c := by
    obtain ⟨writeId, path, data, visible⟩ := r
    cases data with
    | overwrite node => rfl
    | merge changedChildren =>
        simp only [FWriteRecord.addTo, FWriteRecord.writes, List.foldl_map]
        rfl
  rw [haddTo]
  exact valid_addWrites hc fun w hw => hr.solid hw

/-- The writes of a record beside the path are not seen there. -/
theorem setsOf_writes_eq_none {r : FWriteRecord κ ν} {p : List κ} (hp : ¬ r.path <+: p)
    (hp' : ¬ p <+: r.path) (q : List κ) : setsOf r.writes (p ++ q) = none := by
  refine (setsOf_eq_none_iff _ _).mpr fun w hw => ?_
  have hpre := path_prefix_of_mem_writes hw
  refine ⟨fun h => ?_, fun h => ?_⟩
  · exact (List.prefix_or_prefix_of_prefix (hpre.trans h) (List.prefix_append p q)).elim hp hp'
  · exact (List.prefix_or_prefix_of_prefix hpre ((List.prefix_append p q).trans h)).elim hp hp'

/-- The path of no update is above a path. -/
def NoUpdateAbove (p : List κ) (r : FWriteRecord κ ν) : Prop :=
  ∀ changedChildren, r.data = .merge changedChildren → r.path <+: p → p <+: r.path

/-- A record is added as what is seen of it from the path. -/
theorem valid_layerRecord {treeRoot : List κ} {c : FCompoundWrite κ ν} (hc : c.Valid)
    {r : FWriteRecord κ ν} (hr : r.Sound) (hupdate : NoUpdateAbove treeRoot r) :
    (layerRecord treeRoot c r).Valid ∧
      ∀ q, sets (layerRecord treeRoot c r).writeTree q =
        (setsOf r.writes (treeRoot ++ q)).or (sets c.writeTree q) := by
  by_cases hbelow : treeRoot <+: r.path
  · -- the record is at or below the path: it is added there
    obtain ⟨p, hp⟩ := hbelow
    obtain ⟨writeId, path, data, visible⟩ := r
    subst hp
    have hlayer : layerRecord treeRoot c ⟨writeId, treeRoot ++ p, data, visible⟩ =
        FWriteRecord.addTo ⟨writeId, p, data, visible⟩ c := by
      cases data with
      | overwrite node => simp [layerRecord, FWriteRecord.addTo, FCompoundWrite.relativePath]
      | merge m => simp [layerRecord, FWriteRecord.addTo, FCompoundWrite.relativePath]
    have hwrites : FWriteRecord.writes ⟨writeId, treeRoot ++ p, data, visible⟩ =
        (FWriteRecord.writes ⟨writeId, p, data, visible⟩).map
          fun w => (treeRoot ++ w.1, w.2) := by
      cases data with
      | overwrite node => rfl
      | merge m => simp [FWriteRecord.writes]
    obtain ⟨hvalid, hsets⟩ := valid_addTo hc (r := ⟨writeId, p, data, visible⟩) hr
    rw [hlayer, hwrites]
    exact ⟨hvalid, fun q => by rw [hsets, setsOf_map_append]⟩
  · have hbelow' : ¬ treeRoot.isPrefixOf r.path = true := by simpa using hbelow
    by_cases habove : r.path <+: treeRoot
    · -- the record is above: what it writes at the path takes the place of everything
      obtain ⟨p, hp⟩ := habove
      cases hdata : r.data with
      | merge changedChildren =>
          exact absurd (hupdate changedChildren hdata ⟨p, hp⟩) hbelow
      | overwrite node =>
          have hnode : node.WellFormed := by
            have hsound := hr.2
            rw [hdata] at hsound
            exact hsound.1
          have hlayer : layerRecord treeRoot c r = c.addWrite (node.getChild p) [] := by
            have hpre : r.path.isPrefixOf treeRoot = true := by simp [← hp]
            have hrelative : FCompoundWrite.relativePath r.path treeRoot = p := by
              rw [FCompoundWrite.relativePath, ← hp, List.drop_left]
            rw [layerRecord, hdata]
            simp only
            rw [if_neg hbelow', if_pos hpre, hrelative]
          rw [hlayer]
          refine ⟨hc.addWrite (hnode.getChild p) (.inr rfl), fun q => ?_⟩
          rw [hc.sets_addWrite (.inr rfl), FWriteRecord.writes, hdata, setsOf_singleton, ← hp,
            List.append_assoc, ← List.append_nil r.path, List.append_assoc, setsAt_append]
          simp [setsAt, getChild_append]
    · have hlayer : layerRecord treeRoot c r = c := by
        have habove' : ¬ r.path.isPrefixOf treeRoot = true := by simpa using habove
        rw [layerRecord]
        split
        · rw [if_neg hbelow', if_neg habove']
        · rw [if_neg hbelow', if_neg habove']
      rw [hlayer]
      exact ⟨hc, fun q => by rw [setsOf_writes_eq_none habove hbelow, Option.none_or]⟩

/-- The writes that a filter keeps, seen from the path. -/
theorem valid_layerTreeFromWrites (treeRoot : List κ) (filter keep : FWriteRecord κ ν → Bool)
    (records : List (FWriteRecord κ ν))
    (h : ∀ r ∈ records, r.Sound ∧ NoUpdateAbove treeRoot r ∧
      (filter r = true ↔ keep r = true ∧ (r.path <+: treeRoot ∨ treeRoot <+: r.path))) :
    (layerTreeFromWrites records filter treeRoot).Valid ∧
      ∀ q, sets (layerTreeFromWrites records filter treeRoot).writeTree q =
        setsOf (pendingOf (records.filter keep)) (treeRoot ++ q) := by
  induction records using List.reverseRecOn with
  | nil => exact ⟨.inl .empty, fun q => sets_empty q⟩
  | append_singleton records r ih =>
      rw [List.forall_mem_append] at h
      obtain ⟨hvalid, hsets⟩ := ih h.1
      obtain ⟨hr, hupdate, hfilter⟩ := h.2 r List.mem_cons_self
      have hlast : layerTreeFromWrites (records ++ [r]) filter treeRoot =
          if filter r then layerRecord treeRoot (layerTreeFromWrites records filter treeRoot) r
          else layerTreeFromWrites records filter treeRoot := by
        rw [layerTreeFromWrites, List.foldl_append]
        rfl
      rw [hlast, List.filter_append, pendingOf_append]
      simp only [setsOf_append, ← hsets]
      by_cases hkeep : keep r = true
      · have hpending : pendingOf ([r].filter keep) = r.writes := by simp [pendingOf, hkeep]
        rw [hpending]
        by_cases hpath : r.path <+: treeRoot ∨ treeRoot <+: r.path
        · rw [if_pos (hfilter.mpr ⟨hkeep, hpath⟩)]
          exact valid_layerRecord hvalid hr hupdate
        · rw [if_neg (fun hf => hpath (hfilter.mp hf).2)]
          obtain ⟨habove, hbelow⟩ := not_or.mp hpath
          exact ⟨hvalid, fun q => by rw [setsOf_writes_eq_none habove hbelow, Option.none_or]⟩
      · have hpending : pendingOf ([r].filter keep) = [] := by simp [pendingOf, hkeep]
        rw [if_neg (fun hf => hkeep (hfilter.mp hf).1), hpending]
        exact ⟨hvalid, fun q => rfl⟩

/-- **The writes that are excluded are left out of a view**, for a path that no pending update is
above. -/
theorem excluded_writes_left_out {t : FWriteTree κ ν} {h : List (FWriteTree κ ν × Action κ ν)}
    (run : (system κ ν).Run initial h t) (hproper : ∀ x ∈ h, Proper x.1 x.2)
    {s : KeyTree κ ν} (hs : s.WellFormed) {treePath : List κ}
    (hupdate : ∀ r ∈ t.allWrites, NoUpdateAbove treePath r) (writeIdsToExclude : List Int)
    (includeHiddenWrites : Bool) :
    ∃ n, t.calculateCompleteEventCacheAtPath treePath (some (s.getChild treePath))
        (some writeIdsToExclude) includeHiddenWrites = some n ∧
      ∀ q, (n.getChild q).value? =
        ((doWrites (pendingOf (t.allWrites.filter fun r =>
          !writeIdsToExclude.contains r.writeId)) s).getChild (treePath ++ q)).value? := by
  have hsettled := settled_of_run run hproper
  have hsolid : ∀ w ∈ pendingOf (t.allWrites.filter fun r =>
      !writeIdsToExclude.contains r.writeId), Solid w.2 := by
    intro w hw
    obtain ⟨r, hr, hw⟩ := List.mem_flatMap.mp hw
    exact (hsettled.sound r (List.mem_filter.mp hr).1).solid hw
  simp only [calculateCompleteEventCacheAtPath, reduceCtorEq, false_and, if_false,
    Option.isNone_some, Bool.and_false, Bool.false_and, Bool.false_eq_true, Option.getD_some]
  split
  · -- no write is seen at the path, so none of those that are kept is
    rename_i hempty
    refine ⟨_, rfl, fun q => ?_⟩
    have hnone : setsOf (pendingOf t.allWrites) (treePath ++ q) = none := by
      rw [← hsettled.layered.sets, ← sets_childCompoundWriteAtPath]
      rw [Bool.and_eq_true] at hempty
      rw [show (FCompoundWrite.childCompoundWriteAtPath treePath
        ⟨t.visibleWrites.writeTree⟩).writeTree = .empty from
          FImmutableTree.isEmpty_iff.mp hempty.2, sets_empty]
    have hnone' : setsOf (pendingOf (t.allWrites.filter fun r =>
        !writeIdsToExclude.contains r.writeId)) (treePath ++ q) = none := by
      rw [setsOf_eq_none_iff] at hnone ⊢
      intro w hw
      obtain ⟨r, hr, hw⟩ := List.mem_flatMap.mp hw
      exact hnone w (List.mem_flatMap.mpr ⟨r, (List.mem_filter.mp hr).1, hw⟩)
    rw [doWrites_value? hsolid hs, hnone', Option.getD_none, getChild_append]
  · refine ⟨_, rfl, fun q => ?_⟩
    obtain ⟨hvalid, hsets⟩ := valid_layerTreeFromWrites treePath
      (fun record => (record.visible || includeHiddenWrites) &&
        ((some writeIdsToExclude).all fun ids => !ids.contains record.writeId) &&
        (record.path.isPrefixOf treePath || treePath.isPrefixOf record.path))
      (fun r => !writeIdsToExclude.contains r.writeId) t.allWrites
      fun r hr => ⟨hsettled.sound r hr, hupdate r hr, by simp [(hsettled.sound r hr).1]⟩
    rw [hvalid.applyToNode_value? (hs.getChild treePath), doWrites_value? hsolid hs, hsets,
      getChild_append]

/-- Without the first of two writes the view shows the other one. -/
theorem excluded_writes_left_out_twoWrites :
    ∃ t, (system Nat Nat).exec initial twoWrites = some t ∧
      ∃ n, t.calculateCompleteEventCacheAtPath [1] (some (.leaf 5)) (some [0]) true = some n ∧
        ∀ q, (n.getChild q).value? =
          ((doWrites [([1, 2], .leaf 7)] (.children [⟨1, .leaf 5⟩])).getChild
            ([1] ++ q)).value? := by
  obtain ⟨t, ht⟩ : ∃ t, (system Nat Nat).exec initial twoWrites = some t := ⟨_, rfl⟩
  have hrun : (system Nat Nat).Run initial _ t := .of_exec ht
  cases ht
  refine ⟨_, rfl, excluded_writes_left_out hrun proper_twoWrites (wellFormed_child 1 5) ?_ [0] true⟩
  simp [NoUpdateAbove, initial]

end FWriteTree

end FirebaseLogin
