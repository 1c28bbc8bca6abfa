import FirebaseLogin.CompoundWrite
import FirebaseLogin.TransitionSystem
import Mathlib.Data.List.Induction

/-!
# The Pending Writes

`FWriteTree.m`: the writes of the client that the server has not acknowledged. They are kept one
by one and, merged, as a compound write, from which the client computes what its observers see:
the data of the server with the pending writes done on top. When a write is acknowledged or fails
it is taken out of both, and the compound write is rebuilt only where other writes overlap.

An assertion of the source that fails is `none`. As in `FirebaseLogin.CompoundWrite`, the keys of
the paths are told apart by every comparison of the source, and no write touches a `.priority`.

## Main results

* `doWrites_value?`: what writes do one after the other.
* `Layered.addWrite`, `Layered.leaveOut`, `Layered.removeWrites`: **when a compound write does what
  the writes of a list do**, and how it is kept so.
-/

namespace FirebaseLogin

open KeyTree
open FImmutableTree (ofValue setTree Pruned)

variable {κ ν : Type}

/-- What a pending write holds: a node, or the nodes of a merge. -/
inductive WriteData (κ ν : Type) where
  | overwrite (node : KeyTree κ ν)
  | merge (changedChildren : FCompoundWrite κ ν)

/-- `FWriteRecord`: a pending write with its id and path. -/
structure FWriteRecord (κ ν : Type) where
  writeId : Int
  path : List κ
  data : WriteData κ ν
  visible : Bool

/-- `FWriteTree`: the pending writes, one by one and merged. -/
structure FWriteTree (κ ν : Type) where
  visibleWrites : FCompoundWrite κ ν
  allWrites : List (FWriteRecord κ ν)
  lastWriteId : Int

/-- The locations that a pending write writes, with the nodes. -/
def FWriteRecord.writes (record : FWriteRecord κ ν) : List (List κ × KeyTree κ ν) :=
  match record.data with
  | .overwrite node => [(record.path, node)]
  | .merge changedChildren =>
      changedChildren.writeTree.forEach.map fun e => (record.path ++ e.1, e.2)

namespace FWriteTree

/-- `init`: no pending write. -/
def initial : FWriteTree κ ν := ⟨FCompoundWrite.emptyWrite, [], -1⟩

variable [DecidableEq κ]

/-- `addOverwriteAtPath:newData:writeId:isVisible:`, under an id larger than the last. -/
def addOverwriteAtPath (path : List κ) (newData : KeyTree κ ν) (writeId : Int) (visible : Bool)
    (t : FWriteTree κ ν) : Option (FWriteTree κ ν) :=
  if writeId > t.lastWriteId then
    some {
      visibleWrites :=
        if visible then t.visibleWrites.addWrite newData path else t.visibleWrites
      allWrites := t.allWrites ++ [⟨writeId, path, .overwrite newData, visible⟩]
      lastWriteId := writeId }
  else none

/-- `addMergeAtPath:changedChildren:writeId:`, under an id larger than the last. -/
def addMergeAtPath (path : List κ) (changedChildren : FCompoundWrite κ ν) (writeId : Int)
    (t : FWriteTree κ ν) : Option (FWriteTree κ ν) :=
  if writeId > t.lastWriteId then
    some {
      visibleWrites := t.visibleWrites.addCompoundWrite changedChildren path
      allWrites := t.allWrites ++ [⟨writeId, path, .merge changedChildren, true⟩]
      lastWriteId := writeId }
  else none

/-- `record:containsPath:`. -/
def containsPath (record : FWriteRecord κ ν) (path : List κ) : Bool :=
  match record.data with
  | .overwrite _ => record.path.isPrefixOf path
  | .merge changedChildren =>
      changedChildren.writeTree.forEach.any fun e => (record.path ++ e.1).isPrefixOf path

/-- One record in `layerTreeFromWrites:filter:treeRoot:`. -/
def layerRecord (treeRoot : List κ) (compoundWrite : FCompoundWrite κ ν)
    (record : FWriteRecord κ ν) : FCompoundWrite κ ν :=
  match record.data with
  | .overwrite node =>
      if treeRoot.isPrefixOf record.path then
        compoundWrite.addWrite node (FCompoundWrite.relativePath treeRoot record.path)
      else if record.path.isPrefixOf treeRoot then
        compoundWrite.addWrite
          (node.getChild (FCompoundWrite.relativePath record.path treeRoot)) []
      else compoundWrite
  | .merge changedChildren =>
      if treeRoot.isPrefixOf record.path then
        compoundWrite.addCompoundWrite changedChildren
          (FCompoundWrite.relativePath treeRoot record.path)
      else if record.path.isPrefixOf treeRoot then
        let relativePath := FCompoundWrite.relativePath record.path treeRoot
        if relativePath = [] then compoundWrite.addCompoundWrite changedChildren []
        else
          match changedChildren.completeNodeAtPath relativePath with
          | none => compoundWrite
          | some child => compoundWrite.addWrite (child.getChild relativePath.tail) []
      else compoundWrite

/-- `layerTreeFromWrites:filter:treeRoot:`. -/
def layerTreeFromWrites (writes : List (FWriteRecord κ ν)) (filter : FWriteRecord κ ν → Bool)
    (treeRoot : List κ) : FCompoundWrite κ ν :=
  writes.foldl (fun compoundWrite record =>
    if filter record then layerRecord treeRoot compoundWrite record else compoundWrite)
    FCompoundWrite.emptyWrite

/-- `resetTree`. The default filter of the source keeps every record. -/
def resetTree (t : FWriteTree κ ν) : FWriteTree κ ν :=
  { t with
    visibleWrites := layerTreeFromWrites t.allWrites (fun _ => true) []
    lastWriteId := (t.allWrites.getLast?.map FWriteRecord.writeId).getD (-1) }

/-- The loop of `removeWriteId:` over the remaining records with their indices, from the last on:
whether the removed write was visible, and whether it overlaps with others. -/
def removalScan (writeToRemove : FWriteRecord κ ν) (index : Nat) :
    List (FWriteRecord κ ν × Nat) → Bool → Bool → Bool × Bool
  | [], visible, overlaps => (visible, overlaps)
  | (currentWrite, i) :: rest, visible, overlaps =>
      if visible then
        if currentWrite.visible then
          if index ≤ i && containsPath currentWrite writeToRemove.path then
            removalScan writeToRemove index rest false overlaps
          else if writeToRemove.path.isPrefixOf currentWrite.path then
            removalScan writeToRemove index rest visible true
          else removalScan writeToRemove index rest visible overlaps
        else removalScan writeToRemove index rest visible overlaps
      else (visible, overlaps)

/-- `removeWriteId:`, with whether the write may have been visible. -/
def removeWriteId (writeId : Int) (t : FWriteTree κ ν) : Option (FWriteTree κ ν × Bool) :=
  match t.allWrites.findIdx? (fun record => record.writeId = writeId) with
  | none => none
  | some index =>
      (t.allWrites[index]?).map fun writeToRemove =>
        let t := { t with allWrites := t.allWrites.eraseIdx index }
        match removalScan writeToRemove index t.allWrites.zipIdx.reverse writeToRemove.visible
            false with
        | (false, _) => (t, false)
        | (true, true) => (t.resetTree, true)
        | (true, false) =>
            match writeToRemove.data with
            | .overwrite _ =>
                ({ t with
                  visibleWrites := t.visibleWrites.removeWriteAtPath writeToRemove.path }, true)
            | .merge changedChildren =>
                ({ t with
                  visibleWrites := changedChildren.writeTree.forEach.foldl
                    (fun w e => w.removeWriteAtPath (writeToRemove.path ++ e.1))
                    t.visibleWrites }, true)

/-- `removeAllWrites`, with the writes that were pending. -/
def removeAllWrites (t : FWriteTree κ ν) : FWriteTree κ ν × List (FWriteRecord κ ν) :=
  ({ t with visibleWrites := FCompoundWrite.emptyWrite, allWrites := [] }, t.allWrites)

/-- `calculateCompleteEventCacheAtPath:completeServerCache:excludeWriteIds:includeHiddenWrites:`. -/
def calculateCompleteEventCacheAtPath (treePath : List κ)
    (completeServerCache : Option (KeyTree κ ν)) (writeIdsToExclude : Option (List Int))
    (includeHiddenWrites : Bool) (t : FWriteTree κ ν) : Option (KeyTree κ ν) :=
  if writeIdsToExclude = none ∧ includeHiddenWrites = false then
    match t.visibleWrites.completeNodeAtPath treePath with
    | some shadowingNode => some shadowingNode
    | none =>
        let subMerge := t.visibleWrites.childCompoundWriteAtPath treePath
        if subMerge.isEmpty then completeServerCache
        else if completeServerCache.isNone && !subMerge.hasCompleteWriteAtPath [] then none
        else some (subMerge.applyToNode (completeServerCache.getD KeyTree.empty))
  else
    let merge := t.visibleWrites.childCompoundWriteAtPath treePath
    if !includeHiddenWrites && merge.isEmpty then completeServerCache
    else if !includeHiddenWrites && completeServerCache.isNone &&
        !merge.hasCompleteWriteAtPath [] then none
    else
      let filter := fun record : FWriteRecord κ ν =>
        (record.visible || includeHiddenWrites) &&
          (writeIdsToExclude.all fun ids => !ids.contains record.writeId) &&
          (record.path.isPrefixOf treePath || treePath.isPrefixOf record.path)
      let mergeAtPath := layerTreeFromWrites t.allWrites filter treePath
      some (mergeAtPath.applyToNode (completeServerCache.getD KeyTree.empty))

/-- `calculateEventCacheAfterServerOverwriteAtPath:childPath:existingEventSnap:existingServerSnap:`,
`none` for no event. The event snapshot is only asserted to be there when the server snapshot is
not, and a message to a missing snapshot has no effect. -/
def calculateEventCacheAfterServerOverwriteAtPath (treePath childPath : List κ)
    (existingServerSnap : Option (KeyTree κ ν)) (t : FWriteTree κ ν) : Option (KeyTree κ ν) :=
  let path := treePath ++ childPath
  if t.visibleWrites.hasCompleteWriteAtPath path then none
  else
    let childMerge := t.visibleWrites.childCompoundWriteAtPath path
    if childMerge.isEmpty then existingServerSnap.map fun snap => snap.getChild childPath
    else existingServerSnap.map fun snap => childMerge.applyToNode (snap.getChild childPath)

end FWriteTree

/-! ### Lists of writes -/

section Layers

variable [DecidableEq κ]

/-- What writes set the value at a location to, the last of them deciding. -/
def setsOf (ws : List (List κ × KeyTree κ ν)) (q : List κ) : Option (Option ν) :=
  ws.foldl (fun before w => (setsAt w.1 (ofValue w.2) q).or before) none

/-- The writes one after the other. -/
def doWrites (ws : List (List κ × KeyTree κ ν)) (t : KeyTree κ ν) : KeyTree κ ν :=
  ws.foldl (fun t w => t.updateChild w.1 w.2) t

/-- What writes in two parts set: the later ones first. -/
theorem setsOf_append (ws ws' : List (List κ × KeyTree κ ν)) (q : List κ) :
    setsOf (ws ++ ws') q = (setsOf ws' q).or (setsOf ws q) := by
  have hfoldl : ∀ (ws : List (List κ × KeyTree κ ν)) (o : Option (Option ν)),
      ws.foldl (fun before w => (setsAt w.1 (ofValue w.2) q).or before) o =
        (setsOf ws q).or o := by
    intro ws
    induction ws using List.reverseRecOn with
    | nil => exact fun o => rfl
    | append_singleton ws w ih =>
        intro o
        rw [setsOf, List.foldl_append, List.foldl_append, ih, ih]
        simp [Option.or_assoc]
  rw [setsOf, List.foldl_append, hfoldl ws']
  rfl

/-- What a single write sets. -/
theorem setsOf_singleton (w : List κ × KeyTree κ ν) (q : List κ) :
    setsOf [w] q = setsAt w.1 (ofValue w.2) q := by
  rw [setsOf, List.foldl_cons, List.foldl_nil, Option.or_none]

/-- What the first write sets is asked last. -/
theorem setsOf_cons (w : List κ × KeyTree κ ν) (ws : List (List κ × KeyTree κ ν)) (q : List κ) :
    setsOf (w :: ws) q = (setsOf ws q).or (setsAt w.1 (ofValue w.2) q) := by
  rw [← List.singleton_append, setsOf_append, setsOf_singleton]

/-- A write leaves alone what is neither above nor below it. -/
theorem setsAt_ofValue_eq_none_iff (p : List κ) (n : KeyTree κ ν) (q : List κ) :
    setsAt p (ofValue n) q = none ↔ ¬ p <+: q ∧ ¬ q <+: p := by
  induction p generalizing q with
  | nil => simp [setsAt]
  | cons k p ih =>
      cases q with
      | nil => simp [setsAt]
      | cons k' q =>
          rw [setsAt, List.cons_prefix_cons, List.cons_prefix_cons]
          by_cases hk : k' = k
          · rw [if_pos hk, ih, hk]
            simp
          · have hk' : k ≠ k' := fun heq => hk heq.symm
            simp [hk, hk']

/-- Above a write the value is lost. -/
theorem setsAt_ofValue_of_above {p : List κ} (n : KeyTree κ ν) {q : List κ} (hp : ¬ p <+: q)
    (hq : q <+: p) : setsAt p (ofValue n) q = some none := by
  induction p generalizing q with
  | nil => exact absurd List.nil_prefix hp
  | cons k p ih =>
      cases q with
      | nil => rfl
      | cons k' q =>
          obtain ⟨hk, hpre⟩ := List.cons_prefix_cons.mp hq
          subst hk
          rw [setsAt, if_pos rfl]
          exact ih (fun hp' => hp (List.cons_prefix_cons.mpr ⟨rfl, hp'⟩)) hpre

/-- Writes set nothing at a location beside all of them. -/
theorem setsOf_eq_none_iff (ws : List (List κ × KeyTree κ ν)) (q : List κ) :
    setsOf ws q = none ↔ ∀ w ∈ ws, ¬ w.1 <+: q ∧ ¬ q <+: w.1 := by
  induction ws with
  | nil => simp [setsOf]
  | cons w ws ih =>
      rw [setsOf_cons, Option.or_eq_none_iff, ih, setsAt_ofValue_eq_none_iff,
        List.forall_mem_cons]
      exact And.comm

/-- What leaves a location alone can be left out. -/
theorem setsOf_filter {ws : List (List κ × KeyTree κ ν)} {P : List κ × KeyTree κ ν → Bool}
    {q : List κ} (h : ∀ w ∈ ws, P w = false → setsAt w.1 (ofValue w.2) q = none) :
    setsOf (ws.filter P) q = setsOf ws q := by
  induction ws with
  | nil => rfl
  | cons w ws ih =>
      rw [List.forall_mem_cons] at h
      rw [setsOf_cons, ← ih h.2, List.filter_cons]
      split
      · rw [setsOf_cons]
      · rename_i hw
        rw [h.1 (Bool.not_eq_true _ ▸ hw), Option.or_none]

/-- Where no write is above, the value is lost if one is below. -/
theorem setsOf_of_none_above {ws : List (List κ × KeyTree κ ν)} {q : List κ}
    (h : ∀ w ∈ ws, ¬ w.1 <+: q) :
    setsOf ws q = some none ∧ (∃ w ∈ ws, q <+: w.1) ∨
      setsOf ws q = none ∧ ∀ w ∈ ws, ¬ q <+: w.1 := by
  induction ws with
  | nil => exact .inr ⟨rfl, by simp⟩
  | cons w ws ih =>
      rw [List.forall_mem_cons] at h
      rw [setsOf_cons]
      rcases ih h.2 with ⟨hsome, w', hw', hpre⟩ | ⟨hnone, hall⟩
      · exact .inl ⟨by rw [hsome, Option.some_or], w', List.mem_cons_of_mem _ hw', hpre⟩
      · rw [hnone, Option.none_or]
        by_cases hq : q <+: w.1
        · exact .inl ⟨setsAt_ofValue_of_above w.2 h.1 hq, w, List.mem_cons_self, hq⟩
        · refine .inr ⟨(setsAt_ofValue_eq_none_iff _ _ _).mpr ⟨h.1, hq⟩, ?_⟩
          exact List.forall_mem_cons.mpr ⟨hq, hall⟩

/-- What the writes do one after the other. -/
theorem doWrites_value? {ws : List (List κ × KeyTree κ ν)} (hws : ∀ w ∈ ws, Solid w.2)
    {t : KeyTree κ ν} (ht : t.WellFormed) (q : List κ) :
    ((doWrites ws t).getChild q).value? = (setsOf ws q).getD (t.getChild q).value? := by
  induction ws generalizing t with
  | nil => rfl
  | cons w ws ih =>
      rw [List.forall_mem_cons] at hws
      rw [doWrites, List.foldl_cons, ← doWrites, ih hws.2 (ht.updateChild w.1 hws.1.1),
        value?_updateChild_eq ht (.inl hws.1.2), setsOf_cons]
      cases setsOf ws q with
      | none => rfl
      | some v => rfl

/-- A compound write does what the writes of a list do. -/
structure Layered (c : FCompoundWrite κ ν) (ws : List (List κ × KeyTree κ ν)) : Prop where
  pruned : Pruned Solid c.writeTree
  covers : ∀ q, Covers c.writeTree q ↔ ∃ w ∈ ws, w.1 <+: q
  sets : ∀ q, sets c.writeTree q = setsOf ws q

/-- No writes are layered as the empty compound write. -/
theorem Layered.empty : Layered (FCompoundWrite.emptyWrite : FCompoundWrite κ ν) [] where
  pruned := .empty
  covers q := by
    constructor
    · exact fun hq => absurd hq (not_covers_empty q)
    · simp
  sets q := sets_empty q

namespace Layered

variable {c : FCompoundWrite κ ν} {ws : List (List κ × KeyTree κ ν)} (h : Layered c ws)
include h

/-- One more write is layered. -/
theorem addWrite {n : KeyTree κ ν} (hn : Solid n) (p : List κ) :
    Layered (c.addWrite n p) (ws ++ [(p, n)]) where
  pruned := (pruned_addWrite h.pruned hn p).1
  covers q := by
    rw [covers_addWrite h.pruned, h.covers]
    simp [or_and_right, exists_or]
  sets q := by
    rw [setsOf_append, setsOf_singleton, ← h.sets]
    exact sets_addWrite h.pruned (.inl hn.2) q

/-- Further writes are layered one after the other. -/
theorem addWrites {ws' : List (List κ × KeyTree κ ν)} (hws' : ∀ w ∈ ws', Solid w.2) :
    Layered (ws'.foldl (fun c w => c.addWrite w.2 w.1) c) (ws ++ ws') := by
  induction ws' generalizing c ws with
  | nil => rwa [List.append_nil]
  | cons w ws' ih =>
      rw [List.forall_mem_cons] at hws'
      have hadd := ih (h.addWrite hws'.1 w.1) hws'.2
      rwa [List.append_assoc] at hadd

/-- An update is layered as its writes. -/
theorem addCompoundWrite {m : FCompoundWrite κ ν} (hm : Pruned Solid m.writeTree) (p : List κ) :
    Layered (c.addCompoundWrite m p)
      (ws ++ m.writeTree.forEach.map fun e => (p ++ e.1, e.2)) := by
  have hwrites : ∀ w ∈ m.writeTree.forEach.map fun e => (p ++ e.1, e.2), Solid w.2 := by
    intro w hw
    obtain ⟨e, he, rfl⟩ := List.mem_map.mp hw
    have hsolid := hm.of_mem_forEach he
    exact hsolid
  have hadd := h.addWrites hwrites
  rwa [List.foldl_map] at hadd

/-- Writes that are covered by a later one can be left out. -/
theorem leaveOut {ws₁ xs ws₂ : List (List κ × KeyTree κ ν)} (hws : ws = ws₁ ++ xs ++ ws₂)
    {w : List κ × KeyTree κ ν} (hw : w ∈ ws₂) (hxs : ∀ x ∈ xs, w.1 <+: x.1) :
    Layered c (ws₁ ++ ws₂) := by
  subst hws
  refine ⟨h.pruned, fun q => ?_, fun q => ?_⟩
  · rw [h.covers]
    constructor
    · rintro ⟨w', hw', hpre⟩
      rcases List.mem_append.mp hw' with hw' | hw'
      · rcases List.mem_append.mp hw' with hw' | hw'
        · exact ⟨w', List.mem_append_left _ hw', hpre⟩
        · exact ⟨w, List.mem_append_right _ hw, (hxs w' hw').trans hpre⟩
      · exact ⟨w', List.mem_append_right _ hw', hpre⟩
    · rintro ⟨w', hw', hpre⟩
      refine ⟨w', ?_, hpre⟩
      rw [List.mem_append] at hw'
      simp only [List.mem_append]
      tauto
  · rw [h.sets, setsOf_append, setsOf_append, setsOf_append]
    cases hlast : setsOf ws₂ q with
    | some v => rfl
    | none =>
        obtain ⟨hnp, hnq⟩ := (setsOf_eq_none_iff ws₂ q).mp hlast w hw
        have hnone : setsOf xs q = none := by
          rw [setsOf_eq_none_iff]
          intro x hx
          refine ⟨fun hpre => hnp ((hxs x hx).trans hpre), fun hpre => ?_⟩
          rcases List.prefix_or_prefix_of_prefix hpre (hxs x hx) with hc | hc
          · exact hnq hc
          · exact hnp hc
        rw [hnone, Option.none_or, Option.none_or]

/-- No write is strictly above the path where writes are removed. -/
theorem not_covers_above {p : List κ} (hp : ∀ w ∈ ws, w.1 <+: p → w.1 = p) {r : List κ}
    (hr : r <+: p) (hne : r ≠ p) : ¬ Covers c.writeTree r := by
  intro hcovers
  obtain ⟨w, hw, hpre⟩ := (h.covers r).mp hcovers
  rw [hp w hw (hpre.trans hr)] at hpre
  exact hne (hr.eq_of_length_le hpre.length_le)

/-- The writes at a path can be taken out when no other one overlaps the path. -/
theorem removeWriteAtPath {p : List κ}
    (hp : ∀ w ∈ ws, w.1 <+: p ∨ p <+: w.1 → w.1 = p) :
    Layered (c.removeWriteAtPath p) (ws.filter fun w => w.1 ≠ p) := by
  have hremove := writeTree_removeWriteAtPath c p
  have hpruned : Pruned Solid (c.removeWriteAtPath p).writeTree := by
    rw [hremove]
    exact h.pruned.setTree_empty p
  have habove : ∀ r, r <+: p → r ≠ p → ¬ Covers c.writeTree r :=
    fun r hr hne => h.not_covers_above (fun w hw hpre => hp w hw (.inl hpre)) hr hne
  have hcovers : ∀ q, Covers (c.removeWriteAtPath p).writeTree q ↔
      ∃ w ∈ ws.filter fun w => w.1 ≠ p, w.1 <+: q := by
    intro q
    rw [hremove, covers_setTree_empty h.pruned habove, h.covers]
    constructor
    · rintro ⟨⟨w, hw, hpre⟩, hq⟩
      have hne : w.1 ≠ p := fun heq => hq (heq ▸ hpre)
      exact ⟨w, List.mem_filter.mpr ⟨hw, by simpa using hne⟩, hpre⟩
    · rintro ⟨w, hw, hpre⟩
      obtain ⟨hw, hne⟩ := List.mem_filter.mp hw
      refine ⟨⟨w, hw, hpre⟩, fun hq => ?_⟩
      have heq : w.1 = p := hp w hw (List.prefix_or_prefix_of_prefix hpre hq)
      simp [heq] at hne
  refine ⟨hpruned, hcovers, fun q => ?_⟩
  by_cases hq : Covers (c.removeWriteAtPath p).writeTree q
  · rw [hremove, covers_setTree_empty h.pruned habove] at hq
    rw [hremove, sets_setTree_empty h.pruned habove hq.1 hq.2, h.sets]
    refine (setsOf_filter fun w hw heq => ?_).symm
    obtain rfl : w.1 = p := by simpa using heq
    -- the writes that are removed lie beside the location
    refine (setsAt_ofValue_eq_none_iff _ _ _).mpr ⟨hq.2, fun hpre => ?_⟩
    obtain ⟨w', hw', hpre'⟩ := (h.covers q).mp hq.1
    exact hq.2 (hp w' hw' (.inl (hpre'.trans hpre)) ▸ hpre')
  · have hnone : ∀ w ∈ ws.filter fun w => w.1 ≠ p, ¬ w.1 <+: q :=
      fun w hw hpre => hq ((hcovers q).mpr ⟨w, hw, hpre⟩)
    rcases sets_of_not_covers hpruned hq with ⟨hsets, p', hp'⟩ | ⟨hsets, hall⟩
    · obtain ⟨w, hw, hpre⟩ := (hcovers _).mp hp'
      have hbelow : q <+: w.1 :=
        (List.prefix_or_prefix_of_prefix (List.prefix_append q p') hpre).resolve_right
          (hnone w hw)
      rcases setsOf_of_none_above hnone with ⟨hsets', -⟩ | ⟨-, hall⟩
      · rw [hsets, hsets']
      · exact absurd hbelow (hall w hw)
    · rcases setsOf_of_none_above hnone with ⟨-, w, hw, p', hp'⟩ | ⟨hsets', -⟩
      · exact absurd ((hcovers _).mpr ⟨w, hw, hp' ▸ List.prefix_rfl⟩) (hall p')
      · rw [hsets, hsets']

/-- The writes of a removed record, when each lies beside the other writes. -/
theorem removeWrites {xs : List (List κ × KeyTree κ ν)}
    (hxs : ∀ w ∈ ws, ∀ x ∈ xs, w.1 <+: x.1 ∨ x.1 <+: w.1 → w.1 = x.1) :
    Layered (xs.foldl (fun c x => c.removeWriteAtPath x.1) c)
      (ws.filter fun w => ∀ x ∈ xs, w.1 ≠ x.1) := by
  induction xs generalizing c ws with
  | nil => simpa using h
  | cons x xs ih =>
      have hfirst := h.removeWriteAtPath fun w hw => hxs w hw x List.mem_cons_self
      have hrest := ih hfirst fun w hw x' hx' =>
        hxs w (List.mem_filter.mp hw).1 x' (List.mem_cons_of_mem _ hx')
      have hfilter : (ws.filter fun w => w.1 ≠ x.1).filter (fun w => ∀ x ∈ xs, w.1 ≠ x.1) =
          ws.filter fun w => ∀ x' ∈ x :: xs, w.1 ≠ x'.1 := by
        rw [List.filter_filter]
        refine List.filter_congr fun w hw => ?_
        rw [Bool.eq_iff_iff, Bool.and_eq_true, decide_eq_true_iff, decide_eq_true_iff,
          decide_eq_true_iff, List.forall_mem_cons, and_comm]
      rwa [hfilter] at hrest

end Layered

end Layers

end FirebaseLogin
