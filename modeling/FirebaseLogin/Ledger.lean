import Mathlib.Logic.Relation
import Mathlib.Data.List.Nodup
import Mathlib.Data.List.Perm.Basic

/-!
# Ledgers of Numbered Requests

A ledger keeps account of requests that are numbered in the order of their issue. A request is
pending until it is answered; its answer may have to wait before it is passed on, after which the
request is done. The steps of a ledger say how numbers move, and from them it follows that every
number issued stands in exactly one place.

## Main results

* `Steps.accounted`: **no request is lost and none is done twice.**
* `Accounted.count_eq`, `Accounted.notMem_done`, `Accounted.lt_issued_iff`: what the account gives.
-/

namespace FirebaseLogin

/-- How many requests were issued, and where their numbers are. -/
structure Ledger where
  issued : Nat
  pending : List Nat
  waiting : List Nat
  done : List Nat

namespace Ledger

/-- A ledger without requests. -/
def empty : Ledger := ⟨0, [], [], []⟩

/-- How the numbers of a ledger move in a step. -/
inductive Step : Ledger → Ledger → Prop
  | issue (l : Ledger) :
      Step l { l with issued := l.issued + 1, pending := l.pending ++ [l.issued] }
  | hold (l : Ledger) (p : Nat → Bool) :
      Step l { l with
        pending := l.pending.filter fun i => !p i
        waiting := l.waiting ++ l.pending.filter p }
  | finish (l : Ledger) (p : Nat → Bool) :
      Step l { l with
        pending := l.pending.filter fun i => !p i
        done := l.done ++ l.pending.filter p }
  | flush (l : Ledger) : Step l { l with waiting := [], done := l.done ++ l.waiting }

/-- Any number of steps. -/
def Steps : Ledger → Ledger → Prop := Relation.ReflTransGen Step

/-- No step. -/
theorem Steps.refl (l : Ledger) : Steps l l := Relation.ReflTransGen.refl

/-- One step. -/
theorem Steps.single {l l' : Ledger} (h : Step l l') : Steps l l' := Relation.ReflTransGen.single h

/-- Steps after steps. -/
theorem Steps.trans {l l' l'' : Ledger} (h : Steps l l') (h' : Steps l' l'') : Steps l l'' :=
  Relation.ReflTransGen.trans h h'

/-- Every number that was issued stands in exactly one place. -/
def Accounted (l : Ledger) : Prop :=
  (l.pending ++ l.waiting ++ l.done).Perm (List.range l.issued)

/-- The empty account balances. -/
theorem accounted_empty : empty.Accounted := List.Perm.refl _

/-- The numbers that a filter takes out, and the others, are all of them. -/
theorem filter_append_perm (p : Nat → Bool) (l : List Nat) :
    ((l.filter fun i => !p i) ++ l.filter p).Perm l :=
  (List.perm_append_comm).trans (List.filter_append_perm p l)

/-- A step keeps the balance. -/
theorem Step.accounted {l l' : Ledger} (h : Step l l') (hl : l.Accounted) : l'.Accounted := by
  cases h with
  | issue =>
      have hperm : (l.pending ++ [l.issued] ++ l.waiting ++ l.done).Perm
          (l.pending ++ l.waiting ++ l.done ++ [l.issued]) := by
        simp only [List.append_assoc]
        refine List.Perm.append_left _ ?_
        rw [← List.append_assoc l.waiting l.done]
        exact List.perm_append_comm
      rw [Accounted, List.range_succ]
      exact hperm.trans (hl.append_right _)
  | hold p =>
      refine List.Perm.trans ?_ hl
      refine List.Perm.append_right _ ?_
      rw [← List.append_assoc, List.append_assoc]
      refine (List.Perm.append_left _ List.perm_append_comm).trans ?_
      rw [← List.append_assoc]
      exact (filter_append_perm p l.pending).append_right _
  | finish p =>
      refine List.Perm.trans ?_ hl
      rw [List.append_assoc, List.append_assoc]
      refine (List.Perm.append_left _ ?_).trans
        (List.append_assoc _ _ _ ▸ (filter_append_perm p l.pending).append_right _)
      rw [← List.append_assoc]
      exact List.perm_append_comm.trans (List.Perm.append_left _ (List.Perm.refl _))
  | flush =>
      refine List.Perm.trans ?_ hl
      rw [List.append_nil, List.append_assoc]
      exact List.Perm.append_left _ List.perm_append_comm

/-- **The account is kept** in any number of steps. -/
theorem Steps.accounted {l l' : Ledger} (h : Steps l l') (hl : l.Accounted) : l'.Accounted := by
  induction h with
  | refl => exact hl
  | tail _ hstep ih => exact hstep.accounted ih

namespace Accounted

variable {l : Ledger} (h : l.Accounted)
include h

/-- Every number that was issued stands in one place, and no other number in any. -/
theorem count_eq (i : Nat) :
    l.pending.count i + l.waiting.count i + l.done.count i = if i < l.issued then 1 else 0 := by
  rw [← List.count_append, ← List.count_append, List.Perm.count_eq h, List.count_range]

/-- A request that is pending or waiting is not done. -/
theorem notMem_done {i : Nat} (hi : i ∈ l.pending ∨ i ∈ l.waiting) : i ∉ l.done := by
  have hnodup := (List.Perm.nodup_iff h).mpr List.nodup_range
  exact (List.nodup_append'.mp hnodup).2.2 (List.mem_append.mpr hi)

/-- Every number that was issued is somewhere. -/
theorem lt_issued_iff (i : Nat) : i < l.issued ↔ i ∈ l.pending ∨ i ∈ l.waiting ∨ i ∈ l.done := by
  rw [← List.mem_range, ← List.Perm.mem_iff h, List.mem_append, List.mem_append, or_assoc]

end Accounted

end Ledger

end FirebaseLogin
