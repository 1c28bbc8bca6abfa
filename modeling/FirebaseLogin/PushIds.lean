import FirebaseLogin.KeyOrder
import FirebaseLogin.DataManager
import Mathlib.Data.Vector.Basic
import Mathlib.Order.Fin.Basic

/-!
# Push Ids

`FNextPushId.m`: the key of `childByAutoId`. An id is the time in milliseconds in eight digits to
the base 64 and twelve more digits, random ones at a new time and, at the time of the last id,
those of the last id plus one. The clock and the random digits are arguments.

The carry of the increment has nowhere to go when all twelve digits are 63 and a further id is
drawn in the same millisecond: the source then increments `lastRandChars[-1]`, before its array, and
returns an id with twelve zero digits, which is smaller. Here `get` is `none` there. The eight
digits of the time are those of a clock below `64 ^ 8` milliseconds; beyond it they wrap around.

## Main results

* `get_lt`: the next id is larger in the order of keys.
* `pushIds_ascending`: **the ids of a run under a clock that does not go back ascend.**
-/

namespace FirebaseLogin

open Std (OrientedCmp TransCmp)

/-! ### The generator -/

/-- The character of a digit. -/
def pushChar (i : Fin 64) : Char := pushChars.toList.get ⟨i, by simp [pushChars]⟩

/-- The loop over the time stamp: its last digits, the most significant first. -/
def timeStampChars : Nat → Nat → List (Fin 64)
  | 0, _ => []
  | i + 1, now => timeStampChars i (now / 64) ++ [Fin.ofNat 64 now]

/-- The loop of the increment, over the digits from the last one. -/
def incrementFromLast : List (Fin 64) → Option (List (Fin 64))
  | [] => none
  | c :: cs =>
      if c = 63 then (incrementFromLast cs).map fun cs => 0 :: cs else some ((c + 1) :: cs)

/-- The twelve random digits. -/
abbrev RandChars := List.Vector (Fin 64) 12

/-- The static variables of `get`. -/
structure FNextPushId where
  lastPushTime : Nat
  lastRandChars : RandChars

namespace FNextPushId

/-- The variables when the program starts. -/
def initial : FNextPushId := ⟨0, List.Vector.replicate 12 0⟩

/-- What a call reads besides the variables: the clock, and the digits it would draw. -/
structure Draw where
  now : Nat
  rand : RandChars

end FNextPushId

/-- The time stamp has as many digits as asked for. -/
@[simp]
theorem length_timeStampChars (i now : Nat) : (timeStampChars i now).length = i := by
  induction i generalizing now with
  | zero => rfl
  | succ i ih => rw [timeStampChars, List.length_append, ih, List.length_singleton]

/-- The increment keeps the number of the digits. -/
theorem length_incrementFromLast {cs cs' : List (Fin 64)} (h : incrementFromLast cs = some cs') :
    cs'.length = cs.length := by
  induction cs generalizing cs' with
  | nil => cases h
  | cons c cs ih =>
      rw [incrementFromLast] at h
      split at h
      · obtain ⟨cs'', hcs, rfl⟩ := Option.map_eq_some_iff.mp h
        rw [List.length_cons, List.length_cons, ih hcs]
      · obtain rfl := Option.some.inj h
        rfl

/-- The digits after those of the last id; `none` when all twelve are 63, where the source
increments `lastRandChars[-1]`. -/
def incremented (rand : RandChars) : Option RandChars :=
  match h : incrementFromLast rand.toList.reverse with
  | none => none
  | some cs => some ⟨cs.reverse, by
      rw [List.length_reverse, length_incrementFromLast h, List.length_reverse,
        List.Vector.toList_length]⟩

/-- The id of a time and twelve digits. -/
def pushIdOf (now : Nat) (rand : RandChars) : PushId where
  val := String.ofList ((timeStampChars 8 now ++ rand.toList).map pushChar)
  length_eq := by simp
  chars := by
    intro c hc
    rw [String.toList_ofList] at hc
    obtain ⟨i, -, rfl⟩ := List.mem_map.mp hc
    exact List.get_mem _ _

namespace FNextPushId

/-- `get:`, the id and the variables after it; `none` on the overflow of `incremented`, where the
source returns an id all the same. -/
def get (s : FNextPushId) (d : Draw) : Option (PushId × FNextPushId) :=
  let duplicateTime := d.now = s.lastPushTime
  (if ¬ duplicateTime then some d.rand else incremented s.lastRandChars).map fun rand =>
    (pushIdOf d.now rand, ⟨d.now, rand⟩)

/-- The ids of a sequence of calls. -/
def pushIds : FNextPushId → List Draw → Option (List PushId)
  | _, [] => some []
  | s, d :: ds => (s.get d).bind fun (id, s) => (pushIds s ds).map fun ids => id :: ids

end FNextPushId

/-- An id as a key. -/
def PushId.nodeKey (id : PushId) : NodeKey := .text (unichars id.val)

/-! ### Lists of one length -/

/-- Lists that begin with lists of one length are compared part by part. -/
theorem compare_append {α : Type} [Ord α] {u v x y : List α} (h : u.length = v.length) :
    compare (u ++ x) (v ++ y) = (compare u v).then (compare x y) := by
  induction u generalizing v with
  | nil =>
      obtain rfl := List.length_eq_zero_iff.mp h.symm
      rfl
  | cons a u ih =>
      cases v with
      | nil => cases h
      | cons b v =>
          rw [List.cons_append, List.cons_append, List.compare_cons_cons, List.compare_cons_cons,
            ih (Nat.succ.inj h), Ordering.then_assoc]

/-- Lists are compared as their images under a map that keeps the order. -/
theorem compare_map {α β : Type} [Ord α] [Ord β] {f : α → β}
    (hf : ∀ a b, compare (f a) (f b) = compare a b) (u v : List α) :
    compare (u.map f) (v.map f) = compare u v := by
  induction u generalizing v with
  | nil =>
      cases v with
      | nil | cons b v => rfl
  | cons a u ih =>
      cases v with
      | nil => rfl
      | cons b v =>
          rw [List.map_cons, List.map_cons, List.compare_cons_cons, List.compare_cons_cons, hf, ih]

/-! ### The digits -/

/-- Numbers are compared as their digits. -/
theorem compare_timeStampChars (i : Nat) {a b : Nat} (ha : a < 64 ^ i) (hb : b < 64 ^ i) :
    compare (timeStampChars i a) (timeStampChars i b) = compare a b := by
  induction i generalizing a b with
  | zero =>
      obtain rfl : a = 0 := by omega
      obtain rfl : b = 0 := by omega
      rfl
  | succ i ih =>
      have hdiv : ∀ {n : Nat}, n < 64 ^ (i + 1) → n / 64 < 64 ^ i := by
        intro n hn
        rw [Nat.pow_succ] at hn
        exact Nat.div_lt_of_lt_mul (by rwa [Nat.mul_comm])
      rw [timeStampChars, timeStampChars, compare_append (by simp), ih (hdiv ha) (hdiv hb),
        List.compare_cons_cons]
      have hdigit : compare (Fin.ofNat 64 a) (Fin.ofNat 64 b) = compare (a % 64) (b % 64) := rfl
      have hnil : compare ([] : List (Fin 64)) [] = .eq := rfl
      rw [hdigit, hnil, Ordering.then_eq]
      rcases Nat.lt_trichotomy (a / 64) (b / 64) with h | h | h
      · rw [Nat.compare_eq_lt.mpr h, Ordering.lt_then, Nat.compare_eq_lt.mpr (by omega)]
      · rw [Nat.compare_eq_eq.mpr h, Ordering.eq_then]
        rcases Nat.lt_trichotomy (a % 64) (b % 64) with h' | h' | h'
        · rw [Nat.compare_eq_lt.mpr h', Nat.compare_eq_lt.mpr (by omega)]
        · rw [Nat.compare_eq_eq.mpr h', Nat.compare_eq_eq.mpr (by omega)]
        · rw [Nat.compare_eq_gt.mpr h', Nat.compare_eq_gt.mpr (by omega)]
      · rw [Nat.compare_eq_gt.mpr h, Ordering.gt_then, Nat.compare_eq_gt.mpr (by omega)]

/-- A digit below the last one is followed by a larger one. -/
theorem compare_add_one : ∀ c : Fin 64, c ≠ 63 → compare c (c + 1) = .lt := by
  decide

/-- The increment makes the digits larger. -/
theorem compare_incrementFromLast {cs cs' : List (Fin 64)} (h : incrementFromLast cs = some cs') :
    compare cs.reverse cs'.reverse = .lt := by
  induction cs generalizing cs' with
  | nil => cases h
  | cons c cs ih =>
      rw [incrementFromLast] at h
      split at h
      · -- the carry: what is before the digit has become larger
        obtain ⟨cs'', hcs, rfl⟩ := Option.map_eq_some_iff.mp h
        rw [List.reverse_cons, List.reverse_cons,
          compare_append (by simp [length_incrementFromLast hcs]), ih hcs, Ordering.lt_then]
      · rename_i hc
        obtain rfl := Option.some.inj h
        rw [List.reverse_cons, List.reverse_cons, compare_append rfl,
          Std.ReflOrd.compare_self, Ordering.eq_then, List.compare_cons_cons,
          compare_add_one c hc, Ordering.lt_then]

/-- The digits after others are larger. -/
theorem compare_incremented {rand rand' : RandChars} (h : incremented rand = some rand') :
    compare rand.toList rand'.toList = .lt := by
  rw [incremented] at h
  split at h
  · cases h
  · rename_i cs hcs
    obtain rfl := Option.some.inj h
    have hlt := compare_incrementFromLast hcs
    rwa [List.reverse_reverse] at hlt

/-! ### The characters -/

/-- The code unit of a digit. -/
def pushUnit (i : Fin 64) : UInt16 := UInt16.ofNat (pushChar i).toNat

/-- The characters of the digits are ASCII. -/
theorem pushChar_lt : ∀ i : Fin 64, (pushChar i).toNat < 0x80 := by
  decide +kernel

/-- The characters ascend with the digits. -/
theorem pushChar_strictMono : StrictMono fun i => (pushChar i).toNat :=
  Fin.strictMono_iff_lt_succ.mpr (by decide +kernel)

/-- The code unit of a digit is its character. -/
theorem toNat_pushUnit (i : Fin 64) : (pushUnit i).toNat = (pushChar i).toNat := by
  rw [pushUnit, UInt16.toNat_ofNat']
  exact Nat.mod_eq_of_lt (Nat.lt_trans (pushChar_lt i) (by decide))

/-- Digits are compared as their code units. -/
theorem compare_pushUnit (a b : Fin 64) : compare (pushUnit a) (pushUnit b) = compare a b := by
  have hlt : ∀ {a b : Fin 64}, a < b → pushUnit a < pushUnit b := by
    intro a b hab
    rw [UInt16.lt_iff_toNat_lt, toNat_pushUnit, toNat_pushUnit]
    exact pushChar_strictMono hab
  rcases lt_trichotomy a b with h | rfl | h
  · rw [Std.compare_eq_lt.mpr (hlt h)]
    exact (Nat.compare_eq_lt.mpr h).symm
  · rw [Std.ReflOrd.compare_self, Std.ReflOrd.compare_self]
  · rw [Std.compare_eq_gt.mpr (hlt h)]
    exact (Nat.compare_eq_gt.mpr h).symm

/-- The character of a digit is one code unit. -/
theorem unicharsOfChar_pushChar (i : Fin 64) : unicharsOfChar (pushChar i) = [pushUnit i] := by
  rw [unicharsOfChar, if_pos (Nat.lt_trans (pushChar_lt i) (by decide))]
  rfl

/-- The code units of an id are those of its digits. -/
theorem unichars_pushIdOf (now : Nat) (rand : RandChars) :
    unichars (pushIdOf now rand).val = (timeStampChars 8 now ++ rand.toList).map pushUnit := by
  rw [unichars, pushIdOf, String.toList_ofList, List.flatMap_map]
  simp only [unicharsOfChar_pushChar]
  induction timeStampChars 8 now ++ rand.toList with
  | nil => rfl
  | cons i is ih => rw [List.flatMap_cons, ih, List.map_cons, List.singleton_append]

/-- A text of more than eleven code units is no integer. -/
theorem compareKey_text_of_long {a b : List UInt16} (ha : 11 < a.length) (hb : 11 < b.length) :
    compareKey (.text a) (.text b) = compare a b := by
  have hnone : ∀ {str : List UInt16}, 11 < str.length → tryParseStringToInt str = none := by
    intro str hstr
    rw [tryParseStringToInt, if_pos (.inl hstr)]
  by_cases hab : a = b
  · rw [hab, Std.ReflOrd.compare_self]
    exact Std.ReflCmp.compare_self
  · simp [compareKey, hab, compareText, hnone ha, hnone hb]

/-- **The order of ids** is that of their times, and then of their other digits. -/
theorem compareKey_pushIdOf {now now' : Nat} (h : now < 64 ^ 8) (h' : now' < 64 ^ 8)
    (rand rand' : RandChars) :
    compareKey (pushIdOf now rand).nodeKey (pushIdOf now' rand').nodeKey =
      (compare now now').then (compare rand.toList rand'.toList) := by
  rw [PushId.nodeKey, PushId.nodeKey, unichars_pushIdOf, unichars_pushIdOf,
    compareKey_text_of_long (by simp) (by simp), compare_map compare_pushUnit,
    compare_append (by simp), compare_timeStampChars 8 h h']

/-! ### Runs -/

namespace FNextPushId

/-- What a call leaves. -/
theorem eq_of_get {s s' : FNextPushId} {d : Draw} {id : PushId} (h : s.get d = some (id, s')) :
    id = pushIdOf s'.lastPushTime s'.lastRandChars ∧ s'.lastPushTime = d.now ∧
      (d.now = s.lastPushTime → incremented s.lastRandChars = some s'.lastRandChars) := by
  obtain ⟨rand, hrand, heq⟩ := Option.map_eq_some_iff.mp h
  obtain ⟨rfl, rfl⟩ := Prod.mk.inj heq
  refine ⟨rfl, rfl, fun hdup => ?_⟩
  rwa [if_neg (by simp [hdup])] at hrand

/-- **The next id** is larger than the last one. -/
theorem get_lt {s s' : FNextPushId} {d : Draw} {id : PushId} (hnow : d.now < 64 ^ 8)
    (hclock : s.lastPushTime ≤ d.now) (h : s.get d = some (id, s')) :
    compareKey (pushIdOf s.lastPushTime s.lastRandChars).nodeKey id.nodeKey = .lt := by
  obtain ⟨rfl, htime, hrand⟩ := eq_of_get h
  rw [compareKey_pushIdOf (hclock.trans_lt hnow) (htime ▸ hnow), htime]
  rcases hclock.lt_or_eq with hlt | heq
  · rw [Nat.compare_eq_lt.mpr hlt, Ordering.lt_then]
  · rw [Nat.compare_eq_eq.mpr heq, Ordering.eq_then]
    exact compare_incremented (hrand heq.symm)

/-- The ids of a run are larger than the last one before it, and ascend. -/
theorem pushIds_from {s : FNextPushId} {draws : List Draw} {ids : List PushId}
    (hrange : ∀ d ∈ draws, d.now < 64 ^ 8) (hfirst : ∀ d ∈ draws, s.lastPushTime ≤ d.now)
    (hclock : (draws.map Draw.now).Pairwise (· ≤ ·)) (h : s.pushIds draws = some ids) :
    (∀ id ∈ ids, compareKey (pushIdOf s.lastPushTime s.lastRandChars).nodeKey
        id.nodeKey = .lt) ∧
      ids.Pairwise fun a b => compareKey a.nodeKey b.nodeKey = .lt := by
  induction draws generalizing s ids with
  | nil =>
      obtain rfl := Option.some.inj h
      simp
  | cons d draws ih =>
      obtain ⟨⟨id, s'⟩, hget, h⟩ := Option.bind_eq_some_iff.mp h
      obtain ⟨ids', hids, rfl⟩ := Option.map_eq_some_iff.mp h
      have hlt := get_lt (hrange d List.mem_cons_self) (hfirst d List.mem_cons_self) hget
      obtain ⟨rfl, htime, -⟩ := eq_of_get hget
      obtain ⟨hnext, hclock⟩ := List.pairwise_cons.mp hclock
      obtain ⟨hall, hpairs⟩ := ih (fun d hd => hrange d (List.mem_cons_of_mem _ hd))
        (fun d hd => htime ▸ hnext d.now (List.mem_map_of_mem hd)) hclock hids
      refine ⟨?_, List.pairwise_cons.mpr ⟨hall, hpairs⟩⟩
      intro id hid
      rcases List.mem_cons.mp hid with rfl | hid
      · exact hlt
      · exact TransCmp.lt_trans hlt (hall id hid)

/-- **Runs.** Under a clock that does not go back, and within the eight digits of the time, the
ids of a run ascend in the order of keys, whatever the variables were before it. -/
theorem pushIds_ascending {s : FNextPushId} {draws : List Draw} {ids : List PushId}
    (hrange : ∀ d ∈ draws, d.now < 64 ^ 8) (hclock : (draws.map Draw.now).Pairwise (· ≤ ·))
    (h : s.pushIds draws = some ids) :
    ids.Pairwise fun a b => compareKey a.nodeKey b.nodeKey = .lt := by
  cases draws with
  | nil =>
      obtain rfl := Option.some.inj h
      exact List.Pairwise.nil
  | cons d draws =>
      obtain ⟨⟨id, s'⟩, hget, h⟩ := Option.bind_eq_some_iff.mp h
      obtain ⟨ids', hids, rfl⟩ := Option.map_eq_some_iff.mp h
      obtain ⟨rfl, htime, -⟩ := eq_of_get hget
      obtain ⟨hnext, hclock⟩ := List.pairwise_cons.mp hclock
      exact List.pairwise_cons.mpr (pushIds_from
        (fun d hd => hrange d (List.mem_cons_of_mem _ hd))
        (fun d hd => htime ▸ hnext d.now (List.mem_map_of_mem hd)) hclock hids)

/-- Digits whose increment carries. -/
def sampleRand : RandChars := ⟨[0, 0, 0, 0, 0, 0, 0, 0, 0, 0, 7, 63], rfl⟩

/-- The digits after them. -/
def sampleRandAfter : RandChars := ⟨[0, 0, 0, 0, 0, 0, 0, 0, 0, 0, 8, 0], rfl⟩

/-- Two ids at one time, the second with a carry, and one a millisecond later. -/
def sampleDraws : List Draw :=
  [⟨1600000000000, sampleRand⟩, ⟨1600000000000, List.Vector.replicate 12 0⟩,
    ⟨1600000000001, List.Vector.replicate 12 0⟩]

end FNextPushId

end FirebaseLogin
