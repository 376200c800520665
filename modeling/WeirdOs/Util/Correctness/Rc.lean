import WeirdOs.Util.Rc
import Mathlib.Data.Finset.Range
import Mathlib.Data.Finset.Card

/-!
# `Util.Correctness.Rc` — what the counters count, and when objects are deleted

`RcInv` is kept by every operation: the counter of an object holds the number of its live handles, and
what has been deleted has none. Null handles share counters too, but no object has such a counter, so
whatever they do to it goes unnoticed (`HandleOk`).

The destructor deletes an object with its last handle and the assignment operators do not, so the objects
without a handle are the deleted ones all along a run iff no assignment takes the last handle away
(`released_run_iff`).
-/

namespace WeirdOs

open Lib

variable {s t : RcState} {a b o c : Nat} {h : Rc} {op : RcOp} {ops : List RcOp}

/-! ## Handles -/

/-- What a handle adds to the number of handles of an object. -/
def Rc.weight (h : Rc) (o : Nat) : Nat := if h.ptr = some o then 1 else 0

/-- The handle has the counter of the object it points to. A null handle has a counter of no object. -/
structure HandleOk (s : RcState) (h : Rc) : Prop where
  counter : h.counter < s.nextCounter
  ptr : ∀ o, h.ptr = some o → o < s.nextObject ∧ o ∉ s.deletedObjects
  agree : ∀ o, o < s.nextObject → (h.counter = s.counterOf o ↔ h.ptr = some o)

/-- **The invariant of the handles.** -/
structure RcInv (s : RcState) : Prop where
  places : ∀ a ∈ s.live, RcPlace a
  handles : ∀ a ∈ s.live, HandleOk s (s.rc a)
  counterOf : ∀ o, o < s.nextObject → s.counterOf o < s.nextCounter
  count : ∀ o, o < s.nextObject → s.count (s.counterOf o) = s.holders o
  deleted : ∀ o ∈ s.deletedObjects, o < s.nextObject ∧ s.holders o = 0
  deletedCounters : s.deletedCounters = s.deletedObjects.map s.counterOf
  distinct : ∀ o, o < s.nextObject → ∀ o', o' < s.nextObject → s.counterOf o = s.counterOf o' → o = o'
  once : s.deletedObjects.Nodup

/-- There are fewer handles than 32 bits can count: each takes a word of the address space. -/
theorem card_places_lt {live : Finset Nat} (hplaces : ∀ a ∈ live, RcPlace a) : live.card < 4294967295 := by
  have hcard : live.card ≤ (Finset.range 1073741824).card := by
    refine Finset.card_le_card_of_injOn (· / 4) ?_ ?_
    · intro a ha
      have hplace := (hplaces a ha).1
      simp only [Finset.coe_range, Set.mem_Iio]
      omega
    · intro a ha b hb hab
      have hpa := (hplaces a ha).2
      have hpb := (hplaces b hb).2
      simp only at hab
      omega
  rw [Finset.card_range] at hcard
  omega

theorem RcInv.holders_lt (hs : RcInv s) (o : Nat) : s.holders o < 4294967295 :=
  Nat.lt_of_le_of_lt tally_le_card (card_places_lt hs.places)

theorem holders_pos : 0 < s.holders o ↔ ∃ a ∈ s.live, (s.rc a).ptr = some o := tally_pos

/-! ## How many handles an operation leaves -/

theorem holders_construct (ha : a ∉ s.live) :
    (s.construct a h).holders o = s.holders o + h.weight o := tally_insert ha

/-- A construction with a fresh counter: the handles are those there were and the new one. -/
theorem holders_makeRc (ha : a ∉ s.live) :
    (s.makeRc a).holders o = s.holders o + (Rc.mk (some s.nextObject) s.nextCounter).weight o :=
  tally_insert ha

theorem holders_default (ha : a ∉ s.live) : (s.default a).holders o = s.holders o := tally_insert ha

theorem holders_copyFrom (ha : a ∉ s.live) :
    (s.copyFrom a b).holders o = s.holders o + (s.rc b).weight o := tally_insert ha

theorem holders_assignFrom (ha : a ∈ s.live) :
    (s.assignFrom a b).holders o + (s.rc a).weight o = s.holders o + (s.rc b).weight o :=
  tally_update ha

/-! ## What counting does -/

/-- Counting a handle up counts its object up, and no other. -/
theorem count_increment (hh : HandleOk s h) (ho : o < s.nextObject)
    (hlt : s.count (s.counterOf o) < 4294967295) :
    (s.increment h.counter).count (s.counterOf o) = s.count (s.counterOf o) + h.weight o := by
  unfold RcState.increment Rc.weight
  dsimp only
  by_cases hptr : h.ptr = some o
  · have hcounter := (hh.agree o ho).mpr hptr
    rw [if_pos hptr, hcounter, Function.update_self, add32_of_lt (by omega)]
  · have hcounter : s.counterOf o ≠ h.counter := fun he => hptr ((hh.agree o ho).mp he.symm)
    rw [if_neg hptr, Function.update_of_ne hcounter, Nat.add_zero]

/-- Counting a handle down counts its object down, and no other. -/
theorem count_decrement (hh : HandleOk s h) (ho : o < s.nextObject)
    (hlt : s.count (s.counterOf o) < 4294967295) (hle : h.weight o ≤ s.count (s.counterOf o)) :
    (s.decrement h.counter).count (s.counterOf o) = s.count (s.counterOf o) - h.weight o := by
  unfold Rc.weight at hle ⊢
  unfold RcState.decrement
  dsimp only
  by_cases hptr : h.ptr = some o
  · have hcounter := (hh.agree o ho).mpr hptr
    rw [if_pos hptr] at hle ⊢
    rw [hcounter, Function.update_self, sub32_of_le hle (by omega)]
  · have hcounter : s.counterOf o ≠ h.counter := fun he => hptr ((hh.agree o ho).mp he.symm)
    rw [if_neg hptr, Function.update_of_ne hcounter, Nat.sub_zero]

/-- The count of an object stays far below the wrap. -/
theorem RcInv.count_lt (hs : RcInv s) (ho : o < s.nextObject) : s.count (s.counterOf o) < 4294967295 := by
  rw [hs.count o ho]
  exact hs.holders_lt o

/-- A live handle is one of those counted. -/
theorem weight_le_holders (ha : a ∈ s.live) : (s.rc a).weight o ≤ s.holders o := by
  unfold Rc.weight
  split
  · next hptr => exact holders_pos.mpr ⟨a, ha, hptr⟩
  · exact Nat.zero_le _

/-- What a live handle leaves when it is counted down. -/
theorem RcInv.count_decrement (hs : RcInv s) (ha : a ∈ s.live) (ho : o < s.nextObject) :
    (s.decrement (s.rc a).counter).count (s.counterOf o) = s.holders o - (s.rc a).weight o := by
  have hle : (s.rc a).weight o ≤ s.count (s.counterOf o) := by
    rw [hs.count o ho]
    exact weight_le_holders ha
  rw [WeirdOs.count_decrement (hs.handles a ha) ho (hs.count_lt ho) hle, hs.count o ho]

/-- A handle that is not deleted adds nothing to what is. -/
theorem HandleOk.weight_deleted (hh : HandleOk s h) (ho : o ∈ s.deletedObjects) : h.weight o = 0 := by
  unfold Rc.weight
  rw [if_neg fun hptr => (hh.ptr o hptr).2 ho]

/-! ## The operations keep the invariant -/

theorem rcInv_empty : RcInv .empty where
  places a ha := by cases ha
  handles a ha := by cases ha
  counterOf o ho := by cases ho
  count o ho := by cases ho
  deleted o ho := by cases ho
  deletedCounters := rfl
  distinct o ho := by cases ho
  once := .nil

/-- A new counter is no object's. -/
theorem RcInv.newCounter (hs : RcInv s) : RcInv s.newCounter.1 where
  places := hs.places
  handles a ha := by
    have hh := hs.handles a ha
    exact ⟨Nat.lt_succ_of_lt hh.counter, hh.ptr, hh.agree⟩
  counterOf o ho := Nat.lt_succ_of_lt (hs.counterOf o ho)
  count o ho := by
    have hne : s.counterOf o ≠ s.nextCounter := Nat.ne_of_lt (hs.counterOf o ho)
    exact (Function.update_of_ne hne _ _).trans (hs.count o ho)
  deleted := hs.deleted
  deletedCounters := hs.deletedCounters
  distinct := hs.distinct
  once := hs.once

/-- The state after a new object and a new counter for it, before the first handle. -/
def RcState.newObject (s : RcState) : RcState :=
  { s.newCounter.1 with
      counterOf := Function.update s.counterOf s.nextObject s.nextCounter
      nextObject := s.nextObject + 1 }

theorem newObject_counterOf (ho : o < s.nextObject) : s.newObject.counterOf o = s.counterOf o :=
  Function.update_of_ne (Nat.ne_of_lt ho) _ _

theorem newObject_counterOf_self : s.newObject.counterOf s.nextObject = s.nextCounter :=
  Function.update_self _ _ _

/-- A new object has no handle yet. -/
theorem RcInv.newObject (hs : RcInv s) : RcInv s.newObject where
  places := hs.places
  handles a ha := by
    have hh := hs.handles a ha
    refine ⟨Nat.lt_succ_of_lt hh.counter, ?_, ?_⟩
    · intro o hptr
      exact ⟨Nat.lt_succ_of_lt (hh.ptr o hptr).1, (hh.ptr o hptr).2⟩
    · intro o ho
      rcases Nat.lt_succ_iff_lt_or_eq.mp ho with hlt | rfl
      · rw [newObject_counterOf hlt]
        exact hh.agree o hlt
      · rw [newObject_counterOf_self]
        constructor
        · intro heq
          exact absurd heq (Nat.ne_of_lt hh.counter)
        · intro hptr
          exact absurd (hh.ptr _ hptr).1 (Nat.lt_irrefl _)
  counterOf o ho := by
    rcases Nat.lt_succ_iff_lt_or_eq.mp ho with hlt | rfl
    · rw [newObject_counterOf hlt]
      exact Nat.lt_succ_of_lt (hs.counterOf o hlt)
    · rw [newObject_counterOf_self]
      exact Nat.lt_succ_self _
  count o ho := by
    rcases Nat.lt_succ_iff_lt_or_eq.mp ho with hlt | rfl
    · rw [newObject_counterOf hlt]
      exact hs.newCounter.count o hlt
    · have hnone : s.holders s.nextObject = 0 := by
        apply tally_eq_zero.mpr
        intro a ha hptr
        exact Nat.lt_irrefl _ ((hs.handles a ha).ptr _ hptr).1
      rw [newObject_counterOf_self]
      exact (Function.update_self _ _ _).trans hnone.symm
  deleted o ho := by
    obtain ⟨hlt, hzero⟩ := hs.deleted o ho
    exact ⟨Nat.lt_succ_of_lt hlt, hzero⟩
  deletedCounters := by
    refine hs.deletedCounters.trans (List.map_congr_left ?_)
    intro o ho
    exact (newObject_counterOf (hs.deleted o ho).1).symm
  distinct o ho o' ho' heq := by
    rcases Nat.lt_succ_iff_lt_or_eq.mp ho with hlt | rfl <;>
      rcases Nat.lt_succ_iff_lt_or_eq.mp ho' with hlt' | rfl
    · rw [newObject_counterOf hlt, newObject_counterOf hlt'] at heq
      exact hs.distinct o hlt o' hlt' heq
    · rw [newObject_counterOf hlt, newObject_counterOf_self] at heq
      exact absurd heq (Nat.ne_of_lt (hs.counterOf o hlt))
    · rw [newObject_counterOf hlt', newObject_counterOf_self] at heq
      exact absurd heq.symm (Nat.ne_of_lt (hs.counterOf o' hlt'))
    · rfl
  once := hs.once

/-- The first handle of a new object. -/
theorem RcInv.newHandle (hs : RcInv s) : HandleOk s.newObject ⟨some s.nextObject, s.nextCounter⟩ where
  counter := Nat.lt_succ_self _
  ptr o hptr := by
    obtain rfl := Option.some.inj hptr
    exact ⟨Nat.lt_succ_self _, fun ho => Nat.lt_irrefl _ (hs.deleted _ ho).1⟩
  agree o ho := by
    rcases Nat.lt_succ_iff_lt_or_eq.mp ho with hlt | rfl
    · rw [newObject_counterOf hlt]
      constructor
      · intro heq
        exact absurd heq.symm (Nat.ne_of_lt (hs.counterOf o hlt))
      · intro heq
        exact absurd (Option.some.inj heq).symm (Nat.ne_of_lt hlt)
    · rw [newObject_counterOf_self]
      exact iff_of_true rfl rfl

/-- A counter that no object has makes a null handle. -/
theorem RcInv.nullHandle (hs : RcInv s) : HandleOk s.newCounter.1 ⟨none, s.nextCounter⟩ where
  counter := Nat.lt_succ_self _
  ptr o hptr := by cases hptr
  agree o ho := by
    constructor
    · intro heq
      exact absurd heq.symm (Nat.ne_of_lt (hs.counterOf o ho))
    · intro hptr
      cases hptr

/-- With a handle that is in order put at `a`, all handles are. -/
theorem RcInv.update_rc (hs : RcInv s) (hh : HandleOk s h) (hb : b ∈ insert a s.live) :
    HandleOk s (Function.update s.rc a h b) := by
  by_cases hba : b = a
  · subst hba
    rw [Function.update_self]
    exact hh
  · rw [Function.update_of_ne hba]
    exact hs.handles b (Finset.mem_of_mem_insert_of_ne hb hba)

/-- A handle at a new place, with the counts it should have. -/
theorem RcInv.construct (hs : RcInv s) (hh : HandleOk s h) (ha : a ∉ s.live) (hplace : RcPlace a)
    {count : Nat → Nat}
    (hcount : ∀ o, o < s.nextObject → count (s.counterOf o) = s.holders o + h.weight o) :
    RcInv { s.construct a h with count } where
  places b hb := by
    rcases Finset.mem_insert.mp hb with rfl | hb
    · exact hplace
    · exact hs.places b hb
  handles b hb := by
    have hnew := hs.update_rc hh hb
    exact ⟨hnew.counter, hnew.ptr, hnew.agree⟩
  counterOf := hs.counterOf
  count o ho := (hcount o ho).trans (holders_construct ha).symm
  deleted o ho := by
    obtain ⟨hlt, hzero⟩ := hs.deleted o ho
    refine ⟨hlt, (holders_construct ha).trans ?_⟩
    rw [hzero, hh.weight_deleted ho]
  deletedCounters := hs.deletedCounters
  distinct := hs.distinct
  once := hs.once

theorem RcInv.makeRc (hs : RcInv s) (ha : a ∉ s.live) (hplace : RcPlace a) : RcInv (s.makeRc a) := by
  have hnew := hs.newObject
  apply hnew.construct hs.newHandle ha hplace
  intro o ho
  exact (count_increment hs.newHandle ho (hnew.count_lt ho)).trans (by rw [hnew.count o ho])

theorem RcInv.default (hs : RcInv s) (ha : a ∉ s.live) (hplace : RcPlace a) : RcInv (s.default a) :=
  hs.newCounter.construct hs.nullHandle ha hplace fun o ho => hs.newCounter.count o ho

/-- A handle more that shares a counter. -/
theorem RcInv.share (hs : RcInv s) (hh : HandleOk s h) (ha : a ∉ s.live) (hplace : RcPlace a) :
    RcInv ((s.construct a h).increment h.counter) := by
  apply hs.construct hh ha hplace
  intro o ho
  exact (count_increment hh ho (hs.count_lt ho)).trans (by rw [hs.count o ho])

theorem RcInv.copyFrom (hs : RcInv s) (ha : a ∉ s.live) (hplace : RcPlace a) (hb : b ∈ s.live) :
    RcInv (s.copyFrom a b) := hs.share (hs.handles b hb) ha hplace

/-- An assignment moves one from the old object to the new one. -/
theorem RcInv.assignFrom (hs : RcInv s) (ha : a ∈ s.live) (hb : b ∈ s.live) : RcInv (s.assignFrom a b) where
  places := hs.places
  handles c hc := by
    have hnew : HandleOk s (Function.update s.rc a (s.rc b) c) :=
      hs.update_rc (hs.handles b hb) (Finset.mem_insert_of_mem hc)
    exact ⟨hnew.counter, hnew.ptr, hnew.agree⟩
  counterOf := hs.counterOf
  count o ho := by
    have hdec := hs.count_decrement ha ho
    have hlt := hs.holders_lt o
    have hle := weight_le_holders (o := o) ha
    have hholders := holders_assignFrom (b := b) (o := o) ha
    -- between the two: one less for the old object, and the handle at `a` is the new one
    have hh := hs.handles b hb
    have hinc := count_increment
      (s := { s.decrement (s.rc a).counter with rc := Function.update s.rc a (s.rc b) })
      ⟨hh.counter, hh.ptr, hh.agree⟩ ho (Nat.lt_of_le_of_lt (Nat.le_of_eq hdec) (by omega))
    have hcount : (s.assignFrom a b).count (s.counterOf o) =
        s.holders o - (s.rc a).weight o + (s.rc b).weight o := by
      rw [← hdec]
      unfold RcState.assignFrom
      dsimp only
      rw [Function.update_self]
      exact hinc
    exact hcount.trans (by omega)
  deleted o ho := by
    obtain ⟨hlt, hzero⟩ := hs.deleted o ho
    have hholders := holders_assignFrom (b := b) (o := o) ha
    rw [(hs.handles b hb).weight_deleted ho] at hholders
    exact ⟨hlt, by omega⟩
  deletedCounters := hs.deletedCounters
  distinct := hs.distinct
  once := hs.once

/-! ### Destruction -/

/-- The state without the handle at `a`, which still has to be deleted from. -/
def RcState.erase (s : RcState) (a : Nat) (count : Nat → Nat) : RcState :=
  { s with live := s.live.erase a, count }

theorem destroy_null (hptr : (s.rc a).ptr = none) : s.destroy a = s.erase a s.count := by
  unfold RcState.destroy RcState.release
  rw [hptr]
  rfl

theorem destroy_some (hptr : (s.rc a).ptr = some o) :
    s.destroy a =
      let s' := s.erase a (s.decrement (s.rc a).counter).count
      if s'.count (s.rc a).counter = 0 then s'.delete o (s.rc a).counter else s' := by
  unfold RcState.destroy RcState.release
  rw [hptr]
  dsimp only
  by_cases hzero : (s.decrement (s.rc a).counter).count (s.rc a).counter = 0
  · rw [if_pos hzero]
    exact (if_pos hzero).symm
  · rw [if_neg hzero]
    exact (if_neg hzero).symm

theorem holders_erase (ha : a ∈ s.live) (count : Nat → Nat) :
    (s.erase a count).holders o + (s.rc a).weight o = s.holders o := tally_erase ha

/-- Only the object of the handle can be left without one. -/
theorem holders_erase_eq_zero {count : Nat → Nat} (ha : a ∈ s.live)
    (hzero : (s.erase a count).holders o = 0) : s.holders o = 0 ∨ (s.rc a).ptr = some o := by
  have hholders := holders_erase (o := o) ha count
  by_cases hptr : (s.rc a).ptr = some o
  · exact .inr hptr
  · have hweight : (s.rc a).weight o = 0 := if_neg hptr
    exact .inl (by omega)

/-- A handle that goes, with the counts that should be left. -/
theorem RcInv.erase (hs : RcInv s) (ha : a ∈ s.live) {count : Nat → Nat}
    (hcount : ∀ o, o < s.nextObject → count (s.counterOf o) = s.holders o - (s.rc a).weight o) :
    RcInv (s.erase a count) where
  places b hb := hs.places b (Finset.mem_of_mem_erase hb)
  handles b hb := by
    have hh := hs.handles b (Finset.mem_of_mem_erase hb)
    exact ⟨hh.counter, hh.ptr, hh.agree⟩
  counterOf := hs.counterOf
  count o ho := by
    have hholders := holders_erase (o := o) ha count
    exact (hcount o ho).trans (by omega)
  deleted o ho := by
    obtain ⟨hlt, hzero⟩ := hs.deleted o ho
    have hholders := holders_erase (o := o) ha count
    exact ⟨hlt, by omega⟩
  deletedCounters := hs.deletedCounters
  distinct := hs.distinct
  once := hs.once

/-- An object without a handle is deleted. -/
theorem RcInv.delete (hs : RcInv s) (ho : o < s.nextObject) (hzero : s.holders o = 0)
    (hnew : o ∉ s.deletedObjects) : RcInv (s.delete o (s.counterOf o)) where
  places := hs.places
  handles a ha := by
    have hh := hs.handles a ha
    refine ⟨hh.counter, fun p hptr => ⟨(hh.ptr p hptr).1, ?_⟩, hh.agree⟩
    intro hmem
    rcases List.mem_append.mp hmem with hold | hmem
    · exact (hh.ptr p hptr).2 hold
    · obtain rfl := List.mem_singleton.mp hmem
      exact tally_eq_zero.mp hzero a ha hptr
  counterOf := hs.counterOf
  count := hs.count
  deleted p hmem := by
    rcases List.mem_append.mp hmem with hold | hmem
    · exact hs.deleted p hold
    · obtain rfl := List.mem_singleton.mp hmem
      exact ⟨ho, hzero⟩
  deletedCounters := by
    have hmap := hs.deletedCounters
    simp only [RcState.delete, hmap, List.map_append, List.map_cons, List.map_nil]
  distinct := hs.distinct
  once := List.nodup_append.mpr ⟨hs.once, List.nodup_singleton o, fun p hp q hq => by
    obtain rfl := List.mem_singleton.mp hq
    exact fun he => hnew (he ▸ hp)⟩

/-- **What a destruction deletes**: the object of the handle, if no other handle points to it. -/
theorem RcInv.destroy_spec (hs : RcInv s) (ha : a ∈ s.live) :
    RcInv (s.destroy a) ∧
    ∀ o, o < s.nextObject → (s.destroy a).holders o = 0 →
      s.holders o = 0 ∨ o ∈ (s.destroy a).deletedObjects := by
  have hh := hs.handles a ha
  cases hptr : (s.rc a).ptr with
  | none =>
      have hnull : ∀ o, (s.rc a).ptr ≠ some o := fun o => by rw [hptr]; exact nofun
      rw [destroy_null hptr]
      refine ⟨hs.erase ha ?_, fun o ho hzero => .inl ?_⟩
      · intro o ho
        have hweight : (s.rc a).weight o = 0 := if_neg (hnull o)
        rw [hweight, hs.count o ho, Nat.sub_zero]
      · exact (holders_erase_eq_zero ha hzero).resolve_right (hnull o)
  | some p =>
      obtain ⟨hp, hpnew⟩ := hh.ptr p hptr
      have hcounter : (s.rc a).counter = s.counterOf p := (hh.agree p hp).mpr hptr
      have herase := hs.erase ha fun o ho => hs.count_decrement ha ho
      have hcount := herase.count p hp
      rw [destroy_some hptr]
      dsimp only
      rw [hcounter] at herase hcount ⊢
      have hkept : ∀ o, (s.erase a (s.decrement (s.counterOf p)).count).holders o = 0 →
          s.holders o = 0 ∨ p = o := fun o hzero =>
        (holders_erase_eq_zero ha hzero).imp_right fun heq => Option.some.inj (hptr.symm.trans heq)
      by_cases hzero : (s.erase a (s.decrement (s.counterOf p)).count).count (s.counterOf p) = 0
      · rw [if_pos hzero]
        refine ⟨herase.delete hp (hcount.symm.trans hzero) hpnew, ?_⟩
        intro o ho hnone
        rcases hkept o hnone with hold | rfl
        · exact .inl hold
        · exact .inr (List.mem_append_right _ (List.mem_singleton_self _))
      · rw [if_neg hzero]
        refine ⟨herase, ?_⟩
        intro o ho hnone
        rcases hkept o hnone with hold | rfl
        · exact .inl hold
        · exact absurd (hcount.trans hnone) hzero

/-- A destruction takes one handle from its object. -/
theorem holders_destroy (ha : a ∈ s.live) :
    (s.destroy a).holders o + (s.rc a).weight o = s.holders o := by
  cases hptr : (s.rc a).ptr with
  | none =>
      rw [destroy_null hptr]
      exact holders_erase ha s.count
  | some p =>
      have herase := holders_erase (o := o) ha (s.decrement (s.rc a).counter).count
      rw [destroy_some hptr]
      dsimp only
      split
      · exact herase
      · exact herase

/-- A destruction changes the counts and the records, and the handle is gone. -/
theorem destroy_eq : ∃ count objects counters, s.destroy a =
    { s.erase a count with deletedObjects := objects, deletedCounters := counters } := by
  cases hptr : (s.rc a).ptr with
  | none => exact ⟨s.count, s.deletedObjects, s.deletedCounters, destroy_null hptr⟩
  | some o =>
      rw [destroy_some hptr]
      dsimp only
      split
      · exact ⟨_, s.deletedObjects ++ [o], s.deletedCounters ++ [(s.rc a).counter], rfl⟩
      · exact ⟨_, s.deletedObjects, s.deletedCounters, rfl⟩

theorem destroy_nextObject : (s.destroy a).nextObject = s.nextObject := by
  obtain ⟨count, objects, counters, heq⟩ := destroy_eq (s := s) (a := a)
  rw [heq]
  rfl

theorem destroy_deletedObjects (ho : o ∈ s.deletedObjects) : o ∈ (s.destroy a).deletedObjects := by
  unfold RcState.destroy RcState.release
  dsimp only
  split
  · exact ho
  · split
    · exact List.mem_append_left _ ho
    · exact ho

/-! ## Steps -/

theorem checkFree_eq_ok {u : Unit} : s.checkFree a = .ok u ↔ RcPlace a ∧ a ∉ s.live := by
  unfold RcState.checkFree
  split <;> simp_all

theorem checkLive_eq_ok {u : Unit} : s.checkLive a = .ok u ↔ a ∈ s.live := by
  unfold RcState.checkLive
  split <;> simp_all

/-- **What a step does**, by what it needs. The two copy constructors are the same, and so are the two
    assignment operators. -/
theorem rcStep_cases (hstep : s.step op = .ok t) :
    (∃ a, RcPlace a ∧ a ∉ s.live ∧ op = .makeRc a ∧ t = s.makeRc a) ∨
    (∃ a, RcPlace a ∧ a ∉ s.live ∧ op = .default a ∧ t = s.default a) ∨
    (∃ a b, RcPlace a ∧ a ∉ s.live ∧ b ∈ s.live ∧ (op = .copy a b ∨ op = .convert a b) ∧
      t = s.copyFrom a b) ∨
    (∃ a b, a ∈ s.live ∧ b ∈ s.live ∧ (op = .assign a b ∨ op = .assignConvert a b) ∧
      t = s.assignFrom a b) ∨
    ∃ a, a ∈ s.live ∧ op = .destroy a ∧ t = s.destroy a := by
  cases op with
  | makeRc a =>
      obtain ⟨_, hfree, hrest⟩ := bind_eq_ok.mp hstep
      obtain ⟨hplace, ha⟩ := checkFree_eq_ok.mp hfree
      exact .inl ⟨a, hplace, ha, rfl, (Except.ok.inj hrest).symm⟩
  | default a =>
      obtain ⟨_, hfree, hrest⟩ := bind_eq_ok.mp hstep
      obtain ⟨hplace, ha⟩ := checkFree_eq_ok.mp hfree
      exact .inr (.inl ⟨a, hplace, ha, rfl, (Except.ok.inj hrest).symm⟩)
  | copy a b =>
      obtain ⟨_, hfree, hrest⟩ := bind_eq_ok.mp hstep
      obtain ⟨_, hlive, hrest⟩ := bind_eq_ok.mp hrest
      obtain ⟨hplace, ha⟩ := checkFree_eq_ok.mp hfree
      exact .inr (.inr (.inl ⟨a, b, hplace, ha, checkLive_eq_ok.mp hlive, .inl rfl,
        (Except.ok.inj hrest).symm⟩))
  | convert a b =>
      obtain ⟨_, hfree, hrest⟩ := bind_eq_ok.mp hstep
      obtain ⟨_, hlive, hrest⟩ := bind_eq_ok.mp hrest
      obtain ⟨hplace, ha⟩ := checkFree_eq_ok.mp hfree
      exact .inr (.inr (.inl ⟨a, b, hplace, ha, checkLive_eq_ok.mp hlive, .inr rfl,
        (Except.ok.inj hrest).symm⟩))
  | assign a b =>
      obtain ⟨_, ha, hrest⟩ := bind_eq_ok.mp hstep
      obtain ⟨_, hb, hrest⟩ := bind_eq_ok.mp hrest
      exact .inr (.inr (.inr (.inl ⟨a, b, checkLive_eq_ok.mp ha, checkLive_eq_ok.mp hb, .inl rfl,
        (Except.ok.inj hrest).symm⟩)))
  | assignConvert a b =>
      obtain ⟨_, ha, hrest⟩ := bind_eq_ok.mp hstep
      obtain ⟨_, hb, hrest⟩ := bind_eq_ok.mp hrest
      exact .inr (.inr (.inr (.inl ⟨a, b, checkLive_eq_ok.mp ha, checkLive_eq_ok.mp hb, .inr rfl,
        (Except.ok.inj hrest).symm⟩)))
  | destroy a =>
      obtain ⟨_, ha, hrest⟩ := bind_eq_ok.mp hstep
      exact .inr (.inr (.inr (.inr ⟨a, checkLive_eq_ok.mp ha, rfl, (Except.ok.inj hrest).symm⟩)))

/-- **Every step keeps the invariant.** -/
theorem RcInv.step (hs : RcInv s) (hstep : s.step op = .ok t) : RcInv t := by
  rcases rcStep_cases hstep with ⟨a, hplace, ha, _, rfl⟩ | ⟨a, hplace, ha, _, rfl⟩ |
    ⟨a, b, hplace, ha, hb, _, rfl⟩ | ⟨a, b, ha, hb, _, rfl⟩ | ⟨a, ha, _, rfl⟩
  · exact hs.makeRc ha hplace
  · exact hs.default ha hplace
  · exact hs.copyFrom ha hplace hb
  · exact hs.assignFrom ha hb
  · exact (hs.destroy_spec ha).1

/-! ## Counting over whole runs -/

/-- **The counters are right**: the counter of each object equals the number of live handles that point
    to it; no handle points to a deleted object or has a deleted counter; nothing is deleted twice. -/
structure CountsOk (s : RcState) : Prop where
  count : ∀ o, o < s.nextObject → s.count (s.counterOf o) = s.holders o
  object : ∀ a ∈ s.live, ∀ o, (s.rc a).ptr = some o →
    o < s.nextObject ∧ (s.rc a).counter = s.counterOf o ∧ o ∉ s.deletedObjects
  counter : ∀ a ∈ s.live, (s.rc a).counter ∉ s.deletedCounters
  objectsOnce : s.deletedObjects.Nodup
  countersOnce : s.deletedCounters.Nodup

/-- A handle that is in order has a counter that is not deleted. -/
theorem RcInv.counter_kept (hs : RcInv s) (hh : HandleOk s h) : h.counter ∉ s.deletedCounters := by
  intro hmem
  rw [hs.deletedCounters] at hmem
  obtain ⟨o, ho, heq⟩ := List.mem_map.mp hmem
  exact (hh.ptr o ((hh.agree o (hs.deleted o ho).1).mp heq.symm)).2 ho

theorem RcInv.countersOnce (hs : RcInv s) : s.deletedCounters.Nodup := by
  rw [hs.deletedCounters]
  apply hs.once.map_on
  intro o ho o' ho' heq
  exact hs.distinct o (hs.deleted o ho).1 o' (hs.deleted o' ho').1 heq

theorem RcInv.countsOk (hs : RcInv s) : CountsOk s where
  count := hs.count
  object a ha o hptr := by
    have hh := hs.handles a ha
    obtain ⟨ho, hnew⟩ := hh.ptr o hptr
    exact ⟨ho, (hh.agree o ho).mpr hptr, hnew⟩
  counter a ha := hs.counter_kept (hs.handles a ha)
  objectsOnce := hs.once
  countersOnce := hs.countersOnce

/-- **Reference counting over whole runs.** At every step of a run the counters are right. -/
theorem counts_run (hrun : RcState.run ops = .ok t) :
    ∀ pre, pre <+: ops → ∃ u, RcState.run pre = .ok u ∧ CountsOk u := by
  intro pre hpre
  obtain ⟨u, hu⟩ := run_prefix hpre hrun
  have hinv := run_invariant RcInv (fun _ _ _ hs hstep => hs.step hstep) rcInv_empty hu
  exact ⟨u, hu, hinv.countsOk⟩

/-- A handle, a copy of it, and a second object that takes its place in the copy. -/
def rcReassignOps : List RcOp := [.makeRc 0, .makeRc 8, .copy 16 0, .assign 16 8, .destroy 0]

/-- In that run the counters are right at every step. -/
theorem counts_run_reassign :
    ∃ t, RcState.run rcReassignOps = .ok t ∧
      ∀ pre, pre <+: rcReassignOps → ∃ u, RcState.run pre = .ok u ∧ CountsOk u := by
  obtain ⟨t, hrun⟩ : ∃ t, RcState.run rcReassignOps = .ok t := ⟨_, rfl⟩
  exact ⟨t, hrun, counts_run hrun⟩

/-! ## Deletion over whole runs -/

/-- **What is deleted is what has no handle**: an object that was made has no live handle iff it has been
    deleted with its counter. When no handle is left, every object has been deleted. -/
structure Released (s : RcState) : Prop where
  deleted : ∀ o, o < s.nextObject →
    (s.holders o = 0 ↔ o ∈ s.deletedObjects ∧ s.counterOf o ∈ s.deletedCounters)
  gone : s.live = ∅ → ∀ o, o < s.nextObject → o ∈ s.deletedObjects

/-- Nothing without a handle is still there. -/
def NoneLost (s : RcState) : Prop := ∀ o, o < s.nextObject → s.holders o = 0 → o ∈ s.deletedObjects

theorem RcInv.released (hs : RcInv s) (hlost : NoneLost s) : Released s where
  deleted o ho := by
    constructor
    · intro hzero
      have hmem := hlost o ho hzero
      rw [hs.deletedCounters]
      exact ⟨hmem, List.mem_map_of_mem hmem⟩
    · rintro ⟨hmem, _⟩
      exact (hs.deleted o hmem).2
  gone hnone o ho := by
    refine hlost o ho (tally_eq_zero.mpr ?_)
    intro a ha
    rw [hnone] at ha
    cases ha

/-- The assignment does not take the last handle of an object away: the handle assigned to is null, or the
    other one points to the same object, or a third one does. -/
def KeepsHolder (s : RcState) : RcOp → Prop
  | .assign a r | .assignConvert a r => ∀ o, (s.rc a).ptr = some o →
      (s.rc r).ptr = some o ∨ ∃ b ∈ s.live, b ≠ a ∧ (s.rc b).ptr = some o
  | _ => True

theorem keepsHolder_of_assign (hop : op = .assign a b ∨ op = .assignConvert a b) :
    KeepsHolder s op ↔ ∀ o, (s.rc a).ptr = some o →
      (s.rc b).ptr = some o ∨ ∃ c ∈ s.live, c ≠ a ∧ (s.rc c).ptr = some o := by
  rcases hop with rfl | rfl <;> rfl

/-- The handles after an assignment that point to `o`. -/
theorem holders_assignFrom_eq_zero (ha : a ∈ s.live) :
    (s.assignFrom a b).holders o = 0 ↔
      (s.rc b).ptr ≠ some o ∧ ∀ c ∈ s.live, c ≠ a → (s.rc c).ptr ≠ some o := by
  refine tally_eq_zero.trans ⟨fun h => ⟨?_, ?_⟩, ?_⟩
  · have hself := h a ha
    rwa [show (s.assignFrom a b).rc a = s.rc b from Function.update_self _ _ _] at hself
  · intro c hc hca hptr
    apply h c hc
    rwa [show (s.assignFrom a b).rc c = s.rc c from Function.update_of_ne hca _ _]
  · rintro ⟨hb, hothers⟩ c hc
    by_cases hca : c = a
    · subst hca
      rwa [show (s.assignFrom c b).rc c = s.rc b from Function.update_self _ _ _]
    · rw [show (s.assignFrom a b).rc c = s.rc c from Function.update_of_ne hca _ _]
      exact hothers c hc hca

/-- **A step loses no object**, if it is not an assignment that takes a last handle away. -/
theorem NoneLost.step (hs : RcInv s) (hlost : NoneLost s) (hkeeps : KeepsHolder s op)
    (hstep : s.step op = .ok t) : NoneLost t := by
  intro o ho hzero
  rcases rcStep_cases hstep with ⟨a, _, ha, _, rfl⟩ | ⟨a, _, ha, _, rfl⟩ |
    ⟨a, b, _, ha, hb, _, rfl⟩ | ⟨a, b, ha, hb, hop, rfl⟩ | ⟨a, ha, _, rfl⟩
  · rw [holders_makeRc ha] at hzero
    rcases Nat.lt_succ_iff_lt_or_eq.mp ho with hlt | rfl
    · exact hlost o hlt (Nat.eq_zero_of_add_eq_zero_right hzero)
    · -- the new object has its first handle
      have hone : (Rc.mk (some s.nextObject) s.nextCounter).weight s.nextObject = 1 := if_pos rfl
      omega
  · exact hlost o ho ((holders_default ha).symm.trans hzero)
  · rw [holders_copyFrom ha] at hzero
    exact hlost o ho (Nat.eq_zero_of_add_eq_zero_right hzero)
  · obtain ⟨hb', hothers⟩ := (holders_assignFrom_eq_zero ha).mp hzero
    have hkeeps' := (keepsHolder_of_assign hop).mp hkeeps
    refine hlost o ho (tally_eq_zero.mpr ?_)
    intro c hc hptr
    by_cases hca : c = a
    · subst hca
      rcases hkeeps' o hptr with hsame | ⟨d, hd, hdc, hdptr⟩
      · exact hb' hsame
      · exact hothers d hd hdc hdptr
    · exact hothers c hc hca hptr
  · rw [destroy_nextObject] at ho
    rcases (hs.destroy_spec ha).2 o ho hzero with hold | hmem
    · -- it had no handle before
      have hmem := hlost o ho hold
      exact destroy_deletedObjects hmem
    · exact hmem

/-- **An assignment that takes the last handle away loses the object**: its count is 0 and nothing deletes
    it. -/
theorem not_released_of_assign (hs : RcInv s) (hbad : ¬ KeepsHolder s op) (hstep : s.step op = .ok t) :
    ¬ Released t := by
  have hassign : ∃ a b, a ∈ s.live ∧ (op = .assign a b ∨ op = .assignConvert a b) ∧
      t = s.assignFrom a b := by
    rcases rcStep_cases hstep with ⟨a, _, _, rfl, _⟩ | ⟨a, _, _, rfl, _⟩ |
      ⟨a, b, _, _, _, rfl | rfl, _⟩ | ⟨a, b, ha, _, hop, ht⟩ | ⟨a, _, rfl, _⟩
    · exact absurd trivial hbad
    · exact absurd trivial hbad
    · exact absurd trivial hbad
    · exact absurd trivial hbad
    · exact ⟨a, b, ha, hop, ht⟩
    · exact absurd trivial hbad
  obtain ⟨a, b, ha, hop, rfl⟩ := hassign
  rw [keepsHolder_of_assign hop] at hbad
  simp only [not_forall, not_or, not_exists, not_and] at hbad
  obtain ⟨o, hptr, hb, hothers⟩ := hbad
  obtain ⟨ho, hnew⟩ := (hs.handles a ha).ptr o hptr
  intro hrel
  have hzero := (holders_assignFrom_eq_zero (b := b) ha).mpr ⟨hb, hothers⟩
  exact hnew ((hrel.deleted o ho).mp hzero).1

/-- **Deletion over whole runs.** Each object is deleted, with its counter, at the very step at which its
    last handle stops pointing to it (so that in every state the objects without a handle are the deleted
    ones) iff no assignment of the run takes the last handle of an object away. -/
theorem released_run_iff (hrun : RcState.run ops = .ok t) :
    (∀ pre u, pre <+: ops → RcState.run pre = .ok u → Released u) ↔
      ∀ pre op u, pre ++ [op] <+: ops → RcState.run pre = .ok u → KeepsHolder u op := by
  refine run_holds_iff (I := fun s => RcInv s ∧ NoneLost s) (fun s hs => hs.1.released hs.2)
    (fun s op t hs hkeeps hstep => ⟨hs.1.step hstep, hs.2.step hs.1 hkeeps hstep⟩)
    (fun s op t hs hbad hstep => not_released_of_assign hs.1 hbad hstep) ⟨rcInv_empty, ?_⟩ hrun
  intro o ho
  cases ho

/-- In a run whose assignments leave the old object another handle, objects are deleted in time. -/
theorem released_run_iff_reassign :
    ∃ t, RcState.run rcReassignOps = .ok t ∧
      ∀ pre u, pre <+: rcReassignOps → RcState.run pre = .ok u → Released u := by
  obtain ⟨t, hrun⟩ : ∃ t, RcState.run rcReassignOps = .ok t := ⟨_, rfl⟩
  refine ⟨t, hrun, (released_run_iff hrun).mpr ?_⟩
  unfold RcState.run rcReassignOps
  rw [forall_steps_cons rfl, forall_steps_cons rfl, forall_steps_cons rfl, forall_steps_cons rfl,
    forall_steps_cons rfl]
  refine ⟨trivial, trivial, trivial, ?_, trivial, ?_⟩
  · -- the first handle still points to the object
    intro o hptr
    exact .inr ⟨0, by decide, by decide, hptr⟩
  · intro pre op u hpre
    simp at hpre

/-- Two objects; the only handle of the first one is assigned the second one, and both handles end. -/
def rcLostOps : List RcOp := [.makeRc 0, .makeRc 8, .assign 0 8, .destroy 0, .destroy 8]

/-- After that run there is no handle, and the first object is still allocated. -/
theorem assign_loses_object :
    ∃ t, RcState.run rcLostOps = .ok t ∧ t.live = ∅ ∧ 0 < t.nextObject ∧ 0 ∉ t.deletedObjects ∧
      ¬ Released t := by
  refine ⟨_, rfl, by decide, by decide, by decide, ?_⟩
  intro hrel
  have hgone := hrel.gone (by decide) 0 (by decide)
  exact absurd hgone (by decide)

end WeirdOs
