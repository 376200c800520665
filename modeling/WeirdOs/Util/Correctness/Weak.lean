import WeirdOs.Util.Weak
import WeirdOs.Util.Correctness.Rc

/-!
# `Util.Correctness.Weak` — when a weak handle can be used

The destructor of a handle deletes the counter with the object and does not look at `weak_count`, so what
keeps a weak handle usable is a handle to the same object. `WeakInv` says that each weak handle to an
object has one; then no counter is used after it was deleted and `weak_count` counts the weak handles.

`KeepsCounter` is the condition on a step that keeps this. Steps that do not meet it are those that make a
weak handle that is not counted, take the last handle from an object that has weak handles, or delete the
counter of a null handle that is still there. Each of them breaks `WeakOk` (`weak_run_iff`).
-/

namespace WeirdOs

open Lib

variable {s t : WeakState} {r r' : RcState} {a b c o w : Nat} {h : Weak} {op : RcOp} {wop : WeakOp}
  {ops : List WeakOp}

/-! ## What operations on handles leave alone -/

/-- Objects keep their counters, and new ones have new counters. -/
structure RcFollows (r r' : RcState) : Prop where
  counters : r.nextCounter ≤ r'.nextCounter
  objects : r.nextObject ≤ r'.nextObject
  kept : ∀ o, o < r.nextObject → r'.counterOf o = r.counterOf o
  fresh : ∀ o, r.nextObject ≤ o → o < r'.nextObject → r.nextCounter ≤ r'.counterOf o

/-- What no operation on objects changes. -/
theorem rcFollows_of_eq (hcounters : r.nextCounter ≤ r'.nextCounter) (hobjects : r'.nextObject = r.nextObject)
    (hkept : r'.counterOf = r.counterOf) : RcFollows r r' where
  counters := hcounters
  objects := Nat.le_of_eq hobjects.symm
  kept o _ := congrFun hkept o
  fresh _ hle hlt := absurd (hobjects ▸ hlt) (Nat.not_lt.mpr hle)

theorem rcFollows_makeRc : RcFollows r (r.makeRc a) where
  counters := Nat.le_succ _
  objects := Nat.le_succ _
  kept o ho := newObject_counterOf ho
  fresh o hle hlt := by
    obtain rfl := Nat.le_antisymm (Nat.lt_succ_iff.mp hlt) hle
    exact Nat.le_of_eq newObject_counterOf_self.symm

theorem rcFollows_destroy : RcFollows r (r.destroy a) := by
  obtain ⟨count, objects, counters, heq⟩ := destroy_eq (s := r) (a := a)
  rw [heq]
  exact rcFollows_of_eq le_rfl rfl rfl

theorem rcFollows_step (hstep : r.step op = .ok r') : RcFollows r r' := by
  rcases rcStep_cases hstep with ⟨a, _, _, _, rfl⟩ | ⟨a, _, _, _, rfl⟩ | ⟨a, b, _, _, _, _, rfl⟩ |
    ⟨a, b, _, _, _, rfl⟩ | ⟨a, _, _, rfl⟩
  · exact rcFollows_makeRc
  · exact rcFollows_of_eq (Nat.le_succ _) rfl rfl
  · exact rcFollows_of_eq le_rfl rfl rfl
  · exact rcFollows_of_eq le_rfl rfl rfl
  · exact rcFollows_destroy

/-- **A handle stays in order** while its object has a handle. -/
theorem HandleOk.follow {h : Rc} (hh : HandleOk r h) (hfollows : RcFollows r r') (hr' : RcInv r')
    (hheld : ∀ o, h.ptr = some o → 0 < r'.holders o) : HandleOk r' h where
  counter := Nat.lt_of_lt_of_le hh.counter hfollows.counters
  ptr o hptr := by
    refine ⟨Nat.lt_of_lt_of_le (hh.ptr o hptr).1 hfollows.objects, ?_⟩
    intro hdeleted
    have hzero := (hr'.deleted o hdeleted).2
    exact absurd (hheld o hptr) (hzero ▸ Nat.lt_irrefl 0)
  agree o ho := by
    by_cases hold : o < r.nextObject
    · rw [hfollows.kept o hold]
      exact hh.agree o hold
    · have hfresh := hfollows.fresh o (Nat.not_lt.mp hold) ho
      constructor
      · intro heq
        exact absurd (heq ▸ hh.counter) (Nat.not_lt.mpr hfresh)
      · intro hptr
        exact absurd (hh.ptr o hptr).1 hold

/-- A counter that no object and no handle has. -/
structure Unused (r : RcState) (c : Nat) : Prop where
  made : c < r.nextCounter
  object : ∀ o, o < r.nextObject → r.counterOf o ≠ c
  handle : ∀ a ∈ r.live, (r.rc a).counter ≠ c

/-- No object gets the counter, and a handle only if it is given one that has it. -/
theorem Unused.follow (hc : Unused r c) (hfollows : RcFollows r r')
    (hhandle : ∀ a ∈ r'.live, (r'.rc a).counter ≠ c) : Unused r' c where
  made := Nat.lt_of_lt_of_le hc.made hfollows.counters
  object o ho := by
    by_cases hold : o < r.nextObject
    · rw [hfollows.kept o hold]
      exact hc.object o hold
    · have hfresh := hfollows.fresh o (Nat.not_lt.mp hold) ho
      exact Nat.ne_of_gt (Nat.lt_of_lt_of_le hc.made hfresh)
  handle := hhandle

/-- With a handle that has another counter put at `a`, no handle has this one. -/
theorem Unused.update_rc {h : Rc} (hc : Unused r c) (hne : h.counter ≠ c) (hb : b ∈ insert a r.live) :
    (Function.update r.rc a h b).counter ≠ c := by
  by_cases hba : b = a
  · subst hba
    rw [Function.update_self]
    exact hne
  · rw [Function.update_of_ne hba]
    exact hc.handle b (Finset.mem_of_mem_insert_of_ne hb hba)

/-- **No operation on handles brings a counter back.** -/
theorem Unused.step (hc : Unused r c) (hstep : r.step op = .ok r') : Unused r' c := by
  apply hc.follow (rcFollows_step hstep)
  intro d hd
  rcases rcStep_cases hstep with ⟨a, _, _, _, rfl⟩ | ⟨a, _, _, _, rfl⟩ | ⟨a, b, _, _, hb, _, rfl⟩ |
    ⟨a, b, ha, hb, _, rfl⟩ | ⟨a, _, _, rfl⟩
  · exact hc.update_rc (Nat.ne_of_gt hc.made) hd
  · exact hc.update_rc (Nat.ne_of_gt hc.made) hd
  · exact hc.update_rc (hc.handle b hb) hd
  · exact hc.update_rc (hc.handle b hb) (Finset.mem_insert_of_mem hd)
  · obtain ⟨count, objects, counters, heq⟩ := destroy_eq (s := r) (a := a)
    rw [heq] at hd ⊢
    exact hc.handle d (Finset.mem_of_mem_erase hd)

/-! ## Weak handles -/

/-- A weak handle in order: its pointers are those of a handle, its object still has a handle, and no weak
    handle has deleted its counter. -/
structure WeakHandleOk (s : WeakState) (h : Weak) : Prop where
  handle : HandleOk s.rcs h.toRc
  held : ∀ o, h.ptr = some o → 0 < s.rcs.holders o
  kept : h.counter ∉ s.deletedCounters

/-- **The invariant of the weak handles.** -/
structure WeakInv (s : WeakState) : Prop where
  rcs : RcInv s.rcs
  places : ∀ w ∈ s.live, RcPlace w
  weak : ∀ w ∈ s.live, WeakHandleOk s (s.weak w)
  weakCount : ∀ c, s.weakCount c = s.sharers c
  objects : s.deletedObjects = []
  counters : ∀ c ∈ s.deletedCounters, Unused s.rcs c
  once : s.deletedCounters.Nodup

theorem weakInv_empty : WeakInv .empty where
  rcs := rcInv_empty
  places w hw := by cases hw
  weak w hw := by cases hw
  weakCount _ := rfl
  objects := rfl
  counters c hc := by cases hc
  once := .nil

theorem sharers_pos : 0 < s.sharers c ↔ ∃ w ∈ s.live, (s.weak w).counter = c := tally_pos

/-- The count of weak handles stays far below the wrap. -/
theorem WeakInv.weakCount_lt (hs : WeakInv s) (c : Nat) : s.weakCount c < 4294967295 := by
  rw [hs.weakCount c]
  exact Nat.lt_of_le_of_lt tally_le_card (card_places_lt hs.places)

/-- A live weak handle is one of those counted. -/
theorem WeakInv.weakCount_pos (hs : WeakInv s) (hw : w ∈ s.live) : 0 < s.weakCount (s.weak w).counter := by
  rw [hs.weakCount]
  exact sharers_pos.mpr ⟨w, hw, rfl⟩

/-- A weak handle made from a handle is in order. -/
theorem WeakInv.ofRc (hs : WeakInv s) (ha : a ∈ s.rcs.live) :
    WeakHandleOk s ⟨(s.rcs.rc a).ptr, (s.rcs.rc a).counter⟩ where
  handle := hs.rcs.handles a ha
  held _ hptr := holders_pos.mpr ⟨a, ha, hptr⟩
  kept hmem := (hs.counters _ hmem).handle a ha rfl

/-- With a weak handle that is in order put at `w`, all weak handles are. -/
theorem WeakInv.update_weak {v : Nat} (hs : WeakInv s) (hh : WeakHandleOk s h) (hv : v ∈ insert w s.live) :
    WeakHandleOk s (Function.update s.weak w h v) := by
  by_cases hvw : v = w
  · subst hvw
    rw [Function.update_self]
    exact hh
  · rw [Function.update_of_ne hvw]
    exact hs.weak v (Finset.mem_of_mem_insert_of_ne hv hvw)

theorem increment_weakCount (hlt : s.weakCount b < 4294967295) :
    (s.increment b).weakCount c = s.weakCount c + if b = c then 1 else 0 := by
  unfold WeakState.increment
  dsimp only
  by_cases hbc : b = c
  · subst hbc
    rw [Function.update_self, if_pos rfl, add32_of_lt (by omega)]
  · rw [Function.update_of_ne (Ne.symm hbc), if_neg hbc, Nat.add_zero]

theorem decrement_weakCount (hpos : 0 < s.weakCount b) (hlt : s.weakCount b < 4294967295) :
    (s.decrement b).weakCount c + (if b = c then 1 else 0) = s.weakCount c := by
  unfold WeakState.decrement
  dsimp only
  by_cases hbc : b = c
  · subst hbc
    rw [Function.update_self, if_pos rfl, sub32_of_le hpos (by omega), Nat.sub_add_cancel hpos]
  · rw [Function.update_of_ne (Ne.symm hbc), if_neg hbc, Nat.add_zero]

/-- What a live weak handle leaves when it is counted down. -/
theorem WeakInv.decrement_weakCount (hs : WeakInv s) (hw : w ∈ s.live) :
    (s.decrement (s.weak w).counter).weakCount c + (if (s.weak w).counter = c then 1 else 0) =
      s.sharers c := by
  rw [WeirdOs.decrement_weakCount (hs.weakCount_pos hw) (hs.weakCount_lt _), hs.weakCount c]

/-- **A new weak handle** is counted. -/
theorem WeakInv.copyFrom (hs : WeakInv s) (hh : WeakHandleOk s h) (hw : w ∉ s.live) (hplace : RcPlace w) :
    WeakInv ((s.construct w h).increment h.counter) where
  rcs := hs.rcs
  places v hv := by
    rcases Finset.mem_insert.mp hv with rfl | hv
    · exact hplace
    · exact hs.places v hv
  weak v hv := by
    have hnew := hs.update_weak hh hv
    exact ⟨hnew.handle, hnew.held, hnew.kept⟩
  weakCount c := by
    have hinc : ((s.construct w h).increment h.counter).weakCount c =
        s.weakCount c + if h.counter = c then 1 else 0 := increment_weakCount (hs.weakCount_lt h.counter)
    rw [hinc, hs.weakCount c]
    exact (tally_insert hw).symm
  objects := hs.objects
  counters := hs.counters
  once := hs.once

/-- The weak handle at `w` is counted down and gets the pointers `h`, which are counted up. -/
def WeakState.reassign (s : WeakState) (w : Nat) (h : Weak) : WeakState :=
  { s.decrement (s.weak w).counter with weak := Function.update s.weak w h }.increment h.counter

/-- **An assignment** moves one from the old counter to the new one. -/
theorem WeakInv.assignFrom (hs : WeakInv s) (hh : WeakHandleOk s h) (hw : w ∈ s.live) :
    WeakInv (s.reassign w h) where
  rcs := hs.rcs
  places := hs.places
  weak v hv := by
    have hnew : WeakHandleOk s (Function.update s.weak w h v) :=
      hs.update_weak hh (Finset.mem_insert_of_mem hv)
    exact ⟨hnew.handle, hnew.held, hnew.kept⟩
  weakCount c := by
    have hlt : (s.decrement (s.weak w).counter).weakCount h.counter < 4294967295 := by
      have hdec := hs.decrement_weakCount (c := h.counter) hw
      have hcount := hs.weakCount_lt h.counter
      rw [hs.weakCount] at hcount
      omega
    have hinc : (s.reassign w h).weakCount c =
        (s.decrement (s.weak w).counter).weakCount c + if h.counter = c then 1 else 0 :=
      increment_weakCount
        (s := { s.decrement (s.weak w).counter with weak := Function.update s.weak w h }) hlt
    have hdec := hs.decrement_weakCount (c := c) hw
    have htally : (s.reassign w h).sharers c + (if (s.weak w).counter = c then 1 else 0) =
        s.sharers c + if h.counter = c then 1 else 0 := tally_update hw
    omega
  objects := hs.objects
  counters := hs.counters
  once := hs.once

/-- The state without the weak handle at `w`, which still has to be deleted from. -/
def WeakState.erase (s : WeakState) (w : Nat) : WeakState :=
  { s.decrement (s.weak w).counter with live := s.live.erase w }

/-- A weak handle that goes is counted down. -/
theorem WeakInv.erase (hs : WeakInv s) (hw : w ∈ s.live) : WeakInv (s.erase w) where
  rcs := hs.rcs
  places v hv := hs.places v (Finset.mem_of_mem_erase hv)
  weak v hv := by
    have hh := hs.weak v (Finset.mem_of_mem_erase hv)
    exact ⟨hh.handle, hh.held, hh.kept⟩
  weakCount c := by
    have hdec := hs.decrement_weakCount (c := c) hw
    have htally : (s.erase w).sharers c + (if (s.weak w).counter = c then 1 else 0) = s.sharers c :=
      tally_erase hw
    exact Nat.add_right_cancel (hdec.trans htally.symm)
  objects := hs.objects
  counters := hs.counters
  once := hs.once

/-- A counter that nothing has is deleted. -/
theorem WeakInv.delete (hs : WeakInv s) (hptr : h.ptr = none) (hunused : Unused s.rcs h.counter)
    (hnone : s.sharers h.counter = 0) (hnew : h.counter ∉ s.deletedCounters) : WeakInv (s.delete h) where
  rcs := hs.rcs
  places := hs.places
  weak v hv := by
    have hh := hs.weak v hv
    refine ⟨hh.handle, hh.held, ?_⟩
    intro hmem
    rcases List.mem_append.mp hmem with hold | hmem
    · exact hh.kept hold
    · exact tally_eq_zero.mp hnone v hv (List.mem_singleton.mp hmem)
  weakCount := hs.weakCount
  objects := by
    unfold WeakState.delete
    rw [hs.objects, hptr]
    rfl
  counters c hc := by
    rcases List.mem_append.mp hc with hold | hmem
    · exact hs.counters c hold
    · obtain rfl := List.mem_singleton.mp hmem
      exact hunused
  once := List.nodup_append.mpr ⟨hs.once, List.nodup_singleton _, fun c hc d hd => by
    obtain rfl := List.mem_singleton.mp hd
    exact fun he => hnew (he ▸ hc)⟩

/-- **Handles change**: the weak handles stay in order while their objects have handles. -/
theorem WeakInv.follow (hs : WeakInv s) (hr : RcInv r) (hfollows : RcFollows s.rcs r)
    (hheld : ∀ w ∈ s.live, ∀ o, (s.weak w).ptr = some o → 0 < r.holders o)
    (hunused : ∀ c ∈ s.deletedCounters, Unused r c) {weakCount : Nat → Nat}
    (hcount : ∀ c, weakCount c = s.sharers c) : WeakInv { s with rcs := r, weakCount } where
  rcs := hr
  places := hs.places
  weak w hw := by
    have hh := hs.weak w hw
    exact ⟨hh.handle.follow hfollows hr (hheld w hw), hheld w hw, hh.kept⟩
  weakCount := hcount
  objects := hs.objects
  counters := hunused
  once := hs.once

/-! ## Steps -/

/-- What an operation on handles leaves. -/
def WeakState.withRcs (s : WeakState) (r : RcState) : WeakState :=
  { s with rcs := r, weakCount := Function.update s.weakCount s.rcs.nextCounter 0 }

/-- What `lock` leaves. -/
def WeakState.locked (s : WeakState) (a w : Nat) : WeakState :=
  { s with rcs := (s.rcs.construct a (s.weak w).toRc).increment (s.weak w).counter }

/-- What a destruction leaves. -/
def WeakState.dropped (s : WeakState) (w : Nat) : WeakState :=
  if (s.erase w).weakCount (s.weak w).counter = 0 ∧ s.rcs.count (s.weak w).counter = 0 then
    (s.erase w).delete (s.weak w)
  else s.erase w

/-- No weak handle is counted on the counter of the handle at `a`, if that is the last one of its object. -/
def LastUnwatched (s : WeakState) (a : Nat) : Prop :=
  (s.rcs.rc a).ptr ≠ none → s.rcs.count (s.rcs.rc a).counter = 1 →
    s.weakCount (s.rcs.rc a).counter = 0

/-- The step makes no weak handle by default construction, does not take the last handle from an object
    that has weak handles, and does not delete a counter that a handle has. -/
def KeepsCounter (s : WeakState) : WeakOp → Prop
  | .default _ => False
  | .rc (.assign a b) | .rc (.assignConvert a b) =>
      (s.rcs.rc b).counter ≠ (s.rcs.rc a).counter → LastUnwatched s a
  | .rc (.destroy a) => LastUnwatched s a
  | .destroy w => s.weakCount (s.weak w).counter = 1 → s.rcs.count (s.weak w).counter = 0 →
      ∀ a ∈ s.rcs.live, (s.rcs.rc a).counter ≠ (s.weak w).counter
  | _ => True

/-- **What a step does** in a state in order, by what it needs. -/
inductive WeakStep (s : WeakState) : WeakOp → WeakState → Prop where
  | rc {op : RcOp} {r : RcState} (hstep : s.rcs.step op = .ok r) : WeakStep s (.rc op) (s.withRcs r)
  | default {w : Nat} (hplace : RcPlace w) (hw : w ∉ s.live) : WeakStep s (.default w) (s.default w)
  | construct {wop : WeakOp} {w : Nat} {h : Weak} (hplace : RcPlace w) (hw : w ∉ s.live)
      (hh : WeakHandleOk s h) (hkeeps : KeepsCounter s wop) :
      WeakStep s wop ((s.construct w h).increment h.counter)
  | assign {wop : WeakOp} {w : Nat} {h : Weak} (hw : w ∈ s.live) (hh : WeakHandleOk s h)
      (hkeeps : KeepsCounter s wop) : WeakStep s wop (s.reassign w h)
  | lock {a w : Nat} (hplace : RcPlace a) (ha : a ∉ s.rcs.live) (hw : w ∈ s.live) :
      WeakStep s (.lock a w) (s.locked a w)
  | expired {w : Nat} (hw : w ∈ s.live) : WeakStep s (.expired w) s
  | destroy {w : Nat} (hw : w ∈ s.live) : WeakStep s (.destroy w) (s.dropped w)

/-! ### No step uses a deleted counter -/

theorem touch_eq_ok (hc : c ∉ s.allDeletedCounters) : s.touch c = .ok () := if_neg hc

theorem touch_deleted (hc : c ∈ s.allDeletedCounters) : s.touch c = .error (.bounds "rc_counter") :=
  if_pos hc

/-- The counter of a weak handle in order is there. -/
theorem WeakInv.touch (hs : WeakInv s) (hh : WeakHandleOk s h) : s.touch h.counter = .ok () := by
  apply touch_eq_ok
  intro hmem
  rcases List.mem_append.mp hmem with hmem | hmem
  · exact hs.rcs.counter_kept hh.handle hmem
  · exact hh.kept hmem

/-- The counter of a handle is there. -/
theorem WeakInv.touch_rc (hs : WeakInv s) (ha : a ∈ s.rcs.live) : s.touch (s.rcs.rc a).counter = .ok () :=
  hs.touch (hs.ofRc ha)

theorem WeakInv.copyFrom_eq (hs : WeakInv s) (hh : WeakHandleOk s h) :
    s.copyFrom w h = .ok ((s.construct w h).increment h.counter) := by
  have htouch : (s.construct w h).touch h.counter = .ok () := hs.touch hh
  unfold WeakState.copyFrom
  dsimp only
  rw [htouch, ok_bind, pure_eq_ok]

theorem WeakInv.assignFrom_eq (hs : WeakInv s) (hh : WeakHandleOk s h) (hw : w ∈ s.live) :
    s.assignFrom w h = .ok (s.reassign w h) := by
  have htouch : WeakState.touch
      { s.decrement (s.weak w).counter with weak := Function.update s.weak w h } h.counter = .ok () :=
    hs.touch hh
  unfold WeakState.assignFrom
  rw [hs.touch (hs.weak w hw), ok_bind]
  exact (congrArg (· >>= _) htouch).trans rfl

theorem WeakInv.destroy_eq (hs : WeakInv s) (hw : w ∈ s.live) : s.destroy w = .ok (s.dropped w) := by
  unfold WeakState.destroy WeakState.dropped
  dsimp only
  rw [hs.touch (hs.weak w hw), ok_bind, pure_eq_ok]
  by_cases hzero : (s.decrement (s.weak w).counter).weakCount (s.weak w).counter = 0 ∧
      (s.decrement (s.weak w).counter).rcs.count (s.weak w).counter = 0
  · rw [if_pos hzero]
    exact congrArg Except.ok (if_pos hzero).symm
  · rw [if_neg hzero]
    exact congrArg Except.ok (if_neg hzero).symm

theorem WeakInv.expired_eq (hs : WeakInv s) (hw : w ∈ s.live) :
    s.expired w = .ok (decide (s.rcs.count (s.weak w).counter = 0)) := by
  unfold WeakState.expired
  rw [hs.touch (hs.weak w hw), ok_bind, pure_eq_ok]

theorem WeakInv.lock_eq (hs : WeakInv s) (hw : w ∈ s.live) : s.lock a w = .ok (s.locked a w) := by
  unfold WeakState.lock
  dsimp only
  rw [show (s.weak w).toRc.counter = (s.weak w).counter from rfl, hs.touch (hs.weak w hw), ok_bind,
    pure_eq_ok]
  rfl

/-- The counters that an operation on handles uses are those of live handles. -/
theorem touched_live (hstep : r.step op = .ok r') (hc : c ∈ WeakState.touched r op) :
    ∃ a ∈ r.live, (r.rc a).counter = c := by
  rcases rcStep_cases hstep with ⟨a, _, _, rfl, _⟩ | ⟨a, _, _, rfl, _⟩ |
    ⟨a, b, _, _, hb, rfl | rfl, _⟩ | ⟨a, b, ha, hb, rfl | rfl, _⟩ | ⟨a, ha, rfl, _⟩
  · cases hc
  · cases hc
  · exact ⟨b, hb, (List.mem_singleton.mp hc).symm⟩
  · exact ⟨b, hb, (List.mem_singleton.mp hc).symm⟩
  · rcases List.mem_pair.mp hc with rfl | rfl
    · exact ⟨a, ha, rfl⟩
    · exact ⟨b, hb, rfl⟩
  · rcases List.mem_pair.mp hc with rfl | rfl
    · exact ⟨a, ha, rfl⟩
    · exact ⟨b, hb, rfl⟩
  · rw [WeakState.touched] at hc
    split at hc
    · exact ⟨a, ha, (List.mem_singleton.mp hc).symm⟩
    · cases hc

theorem forM_touch {cs : List Nat} (hcs : ∀ c ∈ cs, s.touch c = .ok ()) : cs.forM s.touch = .ok () := by
  induction cs with
  | nil => rfl
  | cons c cs ih =>
      have hrest := ih fun d hd => hcs d (List.mem_cons_of_mem _ hd)
      exact bind_eq_ok.mpr ⟨(), hcs c List.mem_cons_self, hrest⟩

theorem WeakInv.rcStep_eq (hs : WeakInv s) (hstep : s.rcs.step op = .ok r) :
    s.rcStep op = .ok (s.withRcs r) := by
  have htouch : (WeakState.touched s.rcs op).forM s.touch = .ok () := by
    apply forM_touch
    intro c hc
    obtain ⟨a, ha, rfl⟩ := touched_live hstep hc
    exact hs.touch_rc ha
  unfold WeakState.rcStep
  rw [hstep, ok_bind, htouch, ok_bind, pure_eq_ok]
  rfl

/-- The operation is refused, or does something with the property. -/
def RefusedOr {α : Type} (x : Exec α) (P : α → Prop) : Prop :=
  (∃ m, x = .error (.misuse m)) ∨ ∃ y, x = .ok y ∧ P y

theorem RefusedOr.bind {α β : Type} {x : Exec α} {f : α → Exec β} {P : α → Prop} {Q : β → Prop}
    (hx : RefusedOr x P) (hf : ∀ y, P y → RefusedOr (f y) Q) : RefusedOr (x >>= f) Q := by
  rcases hx with ⟨m, rfl⟩ | ⟨y, rfl, hy⟩
  · exact .inl ⟨m, rfl⟩
  · exact hf y hy

theorem refusedOr_check {p : Prop} [Decidable p] {m : String} :
    RefusedOr (if p then .ok () else .error (.misuse m)) fun _ => p := by
  split
  · next hp => exact .inr ⟨(), rfl, hp⟩
  · exact .inl ⟨m, rfl⟩

theorem refusedOr_of_eq {α : Type} {x : Exec α} {y : α} {P : α → Prop} (hx : x = .ok y) (hy : P y) :
    RefusedOr x P := .inr ⟨y, hx, hy⟩

theorem refusedOr_rcStep (r : RcState) (op : RcOp) : RefusedOr (r.step op) fun r' => r.step op = .ok r' := by
  have hstep : RefusedOr (r.step op) fun _ => True := by
    cases op with
    | makeRc _ => exact refusedOr_check.bind fun _ _ => refusedOr_of_eq rfl trivial
    | default _ => exact refusedOr_check.bind fun _ _ => refusedOr_of_eq rfl trivial
    | copy _ _ =>
        exact refusedOr_check.bind fun _ _ => refusedOr_check.bind fun _ _ => refusedOr_of_eq rfl trivial
    | convert _ _ =>
        exact refusedOr_check.bind fun _ _ => refusedOr_check.bind fun _ _ => refusedOr_of_eq rfl trivial
    | assign _ _ =>
        exact refusedOr_check.bind fun _ _ => refusedOr_check.bind fun _ _ => refusedOr_of_eq rfl trivial
    | assignConvert _ _ =>
        exact refusedOr_check.bind fun _ _ => refusedOr_check.bind fun _ _ => refusedOr_of_eq rfl trivial
    | destroy _ => exact refusedOr_check.bind fun _ _ => refusedOr_of_eq rfl trivial
  exact hstep.imp_right fun ⟨r', hr', _⟩ => ⟨r', hr', hr'⟩

/-- The constructors that copy pointers. -/
theorem WeakInv.copyFrom_spec (hs : WeakInv s) (hfree : RcPlace w ∧ w ∉ s.live) (hh : WeakHandleOk s h)
    (hkeeps : KeepsCounter s wop) : RefusedOr (s.copyFrom w h) (WeakStep s wop) :=
  refusedOr_of_eq (hs.copyFrom_eq hh) (.construct hfree.1 hfree.2 hh hkeeps)

/-- The assignment operators. -/
theorem WeakInv.assignFrom_spec (hs : WeakInv s) (hw : w ∈ s.live) (hh : WeakHandleOk s h)
    (hkeeps : KeepsCounter s wop) : RefusedOr (s.assignFrom w h) (WeakStep s wop) :=
  refusedOr_of_eq (hs.assignFrom_eq hh hw) (.assign hw hh hkeeps)

/-- **In a state in order no operation uses a deleted counter**: it is refused, or makes a step. -/
theorem WeakInv.step_spec (hs : WeakInv s) (wop : WeakOp) : RefusedOr (s.step wop) (WeakStep s wop) := by
  cases wop with
  | rc op =>
      rcases refusedOr_rcStep s.rcs op with ⟨m, hm⟩ | ⟨r, hr, hstep⟩
      · refine .inl ⟨m, ?_⟩
        rw [WeakState.step, WeakState.rcStep, hm, error_bind]
      · exact .inr ⟨_, hs.rcStep_eq hstep, .rc hstep⟩
  | default w => exact refusedOr_check.bind fun _ hfree => refusedOr_of_eq rfl (.default hfree.1 hfree.2)
  | ofRc w a =>
      refine refusedOr_check.bind fun _ hfree => refusedOr_check.bind ?_
      intro _ ha
      exact hs.copyFrom_spec hfree (hs.ofRc ha) trivial
  | copy w v =>
      refine refusedOr_check.bind fun _ hfree => refusedOr_check.bind ?_
      intro _ hv
      exact hs.copyFrom_spec hfree (hs.weak v hv) trivial
  | convert w v =>
      refine refusedOr_check.bind fun _ hfree => refusedOr_check.bind ?_
      intro _ hv
      exact hs.copyFrom_spec hfree (hs.weak v hv) trivial
  | assignRc w a =>
      refine refusedOr_check.bind fun _ hw => refusedOr_check.bind ?_
      intro _ ha
      exact hs.assignFrom_spec hw (hs.ofRc ha) trivial
  | assign w v =>
      refine refusedOr_check.bind fun _ hw => refusedOr_check.bind ?_
      intro _ hv
      exact hs.assignFrom_spec hw (hs.weak v hv) trivial
  | assignRcConvert w a =>
      refine refusedOr_check.bind fun _ hw => refusedOr_check.bind ?_
      intro _ ha
      exact hs.assignFrom_spec hw (hs.ofRc ha) trivial
  | assignConvert w v =>
      refine refusedOr_check.bind fun _ hw => refusedOr_check.bind ?_
      intro _ hv
      exact hs.assignFrom_spec hw (hs.weak v hv) trivial
  | lock a w =>
      refine refusedOr_check.bind fun _ hfree => refusedOr_check.bind ?_
      intro _ hw
      exact refusedOr_of_eq (hs.lock_eq hw) (.lock hfree.1 hfree.2 hw)
  | expired w =>
      apply refusedOr_check.bind
      intro _ hw
      rw [hs.expired_eq hw]
      exact refusedOr_of_eq rfl (.expired hw)
  | destroy w =>
      apply refusedOr_check.bind
      intro _ hw
      exact refusedOr_of_eq (hs.destroy_eq hw) (.destroy hw)

/-! ### Good steps keep the invariant -/

/-- The handle at `a` is not the last one to the object of a weak handle. -/
theorem WeakInv.shared (hs : WeakInv s) (hlast : LastUnwatched s a) (ha : a ∈ s.rcs.live)
    (hpa : (s.rcs.rc a).ptr = some o) (hw : w ∈ s.live) (hptr : (s.weak w).ptr = some o) :
    2 ≤ s.rcs.holders o := by
  have hh := (hs.weak w hw).handle
  have ho := (hh.ptr o hptr).1
  have hca : (s.rcs.rc a).counter = s.rcs.counterOf o := ((hs.rcs.handles a ha).agree o ho).mpr hpa
  have hcw : (s.weak w).counter = s.rcs.counterOf o := (hh.agree o ho).mpr hptr
  have hpos := hs.weakCount_pos hw
  have hheld := (hs.weak w hw).held o hptr
  have hne : s.rcs.holders o ≠ 1 := by
    intro hone
    have hsome : (s.rcs.rc a).ptr ≠ none := by
      rw [hpa]
      exact nofun
    have hcount : s.rcs.count (s.rcs.rc a).counter = 1 := by rw [hca, hs.rcs.count o ho, hone]
    have hzero := hlast hsome hcount
    rw [hca, ← hcw] at hzero
    omega
  omega

/-- The object of a weak handle keeps a handle. -/
theorem WeakInv.held_step (hs : WeakInv s) (hkeeps : KeepsCounter s (.rc op))
    (hstep : s.rcs.step op = .ok r) (hw : w ∈ s.live) (hptr : (s.weak w).ptr = some o) :
    0 < r.holders o := by
  have hheld := (hs.weak w hw).held o hptr
  have ho := ((hs.weak w hw).handle.ptr o hptr).1
  rcases rcStep_cases hstep with ⟨a, _, ha, _, rfl⟩ | ⟨a, _, ha, _, rfl⟩ |
    ⟨a, b, _, ha, _, _, rfl⟩ | ⟨a, b, ha, hb, hop, rfl⟩ | ⟨a, ha, rfl, rfl⟩
  · rw [holders_makeRc ha]
    exact Nat.add_pos_left hheld _
  · rw [holders_default ha]
    exact hheld
  · rw [holders_copyFrom ha]
    exact Nat.add_pos_left hheld _
  · have hkeeps' : (s.rcs.rc b).counter ≠ (s.rcs.rc a).counter → LastUnwatched s a := by
      rcases hop with rfl | rfl
      · exact hkeeps
      · exact hkeeps
    have hholders := holders_assignFrom (b := b) (o := o) ha
    unfold Rc.weight at hholders
    by_cases hpa : (s.rcs.rc a).ptr = some o
    · by_cases hpb : (s.rcs.rc b).ptr = some o
      · rw [if_pos hpa, if_pos hpb] at hholders
        omega
      · have hne : (s.rcs.rc b).counter ≠ (s.rcs.rc a).counter := by
          intro heq
          rw [((hs.rcs.handles a ha).agree o ho).mpr hpa] at heq
          exact hpb (((hs.rcs.handles b hb).agree o ho).mp heq)
        have htwo := hs.shared (hkeeps' hne) ha hpa hw hptr
        rw [if_pos hpa] at hholders
        omega
    · rw [if_neg hpa] at hholders
      omega
  · have hholders := holders_destroy (o := o) ha
    unfold Rc.weight at hholders
    by_cases hpa : (s.rcs.rc a).ptr = some o
    · have htwo := hs.shared hkeeps ha hpa hw hptr
      rw [if_pos hpa] at hholders
      omega
    · rw [if_neg hpa] at hholders
      omega

/-- Nothing is counted on a counter that is still to be made. -/
theorem WeakInv.sharers_new (hs : WeakInv s) : s.sharers s.rcs.nextCounter = 0 :=
  tally_eq_zero.mpr fun w hw => Nat.ne_of_lt (hs.weak w hw).handle.counter

theorem WeakInv.rcStep (hs : WeakInv s) (hkeeps : KeepsCounter s (.rc op))
    (hstep : s.rcs.step op = .ok r) : WeakInv (s.withRcs r) := by
  refine hs.follow (hs.rcs.step hstep) (rcFollows_step hstep)
    (fun w hw o hptr => hs.held_step hkeeps hstep hw hptr)
    (fun c hc => (hs.counters c hc).step hstep) ?_
  intro c
  by_cases hc : c = s.rcs.nextCounter
  · subst hc
    rw [Function.update_self, hs.sharers_new]
  · rw [Function.update_of_ne hc, hs.weakCount c]

/-- **`lock`** makes one more handle to an object that has one. -/
theorem WeakInv.lock (hs : WeakInv s) (hplace : RcPlace a) (ha : a ∉ s.rcs.live) (hw : w ∈ s.live) :
    WeakInv (s.locked a w) := by
  have hh := hs.weak w hw
  have hr : RcInv ((s.rcs.construct a (s.weak w).toRc).increment (s.weak w).counter) :=
    hs.rcs.share hh.handle ha hplace
  have hfollows : RcFollows s.rcs ((s.rcs.construct a (s.weak w).toRc).increment (s.weak w).counter) :=
    rcFollows_of_eq le_rfl rfl rfl
  refine hs.follow hr hfollows ?_ ?_ hs.weakCount
  · intro v hv o hptr
    have hholders : ((s.rcs.construct a (s.weak w).toRc).increment (s.weak w).counter).holders o =
        s.rcs.holders o + (s.weak w).toRc.weight o := holders_construct ha
    rw [hholders]
    exact Nat.add_pos_left ((hs.weak v hv).held o hptr) _
  · intro c hc
    have hne : (s.weak w).toRc.counter ≠ c := by
      rintro rfl
      exact hh.kept hc
    exact (hs.counters c hc).follow hfollows fun b hb => (hs.counters c hc).update_rc hne hb

/-- **A destruction** deletes a counter that nothing has. -/
theorem WeakInv.drop (hs : WeakInv s) (hkeeps : KeepsCounter s (.destroy w)) (hw : w ∈ s.live) :
    WeakInv (s.dropped w) := by
  have hh := hs.weak w hw
  have herase := hs.erase hw
  have hdec := hs.decrement_weakCount (c := (s.weak w).counter) hw
  rw [if_pos rfl, ← hs.weakCount] at hdec
  unfold WeakState.dropped
  split
  · next hzero =>
      obtain ⟨hweak, hcount⟩ := hzero
      have hone : s.weakCount (s.weak w).counter = 1 := by
        rw [← hdec, show (s.decrement (s.weak w).counter).weakCount (s.weak w).counter = 0 from hweak]
      have hnull : ∀ o, o < s.rcs.nextObject → s.rcs.counterOf o ≠ (s.weak w).counter := by
        intro o ho heq
        have hptr := (hh.handle.agree o ho).mp heq.symm
        have hheld := hh.held o hptr
        rw [← hs.rcs.count o ho, heq, hcount] at hheld
        exact Nat.lt_irrefl 0 hheld
      have hptr : (s.weak w).ptr = none := by
        cases hptr : (s.weak w).ptr with
        | none => rfl
        | some o =>
            have ho := (hh.handle.ptr o hptr).1
            exact absurd ((hh.handle.agree o ho).mpr hptr).symm (hnull o ho)
      have hunused : Unused s.rcs (s.weak w).counter := ⟨hh.handle.counter, hnull, hkeeps hone hcount⟩
      exact herase.delete hptr hunused ((herase.weakCount _).symm.trans hweak) hh.kept
  · exact herase

/-- **Every good step keeps the invariant.** -/
theorem WeakInv.step (hs : WeakInv s) (hkeeps : KeepsCounter s wop) (hstep : WeakStep s wop t) :
    WeakInv t := by
  cases hstep with
  | rc hstep => exact hs.rcStep hkeeps hstep
  | default _ _ => exact absurd hkeeps id
  | construct hplace hw hh _ => exact hs.copyFrom hh hw hplace
  | assign hw hh _ => exact hs.assignFrom hh hw
  | lock hplace ha hw => exact hs.lock hplace ha hw
  | expired _ => exact hs
  | destroy hw => exact hs.drop hkeeps hw

/-! ## Weak handles over whole runs -/

/-- **Weak handles can be used**: no operation uses a counter that was deleted and no handle points to an
    object that was; nothing is deleted twice; `weak_count` counts the weak handles; a weak handle to an
    object is expired iff the object has been deleted. -/
structure WeakOk (s : WeakState) : Prop where
  safe : ∀ wop, s.step wop ≠ .error (.bounds "rc_counter")
  objects : ∀ a ∈ s.rcs.live, ∀ o, (s.rcs.rc a).ptr = some o → o ∉ s.allDeletedObjects
  objectsOnce : s.allDeletedObjects.Nodup
  countersOnce : s.allDeletedCounters.Nodup
  weakCount : ∀ c, c < s.rcs.nextCounter → c ∉ s.allDeletedCounters → s.weakCount c = s.sharers c
  expired : ∀ w ∈ s.live, ∀ o, (s.weak w).ptr = some o →
    ∃ e, s.expired w = .ok e ∧ (e = true ↔ o ∈ s.allDeletedObjects)

/-- All objects were deleted by handles. -/
theorem WeakInv.allDeletedObjects (hs : WeakInv s) : s.allDeletedObjects = s.rcs.deletedObjects := by
  unfold WeakState.allDeletedObjects
  rw [hs.objects, List.append_nil]

theorem WeakInv.weakOk (hs : WeakInv s) : WeakOk s where
  safe wop hfault := by
    rcases hs.step_spec wop with ⟨m, hm⟩ | ⟨t, ht, _⟩
    · exact absurd (Except.error.inj (hm.symm.trans hfault)) nofun
    · exact absurd (ht.symm.trans hfault) nofun
  objects a ha o hptr := by
    rw [hs.allDeletedObjects]
    exact ((hs.rcs.handles a ha).ptr o hptr).2
  objectsOnce := by
    rw [hs.allDeletedObjects]
    exact hs.rcs.once
  countersOnce := by
    refine List.nodup_append.mpr ⟨hs.rcs.countersOnce, hs.once, ?_⟩
    intro c hc d hd heq
    subst heq
    rw [hs.rcs.deletedCounters] at hc
    obtain ⟨o, ho, heq⟩ := List.mem_map.mp hc
    exact (hs.counters c hd).object o (hs.rcs.deleted o ho).1 heq
  weakCount c _ _ := hs.weakCount c
  expired w hw o hptr := by
    have hh := hs.weak w hw
    obtain ⟨ho, hnew⟩ := hh.handle.ptr o hptr
    have hcounter : (s.weak w).counter = s.rcs.counterOf o := (hh.handle.agree o ho).mpr hptr
    have hcount : s.rcs.count (s.weak w).counter = s.rcs.holders o := by
      rw [hcounter, hs.rcs.count o ho]
    refine ⟨_, hs.expired_eq hw, ?_⟩
    rw [decide_eq_true_iff, hcount, hs.allDeletedObjects]
    exact iff_of_false (Nat.ne_of_gt (hh.held o hptr)) hnew

/-! ### Every other step breaks something -/

/-- Only counters that were made are deleted. -/
theorem WeakInv.deleted_lt (hs : WeakInv s) (hc : c ∈ s.allDeletedCounters) : c < s.rcs.nextCounter := by
  rcases List.mem_append.mp hc with hc | hc
  · rw [hs.rcs.deletedCounters] at hc
    obtain ⟨o, ho, rfl⟩ := List.mem_map.mp hc
    exact hs.rcs.counterOf o (hs.rcs.deleted o ho).1
  · exact (hs.counters c hc).made

/-- A default-constructed weak handle is not counted. -/
theorem not_weakOk_default (hs : WeakInv s) : ¬ WeakOk (s.default w) := by
  intro hok
  have hnew : s.rcs.nextCounter ∉ (s.default w).allDeletedCounters :=
    fun hmem => Nat.lt_irrefl _ (hs.deleted_lt hmem)
  have hzero : (s.default w).weakCount s.rcs.nextCounter = 0 := Function.update_self _ _ _
  have hlive : w ∈ (s.default w).live := Finset.mem_insert_self w s.live
  have hself : (s.default w).weak w = ⟨none, s.rcs.nextCounter⟩ := Function.update_self _ _ _
  have hpos : 0 < (s.default w).sharers s.rcs.nextCounter := sharers_pos.mpr ⟨w, hlive, by rw [hself]⟩
  rw [← hok.weakCount _ (Nat.lt_succ_self _) hnew, hzero] at hpos
  exact Nat.lt_irrefl 0 hpos

/-- A weak handle with a deleted counter cannot be asked whether it is expired. -/
theorem not_weakOk_of_weak (hw : w ∈ s.live) (hc : (s.weak w).counter ∈ s.allDeletedCounters) :
    ¬ WeakOk s := by
  intro hok
  apply hok.safe (.expired w)
  have hlive : s.checkLive w = .ok () := if_pos hw
  rw [WeakState.step, hlive, ok_bind, WeakState.expired, touch_deleted hc, error_bind, error_bind]

/-- A handle with a deleted counter cannot be assigned to itself. -/
theorem not_weakOk_of_rc (ha : a ∈ s.rcs.live) (hc : (s.rcs.rc a).counter ∈ s.allDeletedCounters) :
    ¬ WeakOk s := by
  intro hok
  apply hok.safe (.rc (.assign a a))
  have hlive : s.rcs.checkLive a = .ok () := if_pos ha
  have hstep : s.rcs.step (.assign a a) = .ok (s.rcs.assign a a) := by
    rw [RcState.step, hlive, ok_bind, ok_bind, pure_eq_ok]
  have htouch : (WeakState.touched s.rcs (.assign a a)).forM s.touch = .error (.bounds "rc_counter") := by
    have hfirst := touch_deleted hc
    exact (congrArg (· >>= _) hfirst).trans rfl
  rw [WeakState.step, WeakState.rcStep, hstep, ok_bind, htouch, error_bind]

/-- What it means that a last handle is watched. -/
theorem not_lastUnwatched (hs : WeakInv s) (ha : a ∈ s.rcs.live) (hbad : ¬ LastUnwatched s a) :
    ∃ o, (s.rcs.rc a).ptr = some o ∧ (s.rcs.rc a).counter = s.rcs.counterOf o ∧ s.rcs.holders o = 1 ∧
      ∃ w ∈ s.live, (s.weak w).counter = s.rcs.counterOf o ∧ (s.weak w).ptr = some o := by
  unfold LastUnwatched at hbad
  simp only [Classical.not_imp] at hbad
  obtain ⟨hsome, hone, hweak⟩ := hbad
  obtain ⟨o, hptr⟩ := Option.ne_none_iff_exists'.mp hsome
  have hh := hs.rcs.handles a ha
  have ho := (hh.ptr o hptr).1
  have hcounter := (hh.agree o ho).mpr hptr
  rw [hcounter, hs.rcs.count o ho] at hone
  rw [hcounter, hs.weakCount] at hweak
  obtain ⟨w, hw, hwc⟩ := sharers_pos.mp (Nat.pos_of_ne_zero hweak)
  exact ⟨o, hptr, hcounter, hone, w, hw, hwc, ((hs.weak w hw).handle.agree o ho).mp hwc⟩

/-- The last handle goes and deletes the counter of a weak handle. -/
theorem not_weakOk_destroy_rc (hs : WeakInv s) (ha : a ∈ s.rcs.live) (hbad : ¬ LastUnwatched s a) :
    ¬ WeakOk (s.withRcs (s.rcs.destroy a)) := by
  obtain ⟨o, hptr, _, hone, w, hw, hwc, _⟩ := not_lastUnwatched hs ha hbad
  have ho := ((hs.rcs.handles a ha).ptr o hptr).1
  obtain ⟨hinv, hdeletes⟩ := hs.rcs.destroy_spec ha
  have hzero : (s.rcs.destroy a).holders o = 0 := by
    have hholders := holders_destroy (o := o) ha
    have hweight : (s.rcs.rc a).weight o = 1 := if_pos hptr
    omega
  have hmem : o ∈ (s.rcs.destroy a).deletedObjects := by
    rcases hdeletes o ho hzero with hnone | hmem
    · omega
    · exact hmem
  have hdeleted : s.rcs.counterOf o ∈ (s.rcs.destroy a).deletedCounters := by
    rw [hinv.deletedCounters, ← rcFollows_destroy.kept o ho]
    exact List.mem_map_of_mem hmem
  refine not_weakOk_of_weak (w := w) hw (List.mem_append_left _ ?_)
  rw [← hwc] at hdeleted
  exact hdeleted

/-- The last handle is assigned another object, and the weak handle is expired while its object is there. -/
theorem not_weakOk_assignFrom (hs : WeakInv s) (ha : a ∈ s.rcs.live) (hb : b ∈ s.rcs.live)
    (hne : (s.rcs.rc b).counter ≠ (s.rcs.rc a).counter) (hbad : ¬ LastUnwatched s a) :
    ¬ WeakOk (s.withRcs (s.rcs.assignFrom a b)) := by
  obtain ⟨o, hptr, hcounter, hone, w, hw, hwc, hwptr⟩ := not_lastUnwatched hs ha hbad
  obtain ⟨ho, hnew⟩ := (hs.rcs.handles a ha).ptr o hptr
  have hpb : (s.rcs.rc b).ptr ≠ some o := by
    intro hpb
    exact hne ((((hs.rcs.handles b hb).agree o ho).mpr hpb).trans hcounter.symm)
  have hzero : (s.rcs.assignFrom a b).count (s.rcs.counterOf o) = 0 := by
    have hholders := holders_assignFrom (b := b) (o := o) ha
    have hweight : (s.rcs.rc a).weight o = 1 := if_pos hptr
    have hweight' : (s.rcs.rc b).weight o = 0 := if_neg hpb
    have hcount := (hs.rcs.assignFrom ha hb).count o ho
    exact hcount.trans (by omega)
  intro hok
  obtain ⟨e, he, hiff⟩ := hok.expired w hw o hwptr
  have hexpired : e = true := by
    obtain ⟨_, _, hrest⟩ := bind_eq_ok.mp he
    rw [← Except.ok.inj hrest, decide_eq_true_iff]
    exact hwc ▸ hzero
  have hmem := hiff.mp hexpired
  have hkept : o ∉ s.allDeletedObjects := by
    rw [hs.allDeletedObjects]
    exact hnew
  exact hkept hmem

/-- The last weak handle goes and deletes the counter of a null handle. -/
theorem not_weakOk_dropped (hs : WeakInv s) (hw : w ∈ s.live) (hbad : ¬ KeepsCounter s (.destroy w)) :
    ¬ WeakOk (s.dropped w) := by
  unfold KeepsCounter at hbad
  simp only [not_forall, Decidable.not_not] at hbad
  obtain ⟨hone, hcount, a, ha, hac⟩ := hbad
  have hzero : (s.erase w).weakCount (s.weak w).counter = 0 := by
    have hdec := hs.decrement_weakCount (c := (s.weak w).counter) hw
    rw [if_pos rfl, ← hs.weakCount, hone] at hdec
    exact Nat.succ.inj hdec
  unfold WeakState.dropped
  rw [if_pos ⟨hzero, hcount⟩]
  refine not_weakOk_of_rc (a := a) ha (List.mem_append_right _ ?_)
  rw [show ((s.erase w).delete (s.weak w)).rcs.rc a = s.rcs.rc a from rfl, hac]
  exact List.mem_append_right _ (List.mem_singleton_self _)

/-- **Every other step breaks something.** -/
theorem WeakInv.not_weakOk (hs : WeakInv s) (hbad : ¬ KeepsCounter s wop) (hstep : WeakStep s wop t) :
    ¬ WeakOk t := by
  cases hstep with
  | @rc op r hstep =>
      rcases rcStep_cases hstep with ⟨a, _, _, rfl, _⟩ | ⟨a, _, _, rfl, _⟩ |
        ⟨a, b, _, _, _, rfl | rfl, _⟩ | ⟨a, b, ha, hb, rfl | rfl, rfl⟩ | ⟨a, ha, rfl, rfl⟩
      · exact absurd trivial hbad
      · exact absurd trivial hbad
      · exact absurd trivial hbad
      · exact absurd trivial hbad
      · obtain ⟨hne, hlast⟩ := Classical.not_imp.mp hbad
        exact not_weakOk_assignFrom hs ha hb hne hlast
      · obtain ⟨hne, hlast⟩ := Classical.not_imp.mp hbad
        exact not_weakOk_assignFrom hs ha hb hne hlast
      · exact not_weakOk_destroy_rc hs ha hbad
  | default _ _ => exact not_weakOk_default hs
  | construct _ _ _ hkeeps => exact absurd hkeeps hbad
  | assign _ _ hkeeps => exact absurd hkeeps hbad
  | lock _ _ _ => exact absurd trivial hbad
  | expired _ => exact absurd trivial hbad
  | destroy hw => exact not_weakOk_dropped hs hw hbad

/-- What returned is a step. -/
theorem WeakInv.weakStep (hs : WeakInv s) (hstep : s.step wop = .ok t) : WeakStep s wop t := by
  rcases hs.step_spec wop with ⟨m, hm⟩ | ⟨u, hu, hweak⟩
  · exact absurd (hm.symm.trans hstep) nofun
  · obtain rfl := Except.ok.inj (hu.symm.trans hstep)
    exact hweak

/-- **Weak handles over whole runs.** In every state of a run weak handles can be used iff no step makes a
    weak handle by default construction, takes the last handle from an object that has weak handles, or
    deletes a counter that a handle still has. -/
theorem weak_run_iff (hrun : WeakState.run ops = .ok t) :
    (∀ pre u, pre <+: ops → WeakState.run pre = .ok u → WeakOk u) ↔
      ∀ pre wop u, pre ++ [wop] <+: ops → WeakState.run pre = .ok u → KeepsCounter u wop :=
  run_holds_iff (I := WeakInv) (fun _ hs => hs.weakOk)
    (fun _ _ _ hs hkeeps hstep => hs.step hkeeps (hs.weakStep hstep))
    (fun _ _ _ hs hbad hstep => hs.not_weakOk hbad (hs.weakStep hstep)) weakInv_empty hrun

/-- Two weak handles to an object, and a second handle made from one of them, which goes last. -/
def weakLockOps : List WeakOp :=
  [.rc (.makeRc 0), .ofRc 8 0, .copy 16 8, .lock 24 8, .rc (.destroy 0), .expired 8, .destroy 8,
    .destroy 16, .rc (.destroy 24)]

/-- In that run weak handles can be used at every step. -/
theorem weak_run_iff_lock :
    ∃ t, WeakState.run weakLockOps = .ok t ∧
      ∀ pre u, pre <+: weakLockOps → WeakState.run pre = .ok u → WeakOk u := by
  obtain ⟨t, hrun⟩ : ∃ t, WeakState.run weakLockOps = .ok t := ⟨_, rfl⟩
  refine ⟨t, hrun, (weak_run_iff hrun).mpr ?_⟩
  unfold WeakState.run weakLockOps
  rw [forall_steps_cons rfl, forall_steps_cons rfl, forall_steps_cons rfl, forall_steps_cons rfl,
    forall_steps_cons rfl, forall_steps_cons rfl, forall_steps_cons rfl, forall_steps_cons rfl,
    forall_steps_cons rfl]
  refine ⟨trivial, trivial, trivial, trivial, ?_, trivial, ?_, ?_, fun _ _ => rfl, ?_⟩
  · -- the second handle is there
    intro _
    exact fun hone => absurd hone (by decide)
  · exact fun hone => absurd hone (by decide)
  · exact fun _ hcount => absurd hcount (by decide)
  · intro pre op u hpre
    simp at hpre

/-- The weak handles of `make_rc<dirent>("", weak<inode>(), nullopt)`: the argument, the parameter of the
    constructor and the member, of which the first two end. Then the member is assigned. -/
def weakDirentOps : List WeakOp :=
  [.default 0, .copy 8 0, .copy 16 8, .destroy 8, .destroy 0, .rc (.makeRc 24), .rc (.makeRc 32),
    .assignRcConvert 16 32]

/-- A handle, a weak handle to its object, and the end of the handle. -/
def weakReleasedOps : List WeakOp := [.rc (.makeRc 0), .ofRc 8 0, .rc (.destroy 0)]

/-- The assignment to the member uses a deleted counter, and so does `expired` of a weak handle whose
    object is gone. -/
theorem weak_uses_deleted_counter :
    WeakState.run weakDirentOps = .error (.bounds "rc_counter") ∧
      ∃ t, WeakState.run weakReleasedOps = .ok t ∧ 8 ∈ t.live ∧
        t.expired 8 = .error (.bounds "rc_counter") ∧ ¬ WeakOk t :=
  ⟨rfl, _, rfl, by decide, rfl, not_weakOk_of_weak (w := 8) (by decide) (by decide)⟩

end WeirdOs
