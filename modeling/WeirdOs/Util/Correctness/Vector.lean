import WeirdOs.Util.Vector
import WeirdOs.Heap.Correctness.Kmalloc
import WeirdOs.Heap.Correctness.Payload

/-!
# `Util.Correctness.Vector` — a `vec` is a stack for as long as it has the room it records

`VecHolds`: the elements are those of the stack, and `capacity * sizeof(T)` bytes fit the heap block at
`data`. Pushing below capacity and popping keep this (`VecHolds.store`, `VecHolds.pop`).

Growing need not: it asks for `length + 8 * sizeof(T)` bytes and records room for `length + 8` elements,
which is more for every element of two bytes or larger. Whether the block has that room all the same is
known before, from the heap (`reallocRoom`); where it has not, the very step breaks the bound
(`VecHolds.step_short`). So a run is right iff no growth in it is short (`vec_inBlock_iff`).

`end` is the place of the last element: a range-for leaves it out, whatever the `vec` (`vec_rangeFor_wrong`).
What it does visit are results of their own: all elements but the last where there are any
(`VecHolds.rangeFor`), and all of memory where there are none (`rangeFor_empty`).
-/

namespace WeirdOs

open Lib

variable {m : Mem} {a n lo hi sz : Nat} {l : List UInt8} {s t : VecRun sz} {d e : Stack (Vector UInt8 sz)}
  {value : Vector UInt8 sz} {k k' : KernelHeap} {v v' : Vec} {bs : List Block} {b : Block}

/-! ## Values in memory -/

theorem loadValue_congr {m' : Mem} {a' : Nat} (h : ∀ i < sz, m' (add32 a' i) = m (add32 a i)) :
    loadValue sz m' a' = loadValue sz m a := by
  unfold loadValue
  congr 1
  funext i
  exact h i i.isLt

/-- **What was stored is loaded.** -/
theorem loadValue_storeBytes (ha : a + sz < 4294967296) :
    loadValue sz (storeBytes m a value.toList) a = value := by
  apply Vector.ext
  intro i hi
  have hlen : value.toList.length = sz := by simp
  rw [loadValue, Vector.getElem_ofFn]
  show storeBytes m a value.toList (add32 a i) = value[i]
  rw [add32_of_lt (by omega), storeBytes_in (by omega) (by omega), Vector.getElem_toList]

/-- Bytes stored behind the start of a payload do not reach the header in front of it, even around the
    address space. -/
theorem payloadSize_storeBytes {off : Nat} (h : Layout m lo hi bs) (hb : b ∈ bs)
    (hoff : off + l.length + 16 ≤ 4294967296) :
    payloadSize (storeBytes m (add32 b.payload off) l) b.payload = payloadSize m b.payload := by
  have hbound := h.bound hb
  have hpay := Block.payload_eq b
  refine congrArg BlockHeader.size (header_congr ?_)
  intro x hx1 hx2
  rw [h.sub32_payload hb] at hx1 hx2
  apply storeBytes_out (Nat.mod_lt _ (by decide))
  intro i hi
  unfold add32
  omega

/-! ## The invariant -/

/-- **The `vec` holds the stack's items**, in the used block `b` behind `data`, which has room for
    `capacity` of them. -/
structure VecHolds (lo hi : Nat) (s : VecRun sz) (d : Stack (Vector UInt8 sz)) (bs : List Block)
    (b : Block) : Prop where
  kheap : ∃ heap, s.heap.kheap = some heap ∧ heap.firstBlock = lo
  layout : Layout s.heap.mem lo hi bs
  mem : b ∈ bs
  used : b.used = true
  data : b.payload = s.vec.data
  length_le : s.vec.length ≤ s.vec.capacity
  room : s.vec.capacity * sz ≤ b.size
  length : d.items.length = s.vec.length
  items : ∀ (i : Nat) (hi : i < d.items.length), s.vec.elementAt sz s.heap i = d.items[i]
  popped : s.popped = d.popped

/-- **What should hold of a `vec`**: its length is within its capacity, its capacity within the block
    behind `data`, and so are all its elements. -/
structure VecOk (s : VecRun sz) : Prop where
  length_le : s.vec.length ≤ s.vec.capacity
  room : s.vec.capacity * sz ≤ payloadSize s.heap.mem s.vec.data
  inside : ∀ i < s.vec.length, s.vec.data ≤ s.vec.slot sz i ∧
    s.vec.slot sz i + sz ≤ s.vec.data + payloadSize s.heap.mem s.vec.data

/-- Before a growth: the block that `krealloc` is going to return has room for the capacity that is going
    to be recorded. -/
def RoomToGrow (s : VecRun sz) : VecOp sz → Prop
  | .popBack    => True
  | .pushBack _ => s.vec.capacity ≤ s.vec.length → ∀ heap r, s.heap.kheap = some heap →
      reallocRoom s.heap heap s.vec.data (add32 s.vec.length (word (8 * sz))) = .ok r →
      (s.vec.length + 8) * sz ≤ r

namespace VecHolds

/-- An element below the capacity, and where it ends. -/
theorem mul_le (h : VecHolds lo hi s d bs b) {i : Nat} (hi : i < s.vec.capacity) :
    i * sz + sz ≤ b.size := by
  have hle : (i + 1) * sz ≤ s.vec.capacity * sz := Nat.mul_le_mul_right sz hi
  have hroom := h.room
  rw [Nat.add_mul, Nat.one_mul] at hle
  omega

theorem slot_eq (h : VecHolds lo hi s d bs b) {i : Nat} (hi : i ≤ s.vec.capacity) :
    s.vec.slot sz i = b.payload + i * sz := by
  have hle : i * sz ≤ s.vec.capacity * sz := Nat.mul_le_mul_right sz hi
  have hroom := h.room
  have hbound := h.layout.bound h.mem
  have hpay := Block.payload_eq b
  rw [Vec.slot, ← h.data, word_of_lt (by omega), add32_of_lt (by omega)]

theorem ok (h : VecHolds lo hi s d bs b) : VecOk s := by
  have hsize : payloadSize s.heap.mem s.vec.data = b.size := by
    rw [← h.data]
    exact payloadSize_eq h.layout h.mem
  refine ⟨h.length_le, hsize.symm ▸ h.room, ?_⟩
  intro i hi
  have hi' : i < s.vec.capacity := Nat.lt_of_lt_of_le hi h.length_le
  have hin := h.mul_le hi'
  have hdata := h.data
  rw [h.slot_eq (by omega), hsize]
  omega

/-- The capacity is a number of 32 bits, with room for eight more. -/
theorem capacity_lt (h : VecHolds lo hi s d bs b) (hsz : 0 < sz) : s.vec.capacity + 16 < 4294967296 := by
  have hle : s.vec.capacity * 1 ≤ s.vec.capacity * sz := Nat.mul_le_mul_left _ hsz
  have hroom := h.room
  have hbound := h.layout.bound h.mem
  omega

/-! ## One operation -/

/-- **Pushing below the capacity.** -/
theorem store (h : VecHolds lo hi s d bs b) (hsz : 0 < sz) (hroom : s.vec.length < s.vec.capacity)
    (value : Vector UInt8 sz) :
    VecHolds lo hi
      { s with
        vec := { s.vec with length := add32 s.vec.length 1 }
        heap := { s.heap with
          mem := storeBytes s.heap.mem (s.vec.slot sz s.vec.length) value.toList } }
      { d with items := d.items ++ [value] } bs b := by
  have hcap := h.capacity_lt hsz
  have hslot := h.slot_eq (i := s.vec.length) (by omega)
  have hin := h.mul_le hroom
  have hbound := h.layout.bound h.mem
  have hpay := Block.payload_eq b
  have hlen : value.toList.length = sz := by simp
  have hframe : ∀ x, x < s.vec.slot sz s.vec.length ∨ s.vec.slot sz s.vec.length + sz ≤ x →
      storeBytes s.heap.mem (s.vec.slot sz s.vec.length) value.toList x = s.heap.mem x := fun x hx =>
    storeBytes_frame (by omega) (by omega)
  have hnext : add32 s.vec.length 1 = s.vec.length + 1 := add32_of_lt (by omega)
  refine ⟨h.kheap, h.layout.congr fun x hx => hframe x ?_, h.mem, h.used, h.data, ?_, h.room, ?_, ?_,
    h.popped⟩
  · -- the new element lies in the payload, where no header is
    refine Classical.byContradiction fun hin' => h.layout.not_inHeaders h.mem ?_ ?_ hx
    · omega
    · rw [Block.stop_eq]
      omega
  · show add32 s.vec.length 1 ≤ s.vec.capacity
    omega
  · show (d.items ++ [value]).length = add32 s.vec.length 1
    rw [List.length_append, h.length, hnext]
    rfl
  · intro i hi
    show loadValue sz (storeBytes s.heap.mem (s.vec.slot sz s.vec.length) value.toList)
      (s.vec.slot sz i) = (d.items ++ [value])[i]
    by_cases hlast : i = s.vec.length
    · subst hlast
      rw [loadValue_storeBytes (by omega)]
      simp [← h.length]
    · have hi' : i < d.items.length := by
        have hlen := h.length
        rw [List.length_append, List.length_singleton] at hi
        omega
      have hlt : i < s.vec.length := by rw [← h.length]; exact hi'
      have hbelow : (i + 1) * sz ≤ s.vec.length * sz := Nat.mul_le_mul_right sz hlt
      rw [Nat.add_mul, Nat.one_mul] at hbelow
      rw [List.getElem_append_left hi', ← h.items i hi']
      refine loadValue_congr fun j hj => hframe _ ?_
      rw [h.slot_eq (by omega), hslot, add32_of_lt (by omega)]
      omega

/-- **Popping.** -/
theorem pop (h : VecHolds lo hi s d bs b) (hsz : 0 < sz) (hd : d.step .popBack = .ok e) :
    ∃ t, s.step .popBack = .ok t ∧ VecHolds lo hi t e bs b := by
  have hcap := h.capacity_lt hsz
  have hle := h.length_le
  have hlen := h.length
  rcases List.eq_nil_or_concat d.items with hnil | ⟨items, value, hitems⟩
  · rw [Stack.step, hnil] at hd
    cases hd
  rw [List.concat_eq_append] at hitems
  rw [Stack.step, hitems, List.getLast?_concat, List.dropLast_concat] at hd
  cases hd
  rw [hitems, List.length_append, List.length_singleton] at hlen
  have hprev : sub32 s.vec.length 1 = items.length := by rw [sub32_of_le (by omega) (by omega)]; omega
  have hlast := h.items items.length (by simp [hitems])
  simp only [hitems, List.getElem_concat_length] at hlast
  have hpopped : s.vec.popBack sz s.heap = (value, { s.vec with length := items.length }) := by
    rw [Vec.popBack, hprev]
    exact Prod.ext hlast rfl
  have hholds : VecHolds lo hi
      { s with vec := { s.vec with length := items.length }, popped := s.popped ++ [value] }
      ⟨items, d.popped ++ [value]⟩ bs b := by
    refine ⟨h.kheap, h.layout, h.mem, h.used, h.data, ?_, h.room, rfl, ?_, ?_⟩
    · show items.length ≤ s.vec.capacity
      omega
    · intro i hi
      have hi' : i < d.items.length := by rw [hitems, List.length_append]; exact Nat.lt_add_right _ hi
      have hitem := h.items i hi'
      simp only [hitems] at hitem
      rw [List.getElem_append_left hi] at hitem
      exact hitem
    · show s.popped ++ [value] = d.popped ++ [value]
      rw [h.popped]
  refine ⟨_, ?_, hholds⟩
  rw [VecRun.step, hpopped]
  rfl

/-- **Growing**: the block behind the new `data` begins with the old bytes, and has the room that was
    computed before. -/
theorem grow (h : VecHolds lo hi s d bs b) (hsz : 0 < sz) (hrun : s.vec.grow sz s.heap = .ok (v', k')) :
    v'.length = s.vec.length ∧ v'.capacity = s.vec.length + 8 ∧
      ∃ heap bs' b', s.heap.kheap = some heap ∧ k'.kheap = some heap ∧ heap.firstBlock = lo ∧
        Layout k'.mem lo hi bs' ∧ b' ∈ bs' ∧ b'.used = true ∧ b'.payload = v'.data ∧
        reallocRoom s.heap heap s.vec.data (add32 s.vec.length (word (8 * sz))) = .ok b'.size ∧
        ∀ i < b.size, k'.mem (v'.data + i) = s.heap.mem (b.payload + i) := by
  have hcap := h.capacity_lt hsz
  have hle := h.length_le
  obtain ⟨heap, hk, hfirst⟩ := h.kheap
  obtain ⟨⟨q, k₁⟩, hrealloc, hrun⟩ := bind_eq_ok.mp hrun
  obtain ⟨rfl, rfl⟩ := Prod.mk.inj (Except.ok.inj hrun)
  rw [← h.data] at hrealloc
  obtain ⟨bs', hk', hlay', b', hb', hu', hq, hroom, hbytes⟩ :=
    krealloc_room hk hfirst h.layout h.mem h.used hrealloc
  rw [h.data] at hroom
  exact ⟨rfl, add32_of_lt (by omega), heap, bs', b', hk, hk', hfirst, hlay', hb', hu', hq, hroom, hbytes⟩

/-- Enough room after growing. -/
theorem grown (h : VecHolds lo hi s d bs b) (hsz : 0 < sz) (hrun : s.vec.grow sz s.heap = .ok (v', k'))
    (hroom : ∀ heap r, s.heap.kheap = some heap →
      reallocRoom s.heap heap s.vec.data (add32 s.vec.length (word (8 * sz))) = .ok r →
      (s.vec.length + 8) * sz ≤ r) :
    ∃ bs' b', VecHolds lo hi ⟨v', k', s.popped⟩ d bs' b' := by
  obtain ⟨hlen, hcap, heap, bs', b', hk, hk', hfirst, hlay', hb', hu', hdata, hr, hbytes⟩ := h.grow hsz hrun
  have hfits := hroom heap b'.size hk hr
  have hbound := hlay'.bound hb'
  have hbbound := h.layout.bound h.mem
  have hpay := Block.payload_eq b'
  have hbpay := Block.payload_eq b
  have hle := h.length_le
  refine ⟨bs', b', ⟨heap, hk', hfirst⟩, hlay', hb', hu', hdata, ?_, ?_, ?_, ?_, h.popped⟩
  · show v'.length ≤ v'.capacity
    omega
  · show v'.capacity * sz ≤ b'.size
    rw [hcap]
    exact hfits
  · show d.items.length = v'.length
    rw [h.length, hlen]
  · -- the element is within the bytes that were there before
    intro i hi
    rw [← h.items i hi]
    rw [h.length] at hi
    have hold := h.mul_le (i := i) (by omega)
    have hnew : (i + 1) * sz ≤ (s.vec.length + 8) * sz := Nat.mul_le_mul_right sz (by omega)
    rw [Nat.add_mul, Nat.one_mul] at hnew
    apply loadValue_congr
    intro j hj
    have hslot : v'.slot sz i = v'.data + i * sz := by
      rw [Vec.slot, word_of_lt (by omega), add32_of_lt (by omega)]
    show k'.mem (add32 (v'.slot sz i) j) = s.heap.mem (add32 (s.vec.slot sz i) j)
    rw [hslot, h.slot_eq (by omega), add32_of_lt (by omega), add32_of_lt (by omega), Nat.add_assoc,
      Nat.add_assoc]
    exact hbytes _ (by omega)

/-- **A growth without room breaks the bound.** -/
theorem step_short (h : VecHolds lo hi s d bs b) (hsz : 0 < sz) {o : VecOp sz} (hshort : ¬ RoomToGrow s o)
    (hrun : s.step o = .ok t) : ¬ VecOk t := by
  cases o with
  | popBack => exact absurd trivial hshort
  | pushBack value =>
      simp only [RoomToGrow, Classical.not_imp, not_forall] at hshort
      obtain ⟨hfull, heap, r, hk, hr, hlt⟩ := hshort
      obtain ⟨⟨v', k'⟩, hpush, hrun⟩ := bind_eq_ok.mp hrun
      cases hrun
      rw [Vec.pushBack, if_pos hfull] at hpush
      obtain ⟨⟨v₁, k₁⟩, hgrow, hpush⟩ := bind_eq_ok.mp hpush
      cases hpush
      obtain ⟨hlen, hcap, heap', bs', b', hk', -, -, hlay', hb', -, hdata, hr', -⟩ := h.grow hsz hgrow
      obtain rfl : heap' = heap := Option.some.inj (hk'.symm.trans hk)
      obtain rfl : b'.size = r := Except.ok.inj (hr'.symm.trans hr)
      intro hok
      have hroom : v₁.capacity * sz ≤
          payloadSize (storeBytes k₁.mem (v₁.slot sz v₁.length) value.toList) v₁.data := hok.room
      have hbound := hlay'.bound hb'
      have hbbound := h.layout.bound h.mem
      have hpay := Block.payload_eq b'
      have hold : s.vec.length * sz ≤ b.size := (Nat.mul_le_mul_right sz h.length_le).trans h.room
      rw [hcap, Nat.add_mul] at hroom
      rw [Nat.add_mul] at hlt
      by_cases hwrap : s.vec.length * sz + sz + 16 ≤ 4294967296
      · -- the new element does not reach the header in front of `data`, even around the address space
        have hsize :
            payloadSize (storeBytes k₁.mem (v₁.slot sz v₁.length) value.toList) v₁.data = b'.size := by
          rw [Vec.slot, hlen, ← hdata, word_of_lt (by omega),
            payloadSize_storeBytes hlay' hb' (by rw [Vector.length_toList]; exact hwrap),
            payloadSize_eq hlay' hb']
        omega
      · -- the bytes recorded are more than a size can be
        have hlt32 :
            payloadSize (storeBytes k₁.mem (v₁.slot sz v₁.length) value.toList) v₁.data < 4294967296 :=
          load32_lt _ _
        have hsmall : sz = 1 ∨ sz = 2 := by omega
        rcases hsmall with rfl | rfl <;> omega

/-- **One operation** that does not grow the `vec` short. -/
theorem step (h : VecHolds lo hi s d bs b) (hsz : 0 < sz) {o : VecOp sz} (hroom : RoomToGrow s o)
    (hrun : s.step o = .ok t) (hd : d.step o = .ok e) : ∃ bs' b', VecHolds lo hi t e bs' b' := by
  cases o with
  | popBack =>
      obtain ⟨t', ht', hholds⟩ := h.pop hsz hd
      obtain rfl : t' = t := Except.ok.inj (ht'.symm.trans hrun)
      exact ⟨bs, b, hholds⟩
  | pushBack value =>
      cases hd
      obtain ⟨⟨v', k'⟩, hpush, hrun⟩ := bind_eq_ok.mp hrun
      cases hrun
      rw [Vec.pushBack] at hpush
      by_cases hfull : s.vec.length ≥ s.vec.capacity
      · rw [if_pos hfull] at hpush
        obtain ⟨⟨v₁, k₁⟩, hgrow, hpush⟩ := bind_eq_ok.mp hpush
        cases hpush
        obtain ⟨hlen, hcap, -⟩ := h.grow hsz hgrow
        obtain ⟨bs', b', hholds⟩ := h.grown hsz hgrow (hroom hfull)
        exact ⟨bs', b', hholds.store hsz (by show v₁.length < v₁.capacity; omega) value⟩
      · rw [if_neg hfull] at hpush
        cases hpush
        exact ⟨bs, b, h.store hsz (by omega) value⟩

end VecHolds

/-! ## Runs -/

/-- **A new `vec`** has a block with the bytes that were asked for. -/
theorem construct_spec (h : WellFormedHeap k lo hi bs) {cap : Nat}
    (hrun : Vec.construct sz k cap = .ok (v, k')) :
    v.length = 0 ∧ v.capacity = cap ∧ ∃ bs' b, (∃ heap, k'.kheap = some heap ∧ heap.firstBlock = lo) ∧
      Layout k'.mem lo hi bs' ∧ b ∈ bs' ∧ b.used = true ∧ b.payload = v.data ∧ word (cap * sz) ≤ b.size := by
  obtain ⟨heap, hk, hfirst⟩ := h.kheap
  obtain ⟨⟨p, k₁⟩, hmalloc, hrun⟩ := bind_eq_ok.mp hrun
  obtain ⟨rfl, rfl⟩ := Prod.mk.inj (Except.ok.inj hrun)
  obtain ⟨xs, c, ys, -, -, hn, rfl, hk₁, hlay, -⟩ := kmalloc_spec hk hfirst h.layout hmalloc
  obtain ⟨rest, hplace, -⟩ := place_eq c (word (cap * sz))
  exact ⟨rfl, rfl, _, ⟨c.addr, placedSize c (word (cap * sz)), true⟩, ⟨heap, hk₁, hfirst⟩, hlay,
    by rw [hplace]; simp, rfl, rfl, le_placedSize hn⟩

/-- **A `vec` keeps to its block and returns what was pushed iff** the bytes of the initial capacity are a
    number of 32 bits and no growth falls short of the capacity it records. -/
theorem vec_inBlock_iff (h : WellFormedHeap k lo hi bs) (hsz : 0 < sz) {cap : UInt32}
    (hnew : Vec.construct sz k cap.toNat = .ok (v, k')) {ops : List (VecOp sz)}
    (hrun : VecRun.run v k' ops = .ok s) (hd : Stack.run ops = .ok d) :
    (∀ pre t e, pre <+: ops → VecRun.run v k' pre = .ok t → Stack.run pre = .ok e →
        VecOk t ∧ t.popped = e.popped) ↔
      cap.toNat * sz < 4294967296 ∧
        ∀ pre o t, pre ++ [o] <+: ops → VecRun.run v k' pre = .ok t → RoomToGrow t o := by
  obtain ⟨hlen, hcap, bs', b, hkheap, hlay, hb, hu, hdata, hsize⟩ := construct_spec h hnew
  by_cases hfits : cap.toNat * sz < 4294967296
  · rw [and_iff_right hfits]
    rw [word_of_lt hfits] at hsize
    have hholds : VecHolds lo hi (⟨v, k', []⟩ : VecRun sz) ⟨[], []⟩ bs' b :=
      ⟨hkheap, hlay, hb, hu, hdata, by show v.length ≤ v.capacity; omega,
        by show v.capacity * sz ≤ b.size; rw [hcap]; exact hsize, hlen.symm, by simp, rfl⟩
    have hd' : Lib.run Stack.step ⟨[], []⟩ ops = .ok d := hd
    refine run_simulates_iff (R := fun s d => ∃ bs b, VecHolds lo hi s d bs b)
      (P := fun s d => VecOk s ∧ s.popped = d.popped) ?_ ?_ ?_ ⟨bs', b, hholds⟩ hrun hd'
    · rintro s d ⟨_, _, h⟩
      exact ⟨h.ok, h.popped⟩
    · rintro s d o t e ⟨_, _, h⟩ hgood hstep hstep'
      exact h.step hsz hgood hstep hstep'
    · rintro s d o t e ⟨_, _, h⟩ hbad hstep - hok
      exact h.step_short hsz hbad hstep hok.1
  · -- the `vec` has never had the capacity it records
    refine iff_of_false ?_ fun hgood => hfits hgood.1
    intro hall
    have hroom : v.capacity * sz ≤ payloadSize k'.mem v.data :=
      (hall [] _ _ List.nil_prefix rfl rfl).1.room
    have hlt : payloadSize k'.mem v.data < 4294967296 := load32_lt _ _
    rw [hcap] at hroom
    omega

/-- **A growth with room**: in a heap where the rest of the free block is too small to be split off, the block
    that `krealloc` makes for 33 bytes has 50, and the nine elements of the capacity fit. -/
theorem vec_inBlock_grown :
    ∃ v k' s, Vec.construct 4 (initKernalHeap ⟨fun _ => 0, none, 0⟩ 66 64) 1 = .ok (v, k') ∧
      VecRun.run v k' [.pushBack #v[1, 0, 0, 0], .pushBack #v[2, 0, 0, 0], .popBack] = .ok s ∧
      VecOk s ∧ s.popped = [#v[2, 0, 0, 0]] := by
  have hok : ((Vec.construct 4 (initKernalHeap ⟨fun _ => 0, none, 0⟩ 66 64) 1).toOption.bind fun r =>
      (VecRun.step (⟨r.1, r.2, []⟩ : VecRun 4) (.pushBack #v[1, 0, 0, 0])).toOption.bind fun t =>
        (Lib.run VecRun.step t [.pushBack #v[2, 0, 0, 0], .popBack]).toOption.map fun _ =>
          (r.1.capacity, r.1.length, t.heap.kheap,
            (reallocRoom t.heap ⟨64, 66⟩ t.vec.data (add32 t.vec.length (word (8 * 4)))).toOption,
            t.vec.length)) = some (1, 0, some ⟨64, 66⟩, some 50, 1) := by
    decide +kernel
  obtain ⟨⟨v, k'⟩, hnew, hok⟩ := Option.bind_eq_some_iff.mp hok
  obtain ⟨t, ht, hok⟩ := Option.bind_eq_some_iff.mp hok
  obtain ⟨s, hs, hsizes⟩ := Option.map_eq_some_iff.mp hok
  simp only [Prod.mk.injEq] at hsizes
  obtain ⟨hcap, hlen, hheap, hroom, hlen'⟩ := hsizes
  have ht := toOption_eq_some.mp ht
  have hnew' : Vec.construct 4 (initKernalHeap ⟨fun _ => 0, none, 0⟩ 66 64) (1 : UInt32).toNat = .ok (v, k') :=
    toOption_eq_some.mp hnew
  have hrun : VecRun.run v k' [.pushBack #v[1, 0, 0, 0], .pushBack #v[2, 0, 0, 0], .popBack] = .ok s :=
    run_cons.mpr ⟨t, ht, toOption_eq_some.mp hs⟩
  obtain ⟨u, hu, hpop⟩ := run_cons.mp (toOption_eq_some.mp hs)
  obtain ⟨_, hpop, -⟩ := run_cons.mp hpop
  have hsteps : ∀ pre o t, pre ++ [o] <+: [.pushBack #v[1, 0, 0, 0], .pushBack #v[2, 0, 0, 0], .popBack] →
      VecRun.run v k' pre = .ok t → RoomToGrow t o := by
    unfold VecRun.run
    rw [forall_steps_cons ht, forall_steps_cons hu, forall_steps_cons hpop]
    refine ⟨?_, ?_, trivial, by simp⟩
    · intro hfull
      change v.capacity ≤ v.length at hfull
      omega
    · intro _ heap r hk hr
      obtain rfl := Option.some.inj (hheap.symm.trans hk)
      obtain rfl : 50 = r := Except.ok.inj ((toOption_eq_some.mp hroom).symm.trans hr)
      omega
  obtain ⟨hvec, hpopped⟩ := (vec_inBlock_iff (d := ⟨[#v[1, 0, 0, 0]], [#v[2, 0, 0, 0]]⟩)
    (wellFormedHeap_init _ (by decide) (by decide)) (by decide) hnew' hrun rfl).mpr
    ⟨by decide, hsteps⟩ _ s _ List.prefix_rfl hrun rfl
  exact ⟨v, k', s, hnew', hrun, hvec, hpopped⟩

/-- **Two four-byte elements in a `vec` made for one**: the second is pushed after `krealloc` for 33 bytes,
    and the capacity recorded is 9 elements, 36 bytes. -/
theorem vec_capacity_past_block :
    ∃ v k' s, Vec.construct 4 (initKernalHeap ⟨fun _ => 0, none, 0⟩ 200 64) 1 = .ok (v, k') ∧
      VecRun.run v k' [.pushBack #v[1, 0, 0, 0], .pushBack #v[2, 0, 0, 0]] = .ok s ∧
      s.vec.capacity = 9 ∧ payloadSize s.heap.mem s.vec.data = 33 ∧ ¬ VecOk s := by
  have hok : ((Vec.construct 4 (initKernalHeap ⟨fun _ => 0, none, 0⟩ 200 64) 1).toOption.bind fun r =>
      (VecRun.run r.1 r.2 [.pushBack #v[1, 0, 0, 0], .pushBack #v[2, 0, 0, 0]]).toOption).map
        (fun s => (s.vec.capacity, payloadSize s.heap.mem s.vec.data)) = some (9, 33) := by
    decide +kernel
  obtain ⟨s, hs, hsizes⟩ := Option.map_eq_some_iff.mp hok
  obtain ⟨⟨v, k'⟩, hnew, hrun⟩ := Option.bind_eq_some_iff.mp hs
  obtain ⟨hcap, hsize⟩ := Prod.mk.inj hsizes
  refine ⟨v, k', s, toOption_eq_some.mp hnew, toOption_eq_some.mp hrun, hcap, hsize, ?_⟩
  intro h
  have hroom := h.room
  rw [hcap, hsize] at hroom
  omega

/-! ## Iteration -/

/-- The elements of a `vec`, as `at` returns them. -/
def Vec.elements (v : Vec) (sz : Nat) (k : KernelHeap) : List (Vector UInt8 sz) :=
  (List.range v.length).map fun i => v.elementAt sz k i

/-- A range-for visits exactly the elements, in order, and ends. -/
def Vec.Iterates (v : Vec) (sz : Nat) (k : KernelHeap) : Prop :=
  ∃ fuel, v.rangeFor sz k fuel = .ok (v.elements sz k)

theorem add32_next (p n : Nat) : add32 (add32 p sz) (word (n * sz)) = add32 p (word ((n + 1) * sz)) := by
  rw [Nat.add_mul, Nat.one_mul]
  unfold add32 word
  omega

theorem add32_zero_steps {p : Nat} (hp : p < 4294967296) : add32 p (word (0 * sz)) = p := by
  rw [Nat.zero_mul]
  exact add32_of_lt hp

/-- **Where the loop ends**: at the first iterator that is the last one. -/
theorem visit_length {last it : VectorIterator} {fuel : Nat} {l : List (Vector UInt8 sz)}
    (hit : it.p < 4294967296) (hvisit : Vec.visit sz k last fuel it = .ok l) :
    add32 it.p (word (l.length * sz)) = last.p ∧
      ∀ n < l.length, add32 it.p (word (n * sz)) ≠ last.p := by
  induction fuel generalizing it l with
  | zero => cases hvisit
  | succ fuel ih =>
      rw [Vec.visit] at hvisit
      by_cases hlast : it.p ≠ last.p
      · rw [if_pos hlast] at hvisit
        obtain ⟨rest, hrest, hvisit⟩ := bind_eq_ok.mp hvisit
        cases hvisit
        obtain ⟨hend, hbefore⟩ := ih (Nat.mod_lt _ (by decide)) hrest
        refine ⟨(add32_next it.p rest.length).symm.trans hend, ?_⟩
        intro n hn
        cases n with
        | zero => rwa [add32_zero_steps hit]
        | succ n =>
            rw [← add32_next]
            exact hbefore n (Nat.lt_of_succ_lt_succ hn)
      · rw [if_neg hlast] at hvisit
        cases hvisit
        exact ⟨(add32_zero_steps hit).trans (not_not.mp hlast), fun n hn => absurd hn (Nat.not_lt_zero n)⟩

/-- **What the loop visits** on its way to the last iterator. -/
theorem visit_until {last it : VectorIterator} {n : Nat} (hit : it.p < 4294967296)
    (hend : add32 it.p (word (n * sz)) = last.p)
    (hbefore : ∀ i < n, add32 it.p (word (i * sz)) ≠ last.p) :
    Vec.visit sz k last (n + 1) it =
      .ok ((List.range n).map fun i => loadValue sz k.mem (add32 it.p (word (i * sz)))) := by
  induction n generalizing it with
  | zero =>
      rw [add32_zero_steps hit] at hend
      rw [Vec.visit, if_neg (not_not_intro hend)]
      rfl
  | succ n ih =>
      have hhere : it.p ≠ last.p := by
        have h := hbefore 0 (Nat.succ_pos n)
        rwa [add32_zero_steps hit] at h
      have hnext : (it.next sz).p < 4294967296 := Nat.mod_lt _ (by decide)
      have hrest := ih hnext ((add32_next it.p n).trans hend) <| by
        intro i hi
        rw [VectorIterator.next, add32_next]
        exact hbefore (i + 1) (Nat.succ_lt_succ hi)
      rw [Vec.visit, if_pos hhere, hrest, List.range_succ_eq_map, List.map_cons, List.map_map,
        add32_zero_steps hit]
      simp only [VectorIterator.next, add32_next]
      rfl

/-- The place `n` steps from the beginning. -/
theorem add32_begin (v : Vec) (n : Nat) :
    add32 (v.beginIterator sz).p (word (n * sz)) = v.slot sz n := by
  show add32 (add32 v.data (word (0 * sz))) (word (n * sz)) = add32 v.data (word (n * sz))
  rw [Nat.zero_mul]
  unfold add32 word
  omega

theorem begin_lt (v : Vec) : (v.beginIterator sz).p < 4294967296 := Nat.mod_lt _ (by decide)

/-- **Where a range-for over a `vec` ends**: after the least number of steps that leads to the last element.
    For an empty `vec` that is the place in front of the first. -/
theorem rangeFor_length {fuel : Nat} {l : List (Vector UInt8 sz)} (hvisit : v.rangeFor sz k fuel = .ok l) :
    v.slot sz l.length = v.slot sz (sub32 v.length 1) ∧
      ∀ n < l.length, v.slot sz n ≠ v.slot sz (sub32 v.length 1) := by
  obtain ⟨hend, hbefore⟩ := visit_length (begin_lt v) hvisit
  rw [add32_begin] at hend
  refine ⟨hend, ?_⟩
  intro n hn
  rw [← add32_begin]
  exact hbefore n hn

/-- From `data`, the place in front of it is only reached around all of memory. -/
theorem le_of_slot_eq (hsz : 0 < sz) {n : Nat} (h : v.slot sz n = v.slot sz (sub32 0 1)) :
    4294967296 ≤ (n + 1) * sz := by
  have hlast : sub32 0 1 * sz = 4294967295 * sz := rfl
  revert h
  unfold Vec.slot add32 word
  rw [hlast, Nat.add_mul, Nat.one_mul]
  generalize n * sz = bytes
  omega

/-- **No range-for over a `vec` is right.** It ends one element early, and over an empty `vec` it does not
    end where it begins. -/
theorem vec_rangeFor_wrong (hsz : 0 < sz) (hsz' : sz < 4294967296) (v : Vec) (k : KernelHeap) :
    ¬ v.Iterates sz k := by
  rintro ⟨fuel, hvisit⟩
  obtain ⟨hend, hbefore⟩ := rangeFor_length hvisit
  have hlen : (v.elements sz k).length = v.length := by simp [Vec.elements]
  rw [hlen] at hend hbefore
  rcases Nat.eq_zero_or_pos v.length with hempty | hsome
  · rw [hempty] at hend
    have hall := le_of_slot_eq hsz hend
    omega
  · have hlast : sub32 v.length 1 < v.length := by
      unfold sub32
      omega
    exact hbefore _ hlast rfl

/-- A `vec` with one element of four bytes. -/
theorem vec_rangeFor_wrong_one : ¬ (⟨1, 8, 0xd0000010⟩ : Vec).Iterates 4 ⟨fun _ => 0, none, 0⟩ :=
  vec_rangeFor_wrong (by decide) (by decide) _ _

/-- **One element is pushed, and a range-for goes through none.** -/
theorem vec_rangeFor_skips :
    ∃ v k' s, Vec.construct 4 (initKernalHeap ⟨fun _ => 0, none, 0⟩ 200 64) 2 = .ok (v, k') ∧
      VecRun.run v k' [.pushBack #v[1, 2, 3, 4]] = .ok s ∧ s.vec.elements 4 s.heap = [#v[1, 2, 3, 4]] ∧
      s.vec.rangeFor 4 s.heap 1 = .ok [] ∧ ¬ s.vec.Iterates 4 s.heap := by
  have hok : ((Vec.construct 4 (initKernalHeap ⟨fun _ => 0, none, 0⟩ 200 64) 2).toOption.bind fun r =>
      (VecRun.run r.1 r.2 [.pushBack #v[1, 2, 3, 4]]).toOption).map
        (fun s => (s.vec.elements 4 s.heap, (s.vec.rangeFor 4 s.heap 1).toOption)) =
      some ([#v[1, 2, 3, 4]], some []) := by
    decide +kernel
  obtain ⟨s, hs, hvisits⟩ := Option.map_eq_some_iff.mp hok
  obtain ⟨⟨v, k'⟩, hnew, hrun⟩ := Option.bind_eq_some_iff.mp hs
  obtain ⟨helements, hnone⟩ := Prod.mk.inj hvisits
  refine ⟨v, k', s, toOption_eq_some.mp hnew, toOption_eq_some.mp hrun, helements,
    toOption_eq_some.mp hnone, ?_⟩
  rintro ⟨fuel, hvisit⟩
  rw [helements] at hvisit
  -- the loop that ended at once has ended where this one did not
  obtain ⟨hend, -⟩ := rangeFor_length (toOption_eq_some.mp hnone)
  exact (rangeFor_length hvisit).2 0 (by decide) hend

/-- **What a range-for over an empty `vec` visits**: all of memory, if it ends at all. -/
theorem rangeFor_empty (hsz : 0 < sz) {fuel : Nat} {l : List (Vector UInt8 sz)} (hempty : v.length = 0)
    (hvisit : v.rangeFor sz k fuel = .ok l) : 4294967296 ≤ (l.length + 1) * sz := by
  obtain ⟨hend, -⟩ := rangeFor_length hvisit
  rw [hempty] at hend
  exact le_of_slot_eq hsz hend

/-- **What a range-for over a `vec` that holds its elements visits**: all of them but the last. -/
theorem VecHolds.rangeFor (h : VecHolds lo hi s d bs b) (hsz : 0 < sz) (hsome : 0 < s.vec.length) :
    ∃ fuel, s.vec.rangeFor sz s.heap fuel = .ok d.items.dropLast := by
  have hcap := h.capacity_lt hsz
  have hle := h.length_le
  have hlen := h.length
  have hlast : sub32 s.vec.length 1 = s.vec.length - 1 := sub32_of_le hsome (by omega)
  have hslot : ∀ i < s.vec.length - 1, s.vec.slot sz i ≠ s.vec.slot sz (s.vec.length - 1) := by
    intro i hi
    rw [h.slot_eq (by omega), h.slot_eq (by omega)]
    have := Nat.mul_lt_mul_of_pos_right hi hsz
    omega
  refine ⟨s.vec.length - 1 + 1, ?_⟩
  unfold Vec.rangeFor
  rw [visit_until (begin_lt s.vec) (n := s.vec.length - 1)]
  · refine congrArg Except.ok (List.ext_getElem (by simp [hlen]) ?_)
    intro i hi hi'
    rw [List.getElem_map, List.getElem_range, add32_begin, List.getElem_dropLast]
    exact h.items i _
  · rw [add32_begin, Vec.endIterator, hlast]
  · intro i hi
    rw [add32_begin, Vec.endIterator, hlast]
    exact hslot i hi

end WeirdOs
