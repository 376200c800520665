import WeirdOs.Util.String
import WeirdOs.Heap.Correctness.Payload

/-!
# `Util.Correctness.String` — who owns which buffer

`StringInv`: every live string has a live buffer that is large enough, and no two have the same one. An
operation does one of five things to the buffers (`StringStep`): it creates one, gives a string another
one, resizes one, frees one, or shares one. All but the last keep the invariant.

Sharing is what the copy constructors do, and giving a string another buffer is what assignment does: the
old buffer is not freed. So the strings own their buffers and every buffer is accounted for iff the run has
no copy construction and no assignment (`strings_owned_iff`), as long as no length wraps around 32 bits.
-/

namespace WeirdOs

open Lib

variable {lo hi p q n r : Nat} {m m' m₁ : Mem} {s t : StringState} {o : StringOp} {a b : Nat}
  {h h' : HeapState} {bs : List Block}

/-! ## Writing inside a range -/

/-- The two memories agree outside the `n` bytes from `p` on. -/
def AgreeOutside (m m' : Mem) (p n : Nat) : Prop := ∀ x, x < p ∨ p + n ≤ x → m' x = m x

theorem AgreeOutside.refl (m : Mem) (p n : Nat) : AgreeOutside m m p n := fun _ _ => rfl

theorem AgreeOutside.store8 (hm : AgreeOutside m m' p n) {v : UInt8} (h1 : p ≤ q) (h2 : q < p + n) :
    AgreeOutside m (store8 m' q v) p n := by
  intro x hx
  rw [store8_out (by omega)]
  exact hm x hx

theorem AgreeOutside.memcpy (hm : AgreeOutside m m' p n) {src k : Nat} (h1 : p ≤ q) (h2 : q + k ≤ p + n)
    (hfits : p + n < 4294967296) : AgreeOutside m (memcpy m' q src k) p n := by
  intro x hx
  rw [memcpy_out (by omega) (by omega)]
  exact hm x hx

theorem AgreeOutside.storeBytes (hm : AgreeOutside m m' p n) {l : List UInt8} (h1 : p ≤ q)
    (h2 : q + l.length ≤ p + n) (hfits : p + n < 4294967296) :
    AgreeOutside m (storeBytes m' q l) p n := by
  intro x hx
  rw [storeBytes_frame (by omega) (by omega)]
  exact hm x hx

/-! ## The heap below -/

/-- A live buffer ends inside the address space. -/
theorem HeapInv.fits (hh : HeapInv lo hi h bs) (hp : h.live p = some r) : p + r < 4294967296 := by
  obtain ⟨b, hb, -, rfl, hr⟩ := hh.owned.sound p r hp
  have hbound := hh.layout.bound hb
  have hpay := Block.payload_eq b
  omega

/-- Two live buffers do not overlap. -/
theorem HeapInv.apart (hh : HeapInv lo hi h bs) {r' : Nat} (hp : h.live p = some r) (hq : h.live q = some r')
    (hne : p ≠ q) : p + r ≤ q ∨ q + r' ≤ p := by
  have hlp := hh.payloadsOk.large p r hp
  have hlq := hh.payloadsOk.large q r' hq
  rcases hh.payloadsOk.disjoint p q r r' hp hq hne with hapart | hapart
  · exact Or.inl (by omega)
  · exact Or.inr (by omega)

/-- The heap `h'` after a call and writes into the buffer `p` of `n` bytes that the call returned: what was
    live and is not `old` still is, with its bytes. -/
structure HandedOut (lo hi : Nat) (h h' : HeapState) (old : Option Nat) (p n : Nat) : Prop where
  inv : ∃ bs, HeapInv lo hi h' bs
  live : h'.live p = some n
  frame : ∀ q r, h.live q = some r → old ≠ some q → q ≠ p ∧ h'.live q = some r ∧
    ∀ i < r, h'.heap.mem (q + i) = h.heap.mem (q + i)

/-- Writing into the buffer. -/
theorem HandedOut.write {old : Option Nat} (hs : HandedOut lo hi h h' old p n)
    (hm : AgreeOutside h'.heap.mem m p n) :
    HandedOut lo hi h { h' with heap := { h'.heap with mem := m } } old p n := by
  obtain ⟨bs, hinv⟩ := hs.inv
  refine ⟨⟨bs, hinv.setMem hs.live hm⟩, hs.live, ?_⟩
  intro q r hq hold
  obtain ⟨hne, hlive, hbytes⟩ := hs.frame q r hq hold
  refine ⟨hne, hlive, fun i hi => (hm (q + i) ?_).trans (hbytes i hi)⟩
  rcases hinv.apart hlive hs.live hne with hapart | hapart <;> omega

theorem handedOut_malloc (hh : HeapInv lo hi h bs) (hn : n < 4294967296) (hrun : h.malloc n = .ok (p, h')) :
    HandedOut lo hi h h' none p n := by
  obtain ⟨hinv, hfresh, hlive, hframe⟩ := hh.malloc hn hrun
  refine ⟨hinv, hlive, fun q r hq _ => ⟨?_, (hframe q r hq).1, fun i hi => (hframe q r hq).2 i ?_⟩⟩
  · rintro rfl
    rw [hfresh] at hq
    cases hq
  · exact Nat.lt_of_lt_of_le hi (hh.payloadsOk.large q r hq)

theorem handedOut_realloc (hh : HeapInv lo hi h bs) (hn : n < 4294967296) (hp : h.live p = some r)
    (hrun : h.realloc p n = .ok (q, h')) : HandedOut lo hi h h' (some p) q n := by
  obtain ⟨hinv, hq, hlive, -, hframe⟩ := hh.realloc hp hn hrun
  refine ⟨hinv, ?_, ?_⟩
  · rw [hlive]
    exact Function.update_self ..
  · intro q' r' hq' hold
    have hne : q' ≠ p := fun heq => hold (by rw [heq])
    obtain ⟨hlive', hbytes⟩ := hframe q' r' hq' hne
    refine ⟨?_, hlive', fun i hi => hbytes i (Nat.lt_of_lt_of_le hi (hh.payloadsOk.large q' r' hq'))⟩
    rcases hq with rfl | hq
    · exact hne
    · rintro rfl
      rw [hq] at hq'
      cases hq'

/-! ## The invariant -/

/-- The buffer of `a` is live, and has room for its text and a NUL. -/
def StringState.HasBuffer (s : StringState) (a : Nat) : Prop :=
  ∃ r, s.heap.live (s.str a).data = some r ∧ (s.str a).length < r

/-- A length that a string with a buffer has, with the NUL, is a number of 32 bits. -/
theorem StringState.HasBuffer.fits (ha : s.HasBuffer a) (hs : ∃ bs, HeapInv lo hi s.heap bs) :
    (s.str a).data + (s.str a).length + 1 < 4294967296 := by
  obtain ⟨bs, hheap⟩ := hs
  obtain ⟨r, hr, hlen⟩ := ha
  have hfits := hheap.fits hr
  omega

/-- **The strings own their buffers.** -/
structure StringInv (lo hi : Nat) (s : StringState) : Prop where
  heap : ∃ bs, HeapInv lo hi s.heap bs
  owned : ∀ a ∈ s.live, ∃ r, s.heap.live (s.str a).data = some r ∧ (s.str a).length < r
  distinct : ∀ a ∈ s.live, ∀ b ∈ s.live, (s.str a).data = (s.str b).data → a = b

/-- A length that a live string has, with the NUL, is a number of 32 bits. -/
theorem StringInv.length_lt (hs : StringInv lo hi s) (ha : a ∈ s.live) :
    (s.str a).length + 1 < 4294967296 := by
  have hfits := StringState.HasBuffer.fits (hs.owned a ha) hs.heap
  omega

/-- The length that the result of an operation is to have. -/
def StringState.resultLength (s : StringState) : StringOp → Nat
  | .default _ | .destroy _    => 0
  | .ofCstr _ cstr             => cstr.bytes.length
  | .ofLen _ len               => len.toNat
  | .copy _ other              => (s.str other).length
  | .assign _ other            => (s.str other).length
  | .plusCstr _ x other        => (s.str x).length + other.bytes.length
  | .plus _ x y                => (s.str x).length + (s.str y).length
  | .plusAssignCstr a other    => (s.str a).length + other.bytes.length
  | .plusAssign a other        => (s.str a).length + (s.str other).length
  | .substr _ _ _ len          => len.toNat
  | .slice _ _ start stop      => sub32 stop.toNat start.toNat

/-- With its NUL, the result has a length of 32 bits. -/
def LengthFits (s : StringState) (o : StringOp) : Prop := s.resultLength o + 1 < 4294967296

/-- The variable `a` has a buffer of its own for `len` bytes and a NUL, which was handed out for it in
    exchange for `old`. -/
def Gives (lo hi : Nat) (s : StringState) (old : Option Nat) (a len : Nat) (t : StringState) : Prop :=
  ∃ p n, HandedOut lo hi s.heap t.heap old p n ∧ len < n ∧ t.str = Function.update s.str a ⟨p, len⟩

theorem Gives.str {old : Option Nat} {len : Nat} (hg : Gives lo hi s old a len t) :
    (t.str a).length = len ∧ (t.str a).data + len + 1 < 4294967296 := by
  obtain ⟨p, n, hgiven, hlen, hstr⟩ := hg
  obtain ⟨bs, hinv⟩ := hgiven.inv
  have hfits := hinv.fits hgiven.live
  rw [hstr, Function.update_self]
  exact ⟨rfl, by show p + len + 1 < 4294967296; omega⟩

/-- The new buffer is large enough. -/
theorem Gives.hasBuffer {old : Option Nat} {len : Nat} (hg : Gives lo hi s old a len t) : t.HasBuffer a := by
  obtain ⟨p, n, hgiven, hlen, hstr⟩ := hg
  unfold StringState.HasBuffer
  rw [hstr, Function.update_self]
  exact ⟨n, hgiven.live, hlen⟩

/-- Another string keeps its buffer, when that is not the one that was given in exchange, and the bytes of it
    up to its NUL. -/
theorem Gives.keeps {old : Option Nat} {len : Nat} (hg : Gives lo hi s old a len t) (hb : s.HasBuffer b)
    (hba : b ≠ a) (hold : old ≠ some (s.str b).data) :
    t.str b = s.str b ∧ (t.str b).data ≠ (t.str a).data ∧ t.HasBuffer b ∧
      ∀ i ≤ (s.str b).length,
        t.heap.heap.mem ((s.str b).data + i) = s.heap.heap.mem ((s.str b).data + i) := by
  obtain ⟨p, n, hgiven, -, hstr⟩ := hg
  obtain ⟨r, hr, hlen⟩ := hb
  obtain ⟨hne, hlive, hbytes⟩ := hgiven.frame _ r hr hold
  have hother : t.str b = s.str b := by rw [hstr, Function.update_of_ne hba]
  refine ⟨hother, ?_, ?_, fun i hi => hbytes i (by omega)⟩
  · rw [hother, hstr, Function.update_self]
    exact hne
  · unfold StringState.HasBuffer
    rw [hother]
    exact ⟨r, hlive, hlen⟩

/-- Writing the text and its NUL. -/
theorem Gives.modifyMem {old : Option Nat} {len : Nat} (hg : Gives lo hi s old a len t) {f : Mem → Mem}
    (hf : (t.str a).data + len + 1 < 4294967296 →
      AgreeOutside t.heap.heap.mem (f t.heap.heap.mem) (t.str a).data (len + 1)) :
    Gives lo hi s old a len (t.modifyMem f) := by
  have hf := hf hg.str.2
  obtain ⟨p, n, hgiven, hlen, hstr⟩ := hg
  rw [hstr, Function.update_self] at hf
  refine ⟨p, n, hgiven.write fun x hx => hf x ?_, hlen, hstr⟩
  show x < p ∨ p + (len + 1) ≤ x
  omega

/-! ## What an operation does to the buffers -/

/-- The variable `a` is constructed with a buffer of its own for `len` bytes and a NUL. -/
structure Created (lo hi : Nat) (s : StringState) (a len : Nat) (t : StringState) : Prop where
  gives : Gives lo hi s none a len t
  live : t.live = insert a s.live
  allocated : t.allocated = s.allocated ++ [(t.str a).data]
  freed : t.freed = s.freed

/-- The live variable `a` is given a buffer for `len` bytes and a NUL, and nothing is freed. -/
structure Replaced (lo hi : Nat) (s : StringState) (a len : Nat) (t : StringState) : Prop where
  gives : Gives lo hi s none a len t
  live : t.live = s.live
  allocated : t.allocated = s.allocated ++ [(t.str a).data]
  freed : t.freed = s.freed

/-- The live variable `a` is given a buffer for `len` bytes and a NUL in exchange for the one it had. -/
structure Resized (lo hi : Nat) (s : StringState) (a len : Nat) (t : StringState) : Prop where
  gives : Gives lo hi s (some (s.str a).data) a len t
  live : t.live = s.live
  record : ((t.str a).data = (s.str a).data ∧ t.allocated = s.allocated ∧ t.freed = s.freed) ∨
    (t.allocated = s.allocated ++ [(t.str a).data] ∧ t.freed = s.freed ++ [(s.str a).data])

/-- Copy construction. -/
def StringOp.IsCopy : StringOp → Prop
  | .copy _ _ => True
  | _         => False

/-- Assignment. -/
def StringOp.IsAssign : StringOp → Prop
  | .assign _ _ => True
  | _           => False

/-- **What one operation does**: to the heap, to the variables, to the records. -/
inductive StringStep (lo hi : Nat) (s : StringState) : StringOp → StringState → Prop where
  /-- A variable is constructed with a new buffer. -/
  | created {o : StringOp} {t : StringState} {a len : Nat} (notCopy : ¬ o.IsCopy) (notAssign : ¬ o.IsAssign)
      (new : a ∉ s.live) (created : Created lo hi s a len t) : StringStep lo hi s o t
  /-- A variable gets a new buffer, and the old one is forgotten. -/
  | assigned {t : StringState} {a b len : Nat} (mem : a ∈ s.live) (replaced : Replaced lo hi s a len t) :
      StringStep lo hi s (.assign a b) t
  /-- A variable gets its buffer back in another size, or a new one for it. -/
  | resized {o : StringOp} {t : StringState} {a len : Nat} (notCopy : ¬ o.IsCopy) (notAssign : ¬ o.IsAssign)
      (mem : a ∈ s.live) (resized : Resized lo hi s a len t) : StringStep lo hi s o t
  /-- A variable ends, and its buffer is freed. -/
  | destroyed {t : StringState} {a : Nat} (mem : a ∈ s.live) (inv : ∃ bs, HeapInv lo hi t.heap bs)
      (frame : ∀ q r, s.heap.live q = some r → q ≠ (s.str a).data → t.heap.live q = some r)
      (live : t.live = s.live.erase a) (str : t.str = s.str) (allocated : t.allocated = s.allocated)
      (freed : t.freed = s.freed ++ [(s.str a).data]) : StringStep lo hi s (.destroy a) t
  /-- A variable is constructed with the buffer of another one. -/
  | copied {a b : Nat} (new : a ∉ s.live) (mem : b ∈ s.live) :
      StringStep lo hi s (.copy a b) (s.construct a (s.str b))

theorem stringCheckFree_eq_ok {u : Unit} : s.checkFree a = .ok u ↔ a ∉ s.live := by
  unfold StringState.checkFree
  split <;> simp [*]

theorem stringCheckLive_eq_ok {u : Unit} : s.checkLive a = .ok u ↔ a ∈ s.live := by
  unfold StringState.checkLive
  split <;> simp [*]

theorem Created.modifyMem {len : Nat} (hc : Created lo hi s a len t) {f : Mem → Mem}
    (hf : (t.str a).data + len + 1 < 4294967296 →
      AgreeOutside t.heap.heap.mem (f t.heap.heap.mem) (t.str a).data (len + 1)) :
    Created lo hi s a len (t.modifyMem f) :=
  ⟨hc.gives.modifyMem hf, hc.live, hc.allocated, hc.freed⟩

/-- The other variables are what they were. -/
theorem Created.str_of_ne {len x : Nat} (hc : Created lo hi s a len t) (hx : x ≠ a) : t.str x = s.str x := by
  obtain ⟨p, n, -, -, hstr⟩ := hc.gives
  rw [hstr, Function.update_of_ne hx]

/-- A buffer from `kmalloc`, for the variable `a`. -/
theorem malloc_gives (hs : ∃ bs, HeapInv lo hi s.heap bs) {len : Nat} (hn : n < 4294967296) (hlen : len < n)
    {s₁ : StringState} (hrun : s.malloc n = .ok (p, s₁)) :
    s₁.live = s.live ∧ s₁.str = s.str ∧ s₁.allocated = s.allocated ++ [p] ∧ s₁.freed = s.freed ∧
      ∀ t : StringState, t.heap = s₁.heap → t.str = Function.update s.str a ⟨p, len⟩ →
        Gives lo hi s none a len t := by
  obtain ⟨bs, hheap⟩ := hs
  obtain ⟨⟨p', h₁⟩, hmalloc, hret⟩ := bind_eq_ok.mp hrun
  obtain ⟨rfl, rfl⟩ := Prod.mk.inj (Except.ok.inj hret)
  refine ⟨rfl, rfl, rfl, rfl, fun t hheap' hstr => ⟨p', n, ?_, hlen, hstr⟩⟩
  rw [hheap']
  exact handedOut_malloc hheap hn hmalloc

/-- A construction with a buffer from `kmalloc`. -/
theorem malloc_created (hs : ∃ bs, HeapInv lo hi s.heap bs) {len : Nat} (hn : n < 4294967296) (hlen : len < n)
    {s₁ : StringState} (hrun : s.malloc n = .ok (p, s₁)) :
    Created lo hi s a len (s₁.construct a ⟨p, len⟩) := by
  obtain ⟨hlive, hstr, halloc, hfreed, hgives⟩ := malloc_gives (a := a) hs hn hlen hrun
  refine ⟨hgives _ rfl ?_, ?_, ?_, hfreed⟩
  · show Function.update s₁.str a _ = _
    rw [hstr]
  · show insert a s₁.live = _
    rw [hlive]
  · show s₁.allocated = s.allocated ++ [(Function.update s₁.str a ⟨p, len⟩ a).data]
    rw [Function.update_self, halloc]

/-- The same, with bytes written to the buffer. -/
theorem malloc_written (hs : ∃ bs, HeapInv lo hi s.heap bs) {len : Nat} (hfits : len + 1 < 4294967296)
    {s₁ : StringState} (hrun : s.malloc (len + 1) = .ok (p, s₁)) {f : Mem → Mem}
    (hf : p + len + 1 < 4294967296 → AgreeOutside s₁.heap.heap.mem (f s₁.heap.heap.mem) p (len + 1)) :
    Created lo hi s a len ((s₁.construct a ⟨p, len⟩).modifyMem f) := by
  apply (malloc_created hs hfits (Nat.lt_succ_self _) hrun).modifyMem
  intro hend
  simp only [StringState.construct, Function.update_self] at hend ⊢
  exact hf hend

theorem default_created (hs : ∃ bs, HeapInv lo hi s.heap bs) (hrun : s.default a = .ok t) :
    Created lo hi s a 0 t := by
  obtain ⟨⟨p, s₁⟩, hmalloc, hret⟩ := bind_eq_ok.mp hrun
  cases hret
  exact malloc_created hs (by decide) (by decide) hmalloc

theorem ofCstr_created (hs : ∃ bs, HeapInv lo hi s.heap bs) {cstr : CText} (hrun : s.ofCstr a cstr = .ok t) :
    Created lo hi s a cstr.bytes.length t := by
  have hfits := cstr.fits
  obtain ⟨⟨p, s₁⟩, hmalloc, hret⟩ := bind_eq_ok.mp hrun
  cases hret
  rw [add32_of_lt hfits] at hmalloc
  apply malloc_written hs hfits hmalloc
  intro hend
  rw [add32_of_lt (by omega)]
  exact ((AgreeOutside.refl _ _ _).storeBytes (by omega) (by omega) (by omega)).store8 (by omega) (by omega)

theorem ofLen_created (hs : ∃ bs, HeapInv lo hi s.heap bs) {len : Nat} (hfits : len + 1 < 4294967296)
    (hrun : s.ofLen a len = .ok t) : Created lo hi s a len t := by
  obtain ⟨⟨p, s₁⟩, hmalloc, hret⟩ := bind_eq_ok.mp hrun
  cases hret
  rw [add32_of_lt hfits] at hmalloc
  apply malloc_written hs hfits hmalloc
  intro hend
  rw [add32_of_lt (by omega)]
  exact ((AgreeOutside.refl _ _ _).store8 (by omega) (by omega)).store8 (by omega) (by omega)

/-- Copying a part of another text into a result of `len` bytes. -/
theorem substr_created (hs : ∃ bs, HeapInv lo hi s.heap bs) {x first len : Nat} (hfits : len + 1 < 4294967296)
    (hrun : s.substr a x first len = .ok t) : Created lo hi s a len t := by
  obtain ⟨s₁, hlen, hret⟩ := bind_eq_ok.mp hrun
  cases hret
  have hc := ofLen_created hs hfits hlen
  apply hc.modifyMem
  intro hend
  have hlast : add32 (s₁.str a).data len = (s₁.str a).data + len := add32_of_lt (by omega)
  rw [hlast]
  exact ((AgreeOutside.refl _ _ _).memcpy (by omega) (by omega) (by omega)).store8 (by omega) (by omega)

theorem plusCstr_created (hs : ∃ bs, HeapInv lo hi s.heap bs) {x : Nat} {other : CText}
    (hfits : (s.str x).length + other.bytes.length + 1 < 4294967296) (hx : x ≠ a)
    (hrun : s.plusCstr a x other = .ok t) : Created lo hi s a ((s.str x).length + other.bytes.length) t := by
  obtain ⟨s₁, hlen, hret⟩ := bind_eq_ok.mp hrun
  cases hret
  rw [add32_of_lt (by omega)] at hlen
  have hc := ofLen_created hs hfits hlen
  apply hc.modifyMem
  intro hend
  rw [hc.str_of_ne hx, hc.gives.str.1, add32_of_lt (by omega), add32_of_lt (by omega)]
  exact (((AgreeOutside.refl _ _ _).memcpy (by omega) (by omega) (by omega)).storeBytes (by omega) (by omega)
    (by omega)).store8 (by omega) (by omega)

theorem plus_created (hs : ∃ bs, HeapInv lo hi s.heap bs) {x y : Nat}
    (hfits : (s.str x).length + (s.str y).length + 1 < 4294967296) (hx : x ≠ a) (hy : y ≠ a)
    (hrun : s.plus a x y = .ok t) :
    Created lo hi s a ((s.str x).length + (s.str y).length) t := by
  obtain ⟨s₁, hlen, hret⟩ := bind_eq_ok.mp hrun
  cases hret
  rw [add32_of_lt (by omega)] at hlen
  have hc := ofLen_created hs hfits hlen
  apply hc.modifyMem
  intro hend
  rw [hc.str_of_ne hx, hc.str_of_ne hy, hc.gives.str.1, add32_of_lt (by omega),
    add32_of_lt (by omega)]
  exact (((AgreeOutside.refl _ _ _).memcpy (by omega) (by omega) (by omega)).memcpy (by omega) (by omega)
    (by omega)).store8 (by omega) (by omega)

/-- `krealloc`, with what became of the buffers. -/
theorem realloc_cases {s₁ : StringState} (hrun : s.realloc p n = .ok (q, s₁)) :
    s.heap.realloc p n = .ok (q, s₁.heap) ∧ s₁.live = s.live ∧ s₁.str = s.str ∧
      ((q = p ∧ s₁.allocated = s.allocated ∧ s₁.freed = s.freed) ∨
        (s₁.allocated = s.allocated ++ [q] ∧ s₁.freed = s.freed ++ [p])) := by
  obtain ⟨⟨q', h₁⟩, hcall, hret⟩ := bind_eq_ok.mp hrun
  dsimp only at hret
  by_cases hq : q' = p
  · rw [if_pos hq] at hret
    obtain ⟨rfl, rfl⟩ := Prod.mk.inj (Except.ok.inj hret)
    exact ⟨hcall, rfl, rfl, Or.inl ⟨hq, rfl, rfl⟩⟩
  · rw [if_neg hq] at hret
    obtain ⟨rfl, rfl⟩ := Prod.mk.inj (Except.ok.inj hret)
    exact ⟨hcall, rfl, rfl, Or.inr ⟨rfl, rfl⟩⟩

/-- What an append leaves: `krealloc` returned `q` and the heap `h₁`, `f` copied a text behind the old one,
    and a NUL ends the result. -/
structure AppendedBy (s : StringState) (a len q : Nat) (h₁ : HeapState) (f : Mem → Mem) (t : StringState) :
    Prop where
  call : s.heap.realloc (s.str a).data (len + 1) = .ok (q, h₁)
  live : t.live = s.live
  str : t.str = Function.update s.str a ⟨q, len⟩
  heap : t.heap = { h₁ with heap := { h₁.heap with mem := store8 (f h₁.heap.mem) (add32 q len) 0 } }
  record : (q = (s.str a).data ∧ t.allocated = s.allocated ∧ t.freed = s.freed) ∨
    (t.allocated = s.allocated ++ [q] ∧ t.freed = s.freed ++ [(s.str a).data])

/-- A NUL ends the result. -/
theorem AppendedBy.nul {len : Nat} {h₁ : HeapState} {f : Mem → Mem} (happ : AppendedBy s a len q h₁ f t) :
    t.charAt a (t.str a).length = 0 := by
  unfold StringState.charAt
  rw [happ.str, happ.heap, Function.update_self]
  exact store8_same _ _ _

/-- What is copied inside the new buffer stays inside it. -/
theorem AppendedBy.resized {len : Nat} {h₁ : HeapState} {f : Mem → Mem} (happ : AppendedBy s a len q h₁ f t)
    (hs : ∃ bs, HeapInv lo hi s.heap bs) (ha : s.HasBuffer a) (hfits : len + 1 < 4294967296)
    (hf : q + len + 1 < 4294967296 → AgreeOutside h₁.heap.mem (f h₁.heap.mem) q (len + 1)) :
    Resized lo hi s a len t := by
  obtain ⟨bs, hheap⟩ := hs
  obtain ⟨r, hr, -⟩ := ha
  have hgiven := handedOut_realloc hheap hfits hr happ.call
  obtain ⟨bs', hinv⟩ := hgiven.inv
  have hend := hinv.fits hgiven.live
  have hself : t.str a = ⟨q, len⟩ := by rw [happ.str, Function.update_self]
  refine ⟨⟨q, len + 1, ?_, Nat.lt_succ_self _, happ.str⟩, happ.live, ?_⟩
  · rw [happ.heap]
    apply hgiven.write
    rw [add32_of_lt (by omega)]
    exact (hf (by omega)).store8 (by omega) (by omega)
  · rw [hself]
    exact happ.record

theorem plusAssignCstr_cases {other : CText}
    (hfits : (s.str a).length + other.bytes.length + 1 < 4294967296)
    (hrun : s.plusAssignCstr a other = .ok t) :
    ∃ q h₁, AppendedBy s a ((s.str a).length + other.bytes.length) q h₁
      (fun m => storeBytes m (add32 q (s.str a).length) other.bytes) t := by
  obtain ⟨⟨q, s₁⟩, hrealloc, hret⟩ := bind_eq_ok.mp hrun
  have hsum : add32 (s.str a).length other.bytes.length = (s.str a).length + other.bytes.length :=
    add32_of_lt (by omega)
  dsimp only at hrealloc hret
  rw [hsum, add32_of_lt hfits] at hrealloc
  rw [hsum] at hret
  cases hret
  obtain ⟨hcall, hlive, hstr, hrecord⟩ := realloc_cases hrealloc
  refine ⟨q, s₁.heap, hcall, hlive, ?_, rfl, hrecord⟩
  show Function.update s₁.str a _ = _
  rw [hstr]

/-- The source of `+=` is read when the target has its new buffer, which is that of the source too when it
    is the target. -/
theorem plusAssign_cases (hfits : (s.str a).length + (s.str b).length + 1 < 4294967296)
    (hrun : s.plusAssign a b = .ok t) :
    ∃ q h₁, AppendedBy s a ((s.str a).length + (s.str b).length) q h₁
      (fun m => memcpy m (add32 q (s.str a).length)
        (Function.update s.str a ⟨q, (s.str a).length⟩ b).data (s.str b).length) t := by
  obtain ⟨⟨q, s₁⟩, hrealloc, hret⟩ := bind_eq_ok.mp hrun
  have hsum : add32 (s.str a).length (s.str b).length = (s.str a).length + (s.str b).length :=
    add32_of_lt (by omega)
  dsimp only at hrealloc hret
  rw [hsum, add32_of_lt hfits] at hrealloc
  obtain ⟨hcall, hlive, hstr, hrecord⟩ := realloc_cases hrealloc
  have hlen : (Function.update s.str a ⟨q, (s.str a).length⟩ b).length = (s.str b).length := by
    by_cases hba : b = a
    · rw [hba, Function.update_self]
    · rw [Function.update_of_ne hba]
  cases hret
  simp only [StringState.setStr, StringState.modifyMem, Function.update_idem, Function.update_self, hstr,
    hlen, hsum]
  exact ⟨q, s₁.heap, hcall, hlive, rfl, rfl, hrecord⟩

theorem plusAssignCstr_resized (hs : ∃ bs, HeapInv lo hi s.heap bs) (ha : s.HasBuffer a) {other : CText}
    (hfits : (s.str a).length + other.bytes.length + 1 < 4294967296)
    (hrun : s.plusAssignCstr a other = .ok t) :
    Resized lo hi s a ((s.str a).length + other.bytes.length) t := by
  obtain ⟨q, h₁, happ⟩ := plusAssignCstr_cases hfits hrun
  apply happ.resized hs ha hfits
  intro hend
  rw [add32_of_lt (by omega)]
  exact (AgreeOutside.refl _ _ _).storeBytes (by omega) (by omega) (by omega)

theorem plusAssign_resized (hs : ∃ bs, HeapInv lo hi s.heap bs) (ha : s.HasBuffer a)
    (hfits : (s.str a).length + (s.str b).length + 1 < 4294967296) (hrun : s.plusAssign a b = .ok t) :
    Resized lo hi s a ((s.str a).length + (s.str b).length) t := by
  obtain ⟨q, h₁, happ⟩ := plusAssign_cases hfits hrun
  apply happ.resized hs ha hfits
  intro hend
  rw [add32_of_lt (by omega)]
  exact (AgreeOutside.refl _ _ _).memcpy (by omega) (by omega) (by omega)

/-- What assignment did: the source is read when the target has its new buffer. -/
theorem assign_cases (hfits : (s.str b).length + 1 < 4294967296) (hrun : s.assign a b = .ok t) :
    ∃ p h₁, s.heap.malloc ((s.str b).length + 1) = .ok (p, h₁) ∧
      t = StringState.modifyMem { s with
          heap := h₁
          str := Function.update s.str a ⟨p, (s.str b).length⟩
          allocated := s.allocated ++ [p] } fun m =>
        store8 (memcpy m p (Function.update s.str a ⟨p, (s.str b).length⟩ b).data (s.str b).length)
          (add32 p (s.str b).length) 0 := by
  obtain ⟨⟨p, s₁⟩, hmalloc, hret⟩ := bind_eq_ok.mp hrun
  obtain ⟨⟨p', h₁⟩, hcall, hsome⟩ := bind_eq_ok.mp hmalloc
  obtain ⟨rfl, rfl⟩ := Prod.mk.inj (Except.ok.inj hsome)
  cases hret
  simp only [StringState.setStr, Function.update_self] at hcall
  rw [add32_of_lt hfits] at hcall
  refine ⟨p', h₁, hcall, ?_⟩
  simp only [StringState.setStr, Function.update_self, Function.update_idem]

theorem assign_replaced (hs : ∃ bs, HeapInv lo hi s.heap bs) (hb : s.HasBuffer b)
    (hrun : s.assign a b = .ok t) : Replaced lo hi s a (s.str b).length t := by
  have hbfits := hb.fits hs
  have hfits : (s.str b).length + 1 < 4294967296 := by omega
  obtain ⟨bs, hheap⟩ := hs
  obtain ⟨p, h₁, hcall, rfl⟩ := assign_cases hfits hrun
  have hgiven := handedOut_malloc hheap hfits hcall
  obtain ⟨bs', hinv⟩ := hgiven.inv
  have hend := hinv.fits hgiven.live
  have hlast : add32 p (s.str b).length = p + (s.str b).length := add32_of_lt (by omega)
  rw [hlast]
  refine ⟨⟨p, _, hgiven.write ?_, Nat.lt_succ_self _, rfl⟩, rfl, ?_, rfl⟩
  · exact ((AgreeOutside.refl _ _ _).memcpy (by omega) (by omega) (by omega)).store8 (by omega) (by omega)
  · show s.allocated ++ [p] = s.allocated ++ [(Function.update s.str a ⟨p, (s.str b).length⟩ a).data]
    rw [Function.update_self]

/-- What destruction does: the buffer is freed, and the others keep their bytes. -/
theorem destroy_spec (hs : ∃ bs, HeapInv lo hi s.heap bs) (ha : s.HasBuffer a) :
    ∃ h', s.destroy a =
        .ok { s with heap := h', freed := s.freed ++ [(s.str a).data], live := s.live.erase a } ∧
      (∃ bs, HeapInv lo hi h' bs) ∧ h'.live (s.str a).data = none ∧
      ∀ q r, s.heap.live q = some r → q ≠ (s.str a).data → h'.live q = some r ∧
        ∀ i < r, h'.heap.mem (q + i) = s.heap.heap.mem (q + i) := by
  obtain ⟨bs, hheap⟩ := hs
  obtain ⟨r, hr, -⟩ := ha
  obtain ⟨h', hrelease, hinv, hlive, hframe⟩ := hheap.release hr
  refine ⟨h', ?_, hinv, by rw [hlive, Function.update_self], ?_⟩
  · unfold StringState.destroy StringState.free
    rw [hrelease]
    rfl
  · intro q r' hq hne
    have hlarge := hheap.payloadsOk.large q r' hq
    obtain ⟨hlive, hbytes⟩ := hframe q r' hq hne
    exact ⟨hlive, fun i hi => hbytes i (by omega)⟩

/-! ## One step -/

/-- Every live string has a buffer, which it may share with others. -/
structure BuffersLive (lo hi : Nat) (s : StringState) : Prop where
  heap : ∃ bs, HeapInv lo hi s.heap bs
  owned : ∀ a ∈ s.live, s.HasBuffer a

theorem StringInv.buffersLive (hs : StringInv lo hi s) : BuffersLive lo hi s := ⟨hs.heap, hs.owned⟩

/-- The variable that an operation constructs with a new buffer. -/
def StringOp.constructs : StringOp → Option Nat
  | .default a | .ofCstr a _ | .ofLen a _ | .plusCstr a _ _ | .plus a _ _ => some a
  | .substr a _ _ _ | .slice a _ _ _                                      => some a
  | _                                                                     => none

/-- The variable that an operation appends to. -/
def StringOp.appendsTo : StringOp → Option Nat
  | .plusAssignCstr a _ | .plusAssign a _ => some a
  | _                                     => none

/-- The variable that an operation is about. -/
def StringOp.target : StringOp → Nat
  | .default a | .ofCstr a _ | .ofLen a _ | .copy a _ | .assign a _ | .plusCstr a _ _ | .plus a _ _ => a
  | .plusAssignCstr a _ | .plusAssign a _ | .substr a _ _ _ | .slice a _ _ _ | .destroy a          => a

theorem StringOp.target_of_constructs (h : o.constructs = some a) : o.target = a := by
  cases o <;> cases h <;> rfl

theorem StringOp.target_of_appendsTo (h : o.appendsTo = some a) : o.target = a := by
  cases o <;> cases h <;> rfl

theorem StringOp.not_copy_of_constructs (h : o.constructs = some a) : ¬ o.IsCopy ∧ ¬ o.IsAssign := by
  cases o with
  | copy => cases h
  | assign => cases h
  | _ => exact ⟨id, id⟩

theorem StringOp.not_copy_of_appendsTo (h : o.appendsTo = some a) : ¬ o.IsCopy ∧ ¬ o.IsAssign := by
  cases o with
  | copy => cases h
  | assign => cases h
  | _ => exact ⟨id, id⟩

/-- What an append does, whichever of the two it is. -/
theorem appended_cases (hop : o.appendsTo = some a) (hfits : LengthFits s o) (hrun : s.step o = .ok t) :
    a ∈ s.live ∧ ∃ q h₁ f, AppendedBy s a (s.resultLength o) q h₁ f t := by
  cases o with
  | plusAssignCstr x other =>
      cases hop
      obtain ⟨_, ha, hrun⟩ := bind_eq_ok.mp hrun
      obtain ⟨q, h₁, happ⟩ := plusAssignCstr_cases hfits hrun
      exact ⟨stringCheckLive_eq_ok.mp ha, q, h₁, _, happ⟩
  | plusAssign x y =>
      cases hop
      obtain ⟨_, ha, hrun⟩ := bind_eq_ok.mp hrun
      obtain ⟨_, -, hrun⟩ := bind_eq_ok.mp hrun
      obtain ⟨q, h₁, happ⟩ := plusAssign_cases hfits hrun
      exact ⟨stringCheckLive_eq_ok.mp ha, q, h₁, _, happ⟩
  | _ => cases hop

/-- What becomes of the buffer. -/
theorem appended_resized (hs : BuffersLive lo hi s) (hop : o.appendsTo = some a) (hfits : LengthFits s o)
    (hrun : s.step o = .ok t) : Resized lo hi s a (s.resultLength o) t := by
  obtain ⟨ha, -⟩ := appended_cases hop hfits hrun
  cases o with
  | plusAssignCstr x other =>
      cases hop
      obtain ⟨_, -, hrun⟩ := bind_eq_ok.mp hrun
      exact plusAssignCstr_resized hs.heap (hs.owned a ha) hfits hrun
  | plusAssign x y =>
      cases hop
      obtain ⟨_, -, hrun⟩ := bind_eq_ok.mp hrun
      obtain ⟨_, -, hrun⟩ := bind_eq_ok.mp hrun
      exact plusAssign_resized hs.heap (hs.owned a ha) hfits hrun
  | _ => cases hop

/-- **What one operation does**, whether strings share buffers or not. -/
inductive BufferStep (lo hi : Nat) (s : StringState) : StringOp → StringState → Prop where
  | created {o : StringOp} {t : StringState} {a len : Nat} (constructs : o.constructs = some a)
      (new : a ∉ s.live) (created : Created lo hi s a len t) : BufferStep lo hi s o t
  | copied {a b : Nat} (new : a ∉ s.live) (mem : b ∈ s.live) :
      BufferStep lo hi s (.copy a b) (s.construct a (s.str b))
  | assigned {t : StringState} {a b : Nat} (mem : a ∈ s.live) (source : b ∈ s.live)
      (replaced : Replaced lo hi s a (s.str b).length t) : BufferStep lo hi s (.assign a b) t
  | appended {o : StringOp} {t : StringState} {a : Nat} (appends : o.appendsTo = some a) (mem : a ∈ s.live)
      (resized : Resized lo hi s a (s.resultLength o) t) : BufferStep lo hi s o t
  | destroyed {a : Nat} {h' : HeapState} (mem : a ∈ s.live) (inv : ∃ bs, HeapInv lo hi h' bs)
      (frame : ∀ q r, s.heap.live q = some r → q ≠ (s.str a).data → h'.live q = some r ∧
        ∀ i < r, h'.heap.mem (q + i) = s.heap.heap.mem (q + i)) :
      BufferStep lo hi s (.destroy a)
        { s with heap := h', freed := s.freed ++ [(s.str a).data], live := s.live.erase a }

/-- **Inversion of a step.** -/
theorem bufferStep_cases (hs : BuffersLive lo hi s) (hfits : LengthFits s o) (hrun : s.step o = .ok t) :
    BufferStep lo hi s o t := by
  have hheap := hs.heap
  have hfits' := hfits
  unfold LengthFits StringState.resultLength at hfits'
  cases o with
  | default a =>
      obtain ⟨_, ha, hrun⟩ := bind_eq_ok.mp hrun
      exact .created rfl (stringCheckFree_eq_ok.mp ha) (default_created hheap hrun)
  | ofCstr a cstr =>
      obtain ⟨_, ha, hrun⟩ := bind_eq_ok.mp hrun
      exact .created rfl (stringCheckFree_eq_ok.mp ha) (ofCstr_created hheap hrun)
  | ofLen a len =>
      obtain ⟨_, ha, hrun⟩ := bind_eq_ok.mp hrun
      exact .created rfl (stringCheckFree_eq_ok.mp ha) (ofLen_created hheap hfits' hrun)
  | copy a b =>
      obtain ⟨_, ha, hrun⟩ := bind_eq_ok.mp hrun
      obtain ⟨_, hb, hrun⟩ := bind_eq_ok.mp hrun
      cases hrun
      exact .copied (stringCheckFree_eq_ok.mp ha) (stringCheckLive_eq_ok.mp hb)
  | assign a b =>
      obtain ⟨_, ha, hrun⟩ := bind_eq_ok.mp hrun
      obtain ⟨_, hb, hrun⟩ := bind_eq_ok.mp hrun
      have hb' := stringCheckLive_eq_ok.mp hb
      exact .assigned (stringCheckLive_eq_ok.mp ha) hb' (assign_replaced hheap (hs.owned b hb') hrun)
  | plusCstr a x other =>
      obtain ⟨_, ha, hrun⟩ := bind_eq_ok.mp hrun
      obtain ⟨_, hx, hrun⟩ := bind_eq_ok.mp hrun
      have ha' := stringCheckFree_eq_ok.mp ha
      have hxa := ne_of_mem_of_not_mem (stringCheckLive_eq_ok.mp hx) ha'
      exact .created rfl ha' (plusCstr_created hheap hfits' hxa hrun)
  | plus a x y =>
      obtain ⟨_, ha, hrun⟩ := bind_eq_ok.mp hrun
      obtain ⟨_, hx, hrun⟩ := bind_eq_ok.mp hrun
      obtain ⟨_, hy, hrun⟩ := bind_eq_ok.mp hrun
      have ha' := stringCheckFree_eq_ok.mp ha
      have hxa := ne_of_mem_of_not_mem (stringCheckLive_eq_ok.mp hx) ha'
      have hya := ne_of_mem_of_not_mem (stringCheckLive_eq_ok.mp hy) ha'
      exact .created rfl ha' (plus_created hheap hfits' hxa hya hrun)
  | plusAssignCstr a other =>
      exact .appended rfl (appended_cases rfl hfits hrun).1 (appended_resized hs rfl hfits hrun)
  | plusAssign a b =>
      exact .appended rfl (appended_cases rfl hfits hrun).1 (appended_resized hs rfl hfits hrun)
  | substr a x start len =>
      obtain ⟨_, ha, hrun⟩ := bind_eq_ok.mp hrun
      obtain ⟨_, hx, hrun⟩ := bind_eq_ok.mp hrun
      exact .created rfl (stringCheckFree_eq_ok.mp ha) (substr_created hheap hfits' hrun)
  | slice a x start stop =>
      obtain ⟨_, ha, hrun⟩ := bind_eq_ok.mp hrun
      obtain ⟨_, hx, hrun⟩ := bind_eq_ok.mp hrun
      exact .created rfl (stringCheckFree_eq_ok.mp ha) (substr_created hheap hfits' hrun)
  | destroy a =>
      obtain ⟨_, ha, hrun⟩ := bind_eq_ok.mp hrun
      have ha' := stringCheckLive_eq_ok.mp ha
      obtain ⟨h', ht', hinv, -, hframe⟩ := destroy_spec hheap (hs.owned a ha')
      obtain rfl := Except.ok.inj (ht'.symm.trans hrun)
      exact .destroyed ha' hinv hframe

/-- **Inversion of a step**, when the strings own their buffers. -/
theorem stringStep_cases (hs : StringInv lo hi s) (hfits : LengthFits s o) (hrun : s.step o = .ok t) :
    StringStep lo hi s o t := by
  cases bufferStep_cases hs.buffersLive hfits hrun with
  | created hop hnew hc =>
      obtain ⟨hcopy, hassign⟩ := StringOp.not_copy_of_constructs hop
      exact .created hcopy hassign hnew hc
  | copied hnew hmem => exact .copied hnew hmem
  | assigned hmem _ hr => exact .assigned hmem hr
  | appended hop hmem hr =>
      obtain ⟨hcopy, hassign⟩ := StringOp.not_copy_of_appendsTo hop
      exact .resized hcopy hassign hmem hr
  | destroyed hmem hinv hframe =>
      exact .destroyed hmem hinv (fun q r hq hne => (hframe q r hq hne).1) rfl rfl rfl rfl

theorem destroy_destroyed (hs : StringInv lo hi s) (ha : a ∈ s.live) :
    ∃ t, s.destroy a = .ok t ∧ StringStep lo hi s (.destroy a) t := by
  obtain ⟨h', hdestroy, hinv, -, hframe⟩ := destroy_spec hs.heap (hs.owned a ha)
  exact ⟨_, hdestroy, .destroyed ha hinv (fun q r hq hne => (hframe q r hq hne).1) rfl rfl rfl rfl⟩

/-! ## Ownership -/

/-- A string with a buffer of its own, among strings that keep theirs. -/
theorem Gives.buffersLive {old : Option Nat} {len : Nat} (hg : Gives lo hi s old a len t)
    (hs : BuffersLive lo hi s)
    (hlive : ∀ b ∈ t.live, b ≠ a → b ∈ s.live ∧ old ≠ some (s.str b).data) : BuffersLive lo hi t := by
  obtain ⟨p, n, hgiven, -⟩ := id hg
  refine ⟨hgiven.inv, ?_⟩
  intro b hb
  by_cases hba : b = a
  · rw [hba]
    exact hg.hasBuffer
  · obtain ⟨hb', hold⟩ := hlive b hb hba
    exact (hg.keeps (hs.owned b hb') hba hold).2.2.1

/-- Two strings that have one buffer then are two of the others, or one and the same. -/
theorem Gives.same_buffer {old : Option Nat} {len : Nat} (hg : Gives lo hi s old a len t)
    (hs : BuffersLive lo hi s)
    (hlive : ∀ b ∈ t.live, b ≠ a → b ∈ s.live ∧ old ≠ some (s.str b).data) {c : Nat} (hb : b ∈ t.live)
    (hc : c ∈ t.live) (heq : (t.str b).data = (t.str c).data) :
    b = c ∨ (b ∈ s.live ∧ c ∈ s.live ∧ t.str b = s.str b ∧ t.str c = s.str c) := by
  have hkeep : ∀ x ∈ t.live, x ≠ a → x ∈ s.live ∧ t.str x = s.str x ∧ (t.str x).data ≠ (t.str a).data := by
    intro x hx hxa
    obtain ⟨hx', hold⟩ := hlive x hx hxa
    obtain ⟨hstr, hne, -⟩ := hg.keeps (hs.owned x hx') hxa hold
    exact ⟨hx', hstr, hne⟩
  by_cases hba : b = a <;> by_cases hca : c = a
  · rw [hba, hca]
    exact Or.inl rfl
  · rw [hba] at heq
    exact absurd heq.symm (hkeep c hc hca).2.2
  · rw [hca] at heq
    exact absurd heq (hkeep b hb hba).2.2
  · obtain ⟨hb', hbstr, -⟩ := hkeep b hb hba
    obtain ⟨hc', hcstr, -⟩ := hkeep c hc hca
    exact Or.inr ⟨hb', hc', hbstr, hcstr⟩

theorem Gives.inv {old : Option Nat} {len : Nat} (hg : Gives lo hi s old a len t) (hs : StringInv lo hi s)
    (hlive : ∀ b ∈ t.live, b ≠ a → b ∈ s.live ∧ old ≠ some (s.str b).data) : StringInv lo hi t := by
  obtain ⟨hheap, howned⟩ := hg.buffersLive hs.buffersLive hlive
  refine ⟨hheap, howned, ?_⟩
  intro b hb c hc heq
  rcases hg.same_buffer hs.buffersLive hlive hb hc heq with hbc | ⟨hb', hc', hbstr, hcstr⟩
  · exact hbc
  · rw [hbstr, hcstr] at heq
    exact hs.distinct b hb' c hc' heq

/-- **Every step but copy construction keeps ownership.** -/
theorem StringStep.inv (h : StringStep lo hi s o t) (hs : StringInv lo hi s) (hcopy : ¬ o.IsCopy) :
    StringInv lo hi t := by
  cases h with
  | created _ _ hnew hc =>
      refine hc.gives.inv hs fun b hb hba => ⟨?_, nofun⟩
      rw [hc.live] at hb
      exact Finset.mem_of_mem_insert_of_ne hb hba
  | assigned ha hr => exact hr.gives.inv hs fun b hb _ => ⟨hr.live ▸ hb, nofun⟩
  | resized _ _ ha hr =>
      apply hr.gives.inv hs
      intro b hb hba
      rw [hr.live] at hb
      exact ⟨hb, fun heq => hba (hs.distinct b hb _ ha (Option.some.inj heq).symm)⟩
  | destroyed ha hinv hframe hlive hstr _ _ =>
      have hmem : ∀ b ∈ t.live, b ∈ s.live := fun b hb => Finset.mem_of_mem_erase (hlive ▸ hb)
      refine ⟨hinv, ?_, ?_⟩
      · intro b hb
        obtain ⟨r, hr, hlen⟩ := hs.owned b (hmem b hb)
        have hba := Finset.ne_of_mem_erase (hlive ▸ hb)
        rw [hstr]
        exact ⟨r, hframe _ r hr fun heq => hba (hs.distinct b (hmem b hb) _ ha heq), hlen⟩
      · intro b hb c hc heq
        rw [hstr] at heq
        exact hs.distinct b (hmem b hb) c (hmem c hc) heq
  | copied => exact absurd trivial hcopy

/-- **Every buffer is accounted for**: it has been allocated as often as it has been freed, and once more
    for the live string that has it. -/
def Accounted (s : StringState) : Prop :=
  ∀ p, s.allocated.count p = s.freed.count p + tally s.live s.str fun v => v.data = p

/-- One more allocation. -/
theorem count_concat (l : List Nat) (p q : Nat) :
    (l ++ [q]).count p = l.count p + if q = p then 1 else 0 := by
  rw [List.count_append, List.count_singleton]
  simp

/-- **Every step but copying and assigning keeps account.** -/
theorem StringStep.accounted (h : StringStep lo hi s o t) (hs : Accounted s) (hcopy : ¬ o.IsCopy)
    (hassign : ¬ o.IsAssign) : Accounted t := by
  intro p
  have hp := hs p
  cases h with
  | created _ _ hnew hc =>
      obtain ⟨q, n, -, -, hstr⟩ := hc.gives
      rw [hc.allocated, hc.freed, hc.live, count_concat, hstr, tally_insert hnew, Function.update_self]
      omega
  | assigned => exact absurd trivial hassign
  | @resized _ _ a len _ _ ha hr =>
      obtain ⟨q, n, -, -, hstr⟩ := hr.gives
      have hself : (t.str a).data = q := by rw [hstr, Function.update_self]
      have hupdate : tally s.live (Function.update s.str a ⟨q, len⟩) (fun v => v.data = p) + _ = _ :=
        tally_update ha
      rw [hr.live, hstr]
      rcases hr.record with ⟨hsame, hallocated, hfreed⟩ | ⟨hallocated, hfreed⟩
      · rw [hself] at hsame
        rw [hallocated, hfreed]
        simp only [hsame] at hupdate ⊢
        omega
      · rw [hallocated, hfreed, hself, count_concat, count_concat]
        dsimp only at hupdate
        omega
  | destroyed ha _ _ hlive hstr hallocated hfreed =>
      have herase : tally (s.live.erase _) s.str (fun v => v.data = p) + _ = _ := tally_erase ha
      rw [hallocated, hfreed, hlive, hstr, count_concat]
      omega
  | copied => exact absurd trivial hcopy

/-- No two strings have the same buffer, and every buffer is live and large enough. -/
structure OwnsBuffers (s : StringState) : Prop where
  distinct : ∀ a ∈ s.live, ∀ b ∈ s.live, (s.str a).data = (s.str b).data → a = b
  live : ∀ a ∈ s.live, ∃ r, s.heap.live (s.str a).data = some r ∧ (s.str a).length + 1 ≤ r

/-- **What should hold of the strings**: they own their buffers, and buffers are freed as often as they are
    allocated, those of live strings not yet. -/
structure BuffersOk (s : StringState) : Prop extends OwnsBuffers s where
  accounted : Accounted s
  freedOnce : s.live = ∅ → s.allocated.Perm s.freed

theorem StringInv.ownsBuffers (hs : StringInv lo hi s) : OwnsBuffers s := ⟨hs.distinct, hs.owned⟩

theorem StringInv.buffersOk (hs : StringInv lo hi s) (hacc : Accounted s) : BuffersOk s := by
  refine ⟨hs.ownsBuffers, hacc, fun hnone => List.perm_iff_count.mpr ?_⟩
  intro p
  have hp := hacc p
  rw [hnone] at hp
  exact hp

/-- **Copying shares a buffer.** -/
theorem StringStep.copy_shares (h : StringStep lo hi s o t) (hcopy : o.IsCopy) : ¬ BuffersOk t := by
  cases h with
  | created hnot => exact absurd hcopy hnot
  | assigned => exact absurd hcopy nofun
  | resized hnot => exact absurd hcopy hnot
  | destroyed => exact absurd hcopy nofun
  | @copied a b hnew hmem =>
      intro hok
      have hba : b ≠ a := by
        rintro rfl
        exact hnew hmem
      refine hba (hok.distinct b (Finset.mem_insert_of_mem hmem) a (Finset.mem_insert_self ..) ?_)
      show (Function.update s.str a (s.str b) b).data = (Function.update s.str a (s.str b) a).data
      rw [Function.update_self, Function.update_of_ne hba]

/-- **Assigning loses a buffer.** -/
theorem StringStep.assign_loses (h : StringStep lo hi s o t) (hs : Accounted s) (hassign : o.IsAssign) :
    ¬ BuffersOk t := by
  cases h with
  | created _ hnot => exact absurd hassign hnot
  | @assigned _ a b len ha hr =>
      intro hok
      obtain ⟨q, n, -, -, hstr⟩ := hr.gives
      have hbefore := hs (s.str a).data
      have hafter := hok.accounted (s.str a).data
      have hupdate :
          tally s.live (Function.update s.str a ⟨q, len⟩) (fun v => v.data = (s.str a).data) + _ = _ :=
        tally_update ha
      rw [if_pos rfl] at hupdate
      rw [hr.allocated, hr.freed, hr.live, count_concat, hstr, Function.update_self] at hafter
      omega
  | resized _ hnot => exact absurd hassign hnot
  | destroyed => exact absurd hassign nofun
  | copied => exact absurd hassign nofun

/-! ## Texts -/

/-- **Assignment to another variable copies the text.** -/
theorem assign_text (hs : StringInv lo hi s) (hb : b ∈ s.live) (hab : a ≠ b)
    (hrun : s.assign a b = .ok t) : t.text a = s.text b := by
  have hfits := hs.length_lt hb
  obtain ⟨bs, hheap⟩ := hs.heap
  obtain ⟨r, hr, hlen⟩ := hs.owned b hb
  obtain ⟨p, h₁, hcall, rfl⟩ := assign_cases hfits hrun
  have hgiven := handedOut_malloc hheap hfits hcall
  obtain ⟨bs', hinv⟩ := hgiven.inv
  obtain ⟨hne, hlive, hbytes⟩ := hgiven.frame _ r hr nofun
  have hend := hinv.fits hgiven.live
  have hbend := hinv.fits hlive
  have hapart := hinv.apart hlive hgiven.live hne
  have hlast : add32 p (s.str b).length = p + (s.str b).length := add32_of_lt (by omega)
  unfold StringState.text
  simp only [StringState.modifyMem, Function.update_self, Function.update_of_ne hab.symm, hlast]
  apply bytesAt_congr
  intro i hi
  rw [store8_out (by omega), memcpy_in (by omega) (by omega) (by omega) hi]
  exact hbytes i (by omega)

/-! ## Runs -/

theorem stringInv_start {heap : HeapState} (hh : HeapInv lo hi heap bs) :
    StringInv lo hi (StringState.start heap) :=
  ⟨⟨bs, hh⟩, fun a ha => absurd ha (Finset.notMem_empty a), fun a ha => absurd ha (Finset.notMem_empty a)⟩

theorem accounted_start (heap : HeapState) : Accounted (StringState.start heap) := fun _ => rfl

/-- **The strings own their buffers, all of them, iff** the run neither copies nor assigns. A run that only
    assigns still keeps the buffers apart, and gives the target the text of the source when that is another
    variable. -/
theorem strings_owned_iff {k : KernelHeap} {size start : Nat} (hsize : 16 ≤ size)
    (hregion : start + size < 4294967296) {heapOps : List HeapOp} {heap : HeapState}
    (hheap : (HeapState.init k size start).run heapOps = .ok heap) {ops : List StringOp}
    (hrun : StringState.run heap ops = .ok s)
    (hfits : ∀ pre o t, pre ++ [o] <+: ops → StringState.run heap pre = .ok t → LengthFits t o) :
    ((∀ pre t, pre <+: ops → StringState.run heap pre = .ok t → BuffersOk t) ↔
        ∀ o ∈ ops, ¬ o.IsCopy ∧ ¬ o.IsAssign) ∧
      ((∀ o ∈ ops, ¬ o.IsCopy) →
        (∀ pre t, pre <+: ops → StringState.run heap pre = .ok t → OwnsBuffers t) ∧
          ∀ pre a b t u, pre ++ [.assign a b] <+: ops → StringState.run heap pre = .ok t →
            t.step (.assign a b) = .ok u → a ≠ b → u.text a = t.text b) := by
  obtain ⟨bs, hinv⟩ := HeapInv.run hsize hregion hheap
  have hstart := stringInv_start hinv
  constructor
  · refine (run_holds_iff_of (I := fun s => StringInv start (start + size) s ∧ Accounted s)
      (fun s hs => hs.1.buffersOk hs.2) ?_
      ?_ ⟨hstart, accounted_start heap⟩ hrun hfits).trans
      (forall_steps_iff (Q := fun o => ¬ o.IsCopy ∧ ¬ o.IsAssign) hrun)
    · intro s o t hs hpre hgood hstep
      have hcase := stringStep_cases hs.1 hpre hstep
      exact ⟨hcase.inv hs.1 hgood.1, hcase.accounted hs.2 hgood.1 hgood.2⟩
    · intro s o t hs hpre hbad hstep
      have hcase := stringStep_cases hs.1 hpre hstep
      by_cases hcopy : o.IsCopy
      · exact hcase.copy_shares hcopy
      · apply hcase.assign_loses hs.2
        exact Classical.byContradiction fun hassign => hbad ⟨hcopy, hassign⟩
  · intro hcopy
    have hkeep : ∀ s o t, StringInv start (start + size) s → (LengthFits s o ∧ ¬ o.IsCopy) →
        s.step o = .ok t → StringInv start (start + size) t := fun s o t hs hgood hstep =>
      (stringStep_cases hs hgood.1 hstep).inv hs hgood.2
    have hreach := run_good hkeep hstart hrun fun pre o u hpre hu =>
      ⟨hfits pre o u hpre hu, hcopy o (hpre.subset (by simp))⟩
    refine ⟨fun pre t hpre ht => (hreach pre t hpre ht).ownsBuffers, ?_⟩
    intro pre a b t u hpre ht hstep hab
    have hs := hreach pre t ((List.prefix_append _ _).trans hpre) ht
    obtain ⟨_, ha, hstep⟩ := bind_eq_ok.mp hstep
    obtain ⟨_, hb, hstep⟩ := bind_eq_ok.mp hstep
    exact assign_text hs (stringCheckLive_eq_ok.mp hb) hab hstep

/-- The text `a`, and a heap of 200 bytes with nothing in it. -/
def letterA : CText := ⟨[97], by decide, by decide⟩

def smallHeap : HeapState := HeapState.init ⟨fun _ => 0, none, 0⟩ 200 64

/-- What the one string that is constructed there owns. -/
theorem stringInv_letterA (hrun : StringState.run smallHeap [.ofCstr 0 letterA] = .ok s) :
    StringInv 64 (64 + 200) s := by
  obtain ⟨bs, hheap⟩ : ∃ bs, HeapInv 64 (64 + 200) (HeapState.init ⟨fun _ => 0, none, 0⟩ 200 64) bs :=
    HeapInv.run (by decide) (by decide) (run_nil _)
  have hstart := stringInv_start hheap
  obtain ⟨s₁, hstep, hret⟩ := run_cons.mp hrun
  cases hret
  exact (stringStep_cases hstart (by simp [LengthFits, StringState.resultLength, letterA]) hstep).inv hstart
    nofun

/-- Two strings that are constructed and destroyed. -/
theorem strings_owned_two :
    ∃ s, StringState.run smallHeap [.ofCstr 0 letterA, .ofLen 1 3, .destroy 0, .destroy 1] = .ok s ∧
      ∀ pre t, pre <+: [.ofCstr 0 letterA, .ofLen 1 3, .destroy 0, .destroy 1] →
        StringState.run smallHeap pre = .ok t → BuffersOk t := by
  have hok : (StringState.run smallHeap
      [.ofCstr 0 letterA, .ofLen 1 3, .destroy 0, .destroy 1]).toOption.isSome = true := by
    decide +kernel
  obtain ⟨s, hs⟩ := Option.isSome_iff_exists.mp hok
  have hrun := toOption_eq_some.mp hs
  have hheap : (HeapState.init ⟨fun _ => 0, none, 0⟩ 200 64).run [] = .ok smallHeap := rfl
  refine ⟨s, hrun, (strings_owned_iff (by decide) (by decide) hheap hrun ?_).1.mpr ?_⟩
  · intro pre o t hpre _
    have hmem : o ∈ [StringOp.ofCstr 0 letterA, .ofLen 1 3, .destroy 0, .destroy 1] := hpre.subset (by simp)
    simp only [List.mem_cons, List.not_mem_nil, or_false] at hmem
    rcases hmem with rfl | rfl | rfl | rfl <;>
      simp [LengthFits, StringState.resultLength, letterA]
  · simp [StringOp.IsCopy, StringOp.IsAssign]

/-- **Copying, assigning, assigning to oneself.** A copy shares the buffer, which is then freed twice. An
    assignment leaves a buffer behind when all strings are gone. An assignment of a string to itself leaves
    it with the bytes that its new buffer happened to hold. -/
theorem strings_share_and_lose :
    (∃ s, StringState.run smallHeap [.ofCstr 0 letterA, .copy 1 0] = .ok s ∧ ¬ BuffersOk s) ∧
    (∃ s, StringState.run smallHeap [.ofCstr 0 letterA, .copy 1 0, .destroy 0, .destroy 1] = .ok s ∧
      s.live = ∅ ∧ s.allocated = [80] ∧ s.freed = [80, 80]) ∧
    (∃ s, StringState.run smallHeap
        [.ofCstr 0 letterA, .ofCstr 1 letterA, .assign 0 1, .destroy 0, .destroy 1] = .ok s ∧
      s.live = ∅ ∧ s.allocated.length = 3 ∧ s.freed.length = 2) ∧
    ∃ s t, StringState.run smallHeap [.ofCstr 0 letterA] = .ok s ∧ s.step (.assign 0 0) = .ok t ∧
      s.text 0 = [97] ∧ t.text 0 = [0] := by
  refine ⟨?_, ?_, ?_, ?_⟩
  · have hok : (StringState.run smallHeap [.ofCstr 0 letterA, .copy 1 0]).toOption.map
        (fun s => (s.live, s.str 0, s.str 1)) = some ({0, 1}, ⟨80, 1⟩, ⟨80, 1⟩) := by
      decide +kernel
    obtain ⟨s, hs, hstr⟩ := Option.map_eq_some_iff.mp hok
    simp only [Prod.mk.injEq] at hstr
    obtain ⟨hlive, h0, h1⟩ := hstr
    refine ⟨s, toOption_eq_some.mp hs, ?_⟩
    intro h
    have hsame := h.distinct 0 (by rw [hlive]; decide) 1 (by rw [hlive]; decide) (by rw [h0, h1])
    cases hsame
  · have hok : (StringState.run smallHeap
        [.ofCstr 0 letterA, .copy 1 0, .destroy 0, .destroy 1]).toOption.map
        (fun s => (s.live, s.allocated, s.freed)) = some (∅, [80], [80, 80]) := by
      decide +kernel
    obtain ⟨s, hs, hrecord⟩ := Option.map_eq_some_iff.mp hok
    simp only [Prod.mk.injEq] at hrecord
    exact ⟨s, toOption_eq_some.mp hs, hrecord⟩
  · have hok : (StringState.run smallHeap
        [.ofCstr 0 letterA, .ofCstr 1 letterA, .assign 0 1, .destroy 0, .destroy 1]).toOption.map
        (fun s => (s.live, s.allocated.length, s.freed.length)) = some (∅, 3, 2) := by
      decide +kernel
    obtain ⟨s, hs, hrecord⟩ := Option.map_eq_some_iff.mp hok
    simp only [Prod.mk.injEq] at hrecord
    exact ⟨s, toOption_eq_some.mp hs, hrecord⟩
  · have hok : ((StringState.run smallHeap [.ofCstr 0 letterA]).toOption.bind fun s =>
        (s.step (.assign 0 0)).toOption.map fun t => (s.text 0, t.text 0)) = some ([97], [0]) := by
      decide +kernel
    obtain ⟨s, hs, ht⟩ := Option.bind_eq_some_iff.mp hok
    obtain ⟨t, ht, htexts⟩ := Option.map_eq_some_iff.mp ht
    obtain ⟨htext, htext'⟩ := Prod.mk.inj htexts
    exact ⟨s, t, toOption_eq_some.mp hs, toOption_eq_some.mp ht, htext, htext'⟩

end WeirdOs
