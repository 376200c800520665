import WeirdOs.Lib.Translate
import WeirdOs.Paging.Mmu

/-!
# `Paging.Correctness.Mmu` — what the processor makes of the page tables

The processor and `page.cpp` share the tables without a word: the kernel fills entries, and the processor reads
them when it likes. Three facts about runs of `allocate` tie them together:

* the two 4 MB pages stay, and every other slot is empty or points to a table (`Slots`), so an address is
  translated by the entry that `get_page` returns (`Slots.translate_outside`);
* **no two addresses meet** (`Tables.faithful`), and those outside the 4 MB pages are clear of the memory of
  the kernel (`Tables.translate_cases`);
* an entry in use is never changed (`Tables.extends`), so a translation once found is right ever after.
-/

namespace WeirdOs

open Lib

variable {s s' : Paging} {dir a b x : Nat} {wp : Bool} {acc : Access} {calls : List AllocateCall}

/-! ## The slots of the directory -/

/-- **The slots.** The two 4 MB pages are there, and a slot without a table is empty. -/
structure Slots (dir : Nat) (s : Paging) : Prop where
  inv : DirInv dir s
  kernel : (s.dirs dir).tablesPhysical kernelPageNumber = 0x83
  heap : (s.dirs dir).tablesPhysical kheapPageNumber = 0x400083
  empty : ∀ k, k ≠ kernelPageNumber → k ≠ kheapPageNumber → (s.dirs dir).tables k = 0 →
    (s.dirs dir).tablesPhysical k = 0

/-- **Mapping a page** outside the 4 MB pages keeps them. -/
theorem Slots.mapPage {r : PageRequest} (h : Slots dir s) (hout : Outside r.address)
    (hmap : mapPage dir s r = .ok s') : Slots dir s' := by
  obtain ⟨p, s₁, hget, halloc⟩ := mapPage_eq_ok.mp hmap
  obtain ⟨h₁, ⟨q, -, hentry⟩, -⟩ := h.inv.getPage hout hget
  obtain ⟨h', hsame⟩ := h₁.allocFrame halloc
  have htable : (s'.dirs dir).tables (slot r.address) ≠ 0 := by
    rw [← hsame] at hentry
    exact (entry_eq_some.mp hentry).1
  refine ⟨h', ?_, ?_, ?_⟩
  · rcases mapPage_slot hmap kernelPageNumber with ⟨-, hp, -⟩ | ⟨hslot, -⟩
    · exact hp.trans h.kernel
    · exact absurd hslot hout.1
  · rcases mapPage_slot hmap kheapPageNumber with ⟨-, hp, -⟩ | ⟨hslot, -⟩
    · exact hp.trans h.heap
    · exact absurd hslot hout.2
  · intro k hk hk' hzero
    rcases mapPage_slot hmap k with ⟨ht, hp, -⟩ | ⟨hslot, -⟩
    · rw [ht] at hzero
      exact hp.trans (h.empty k hk hk' hzero)
    · rw [hslot] at htable
      exact absurd hzero htable

theorem Slots.run {rs : List PageRequest} (h : Slots dir s) (hout : ∀ r ∈ rs, Outside r.address)
    (hrun : run (WeirdOs.mapPage dir) s rs = .ok s') : Slots dir s' :=
  run_invariant_of (Slots dir) (fun _ _ _ hr ht hstep => ht.mapPage hr hstep) hout h hrun

/-! ## The walk -/

/-- The slot of a table allows every access, and leaves it to the table. -/
theorem tableEntry_open (y : Nat) : (y ||| 0x7) &&& 0x2 ≠ 0 ∧ (y ||| 0x7) &&& 0x4 ≠ 0 := by
  rw [Nat.and_or_distrib_right, Nat.and_or_distrib_right]
  simp

theorem allowed_open : acc.allowed wp true true = true := by
  simp [Access.allowed]

/-- **The walk outside the 4 MB pages** ends at the entry that `get_page` returns. -/
theorem Slots.translate_outside (h : Slots dir s) (hout : Outside a) :
    translate wp s dir acc a = (pageAt s dir a).translate wp acc a := by
  have hslot : a / 0x400000 = slot a := by
    unfold slot
    omega
  unfold translate
  rw [hslot]
  cases hentry : entry s dir a with
  | none =>
      -- an empty slot is not present
      have hzero := h.empty _ hout.1 hout.2 (entry_eq_none.mp hentry)
      have hmmu : mmuEntry (s.dirs dir) a = none := by
        unfold mmuEntry
        rw [hslot, hzero]
        rfl
      rw [hmmu, hzero, pageAt_of_none hentry]
      simp [Page.translate, Page.zero]
  | some p =>
      obtain ⟨ht, hp⟩ := entry_eq_some.mp hentry
      obtain ⟨htable, hphysical⟩ := h.inv.table _ ht
      obtain ⟨phys, hgetPhys, hmmu⟩ := h.inv.mmu hentry
      unfold HeapPage at htable
      rw [getPhys_heap h.inv.heapSlot (by omega) (by omega)] at hgetPhys
      obtain rfl := Except.ok.inj hgetPhys
      have hvirt : heapVirt (heapPhys p) = p := by
        unfold heapVirt heapPhys
        omega
      have hflags : acc.allowed wp
          ((s.dirs dir).tablesPhysical (slot a) &&& 0x2 ≠ 0)
          ((s.dirs dir).tablesPhysical (slot a) &&& 0x4 ≠ 0) = true := by
        rw [hphysical, decide_eq_true (tableEntry_open _).1, decide_eq_true (tableEntry_open _).2,
          allowed_open]
      rw [hmmu, pageAt_of_entry hentry]
      simp only [hflags, if_true, hvirt]

/-- The kernel alone has access to a page of 4 MB. -/
theorem allowed_kernel : acc.allowed wp true false = !acc.user := by
  simp [Access.allowed]

/-- **The walk in a slot that is a page of 4 MB**, open to the kernel. -/
theorem translate_large {e base : Nat} (hentry : (s.dirs dir).tablesPhysical (slot a) = e)
    (hlarge : e &&& 0x1 ≠ 0 ∧ e &&& 0x80 ≠ 0) (hflags : e &&& 0x2 ≠ 0 ∧ e &&& 0x4 = 0)
    (hbase : e &&& 0xffc00000 = base) :
    translate wp s dir acc a = if acc.user then none else some (base + a % 0x400000) := by
  have hslot : a / 0x400000 = slot a := by
    unfold slot
    omega
  have hmmu : mmuEntry (s.dirs dir) a = none := by
    unfold mmuEntry
    rw [hslot, hentry]
    exact if_neg fun h => hlarge.2 h.2
  have hallowed : acc.allowed wp (e &&& 0x2 ≠ 0) (e &&& 0x4 ≠ 0) = !acc.user := by
    rw [decide_eq_true hflags.1, decide_eq_false (not_not_intro hflags.2), allowed_kernel]
  unfold translate
  simp only [hslot, hentry, hmmu, hallowed, hbase, if_pos hlarge]
  cases acc.user <;> rfl

/-- The kernel is at the start of physical memory. -/
theorem Slots.translate_kernel (h : Slots dir s) (hslot : slot a = kernelPageNumber) :
    translate wp s dir acc a = if acc.user then none else some (a - 0xc0000000) := by
  have hentry : (s.dirs dir).tablesPhysical (slot a) = 0x83 := hslot ▸ h.kernel
  have hbase : (0x83 : Nat) &&& 0xffc00000 = 0 := by decide
  rw [translate_large hentry (by decide) (by decide) hbase]
  unfold slot kernelPageNumber at hslot
  rw [show 0 + a % 0x400000 = a - 0xc0000000 from by omega]

/-- Its heap comes next. -/
theorem Slots.translate_heap (h : Slots dir s) (hslot : slot a = kheapPageNumber) :
    translate wp s dir acc a = if acc.user then none else some (heapPhys a) := by
  have hentry : (s.dirs dir).tablesPhysical (slot a) = 0x400083 := hslot ▸ h.heap
  have hbase : (0x400083 : Nat) &&& 0xffc00000 = 0x400000 := by decide
  rw [translate_large hentry (by decide) (by decide) hbase]
  unfold slot kheapPageNumber at hslot
  unfold heapPhys
  rw [show 0x400000 + a % 0x400000 = a - 0xd0000000 + 0x400000 from by omega]

/-! ## The tables -/

/-- **The tables** that runs of `allocate` outside the 4 MB pages leave. -/
structure Tables (dir : Nat) (s : Paging) : Prop where
  slots : Slots dir s
  frames : FrameInv dir s
  view : ViewInv dir s

theorem Page.translate_eq_some {page : Page} : page.translate wp acc a = some x ↔
    page.present ≠ 0 ∧ acc.allowed wp (page.rw ≠ 0) (page.user ≠ 0) = true ∧
      page.frame * 0x1000 + a % 0x1000 = x := by
  unfold Page.translate
  rw [Option.ite_none_right_eq_some]
  simp [and_assoc]

/-- **What a walk can end at**: the 4 MB of the kernel, those of its heap, or a frame past both. -/
theorem Tables.translate_cases (h : Tables dir s) (htranslate : translate wp s dir acc a = some x) :
    (slot a = kernelPageNumber ∧ acc.user = false ∧ x = a - 0xc0000000) ∨
    (slot a = kheapPageNumber ∧ acc.user = false ∧ x = heapPhys a) ∨
    (Outside a ∧ 0x800000 ≤ x ∧ x < 0x4000000 ∧ x % 0x1000 = a % 0x1000 ∧
      ∃ p, entry s dir a = some p ∧ (s.pages p).frame = x / 0x1000) := by
  by_cases hkernel : slot a = kernelPageNumber
  · rw [h.slots.translate_kernel hkernel] at htranslate
    cases huser : acc.user <;> simp_all
  by_cases hheap : slot a = kheapPageNumber
  · rw [h.slots.translate_heap hheap] at htranslate
    cases huser : acc.user <;> simp_all
  · have hout : Outside a := ⟨hkernel, hheap⟩
    refine Or.inr (Or.inr ⟨hout, ?_⟩)
    rw [h.slots.translate_outside hout, Page.translate_eq_some] at htranslate
    obtain ⟨hpresent, -, rfl⟩ := htranslate
    cases hentry : entry s dir a with
    | none =>
        rw [pageAt_of_none hentry] at hpresent
        exact absurd rfl hpresent
    | some p =>
        rw [pageAt_of_entry hentry] at hpresent ⊢
        obtain ⟨-, hlow, hhigh⟩ := h.frames.held p (h.frames.present p hpresent)
        exact ⟨by omega, by omega, by omega, p, rfl, by omega⟩

/-- A program gets nowhere in the 4 MB pages. -/
theorem Tables.outside (h : Tables dir s) (huser : acc.user = true)
    (htranslate : translate wp s dir acc a = some x) : Outside a := by
  rcases h.translate_cases htranslate with ⟨-, hkernel, -⟩ | ⟨-, hkernel, -⟩ | ⟨hout, -⟩
  · rw [huser] at hkernel
    cases hkernel
  · rw [huser] at hkernel
    cases hkernel
  · exact hout

/-- The addresses of a slot. -/
theorem slot_eq {k : Nat} : slot a = k ↔ k * 0x400000 ≤ a ∧ a < (k + 1) * 0x400000 := by
  unfold slot
  omega

/-- **No two addresses meet.** -/
theorem Tables.faithful (h : Tables dir s) : Faithful (translate wp s dir acc) := by
  intro a b x ha hb
  rcases h.translate_cases ha with ⟨ha, -, hxa⟩ | ⟨ha, -, hxa⟩ | ⟨-, hlow, -, hoffset, p, hp, hframe⟩ <;>
    rcases h.translate_cases hb with ⟨hb, -, hxb⟩ | ⟨hb, -, hxb⟩ | ⟨-, hlow', -, hoffset', q, hq, hframe'⟩
  case inr.inr.inr.inr =>
    -- the same frame is the same entry, and the same entry is the same page
    obtain rfl := h.frames.inj p q (by omega) (hframe.trans hframe'.symm)
    have hpage := h.view.entry_inj hp hq
    omega
  all_goals
    simp only [slot_eq, kernelPageNumber, kheapPageNumber, heapPhys] at *
    omega

/-! ## One call -/

instance (a : Nat) : Decidable (Outside a) := inferInstanceAs (Decidable (_ ∧ _))

/-- The call maps no page in the 4 MB pages. -/
def AllocateCall.Clear (c : AllocateCall) : Prop := ∀ a ∈ c.pages, Outside a

theorem AllocateCall.Clear.requests {c : AllocateCall} (h : c.Clear) : ∀ r ∈ c.requests, Outside r.address := by
  intro r hr
  obtain ⟨a, ha, rfl⟩ := List.mem_map.mp hr
  exact h a ha

/-- **Mapping pages** outside the 4 MB pages keeps the tables in order, as long as frames remain. -/
theorem Tables.run {rs : List PageRequest} (h : Tables dir s) (hout : ∀ r ∈ rs, Outside r.address)
    (hclear : ClearBefore dir s rs) (hrun : run (WeirdOs.mapPage dir) s rs = .ok s') : Tables dir s' :=
  ⟨h.slots.run hout hrun, (h.frames.run hclear hrun).1, h.view.run hrun⟩

theorem Tables.call {c : AllocateCall} (h : Tables dir s) (hout : c.Clear)
    (hclear : ClearBefore dir s c.requests) (hrun : c.run dir s = .ok s') : Tables dir s' :=
  h.run hout.requests hclear ((c.run_eq s).symm.trans hrun)

/-- **What translates keeps its translation** when more is allocated. -/
theorem Tables.extends {c : AllocateCall} (h : Tables dir s) (h' : Tables dir s')
    (hrun : c.run dir s = .ok s') : Extends (translate wp s dir acc) (translate wp s' dir acc) := by
  intro a x hx
  by_cases hkernel : slot a = kernelPageNumber
  · rw [h'.slots.translate_kernel hkernel, ← h.slots.translate_kernel hkernel]
    exact hx
  by_cases hheap : slot a = kheapPageNumber
  · rw [h'.slots.translate_heap hheap, ← h.slots.translate_heap hheap]
    exact hx
  · -- the entry has a frame, so the call does not decide it
    have hout : Outside a := ⟨hkernel, hheap⟩
    have hpage : a / 0x1000 = a / 0x1000 * 0x1000 / 0x1000 := by omega
    rw [h.slots.translate_outside hout] at hx
    rw [h'.slots.translate_outside hout, pageAt_page hpage]
    rw [pageAt_page hpage] at hx
    obtain ⟨hpresent, -, -⟩ := Page.translate_eq_some.mp hx
    obtain ⟨-, -, hkeep⟩ := AllocateCall.run_granted h.view (Nat.mul_mod_left _ _) hrun
    rw [hkeep]
    · exact hx
    · rintro ⟨-, hzero⟩
      cases hentry : entry s dir (a / 0x1000 * 0x1000) with
      | none =>
          rw [pageAt_of_none hentry] at hpresent
          exact hpresent rfl
      | some p =>
          rw [pageAt_of_entry hentry] at hpresent hzero
          exact h.frames.present p hpresent hzero

/-- The heap has no page left for a table. -/
def outOfHeap : Fault :=
  .assertion "best->size + distance >= size && \"Out of heap space for aligned malloc\""

/-- `alloc_frame` does not fail, as the bitmap is not too large. -/
theorem allocFrame_ok {p k w : Nat} (hn : s.nframes = 0x4000) : ∃ t, allocFrame s p k w = .ok t := by
  by_cases hzero : (s.pages p).frame = 0
  · exact ⟨_, allocFrame_of_zero (firstFrame_lt (by omega)) hzero⟩
  · exact ⟨s, if_pos hzero⟩

theorem kmallocAp_ok {table phys sz : Nat} {rest : List Nat} (hheap : s.kheap = some (table :: rest))
    (hphys : getPhys s table s.kernelDirectory = .ok phys) :
    kmallocAp s sz = .ok (table, phys, { s with kheap := some rest }) := by
  simp only [kmallocAp, hheap, hphys, ok_bind, pure_eq_ok]

theorem kmallocAp_error {sz : Nat} (hheap : s.kheap = some []) : kmallocAp s sz = .error outOfHeap := by
  simp only [kmallocAp, hheap, throw_eq_error, outOfHeap]

/-- **`get_page`** where there is no table does what `kmalloc_ap` does, and adds the table. -/
theorem getPage_fresh (hnone : entry s dir a = none) :
    (∀ {table phys t}, kmallocAp s 0x1000 = .ok (table, phys, t) → phys % 4096 = 0 →
      getPage s a true dir =
        .ok (some (table + 4 * (a / 0x1000 % 1024)), addTable t dir (slot a) table phys)) ∧
    ∀ {e}, kmallocAp s 0x1000 = .error e → getPage s a true dir = .error e := by
  have hslot : (s.dirs dir).tables (a / 0x1000 / 1024) = 0 := entry_eq_none.mp hnone
  unfold getPage
  dsimp only
  rw [hslot, if_neg (not_not_intro rfl), if_pos rfl]
  constructor
  · intro table phys t hk haligned
    rw [← and_offsetMask] at haligned
    rw [hk, ok_bind]
    dsimp only
    rw [decide_eq_true haligned]
    rfl
  · intro e hk
    rw [hk, error_bind]

/-- **Mapping a page** fails only for want of a table. -/
theorem Slots.mapPage_ok {r : PageRequest} (h : Slots dir s) (hn : s.nframes = 0x4000) :
    (∃ t, WeirdOs.mapPage dir s r = .ok t) ∨ WeirdOs.mapPage dir s r = .error outOfHeap := by
  cases hentry : entry s dir r.address with
  | some p =>
      obtain ⟨t, ht⟩ := allocFrame_ok (p := p) (k := r.isKernel) (w := r.isWritable) hn
      exact Or.inl ⟨t, mapPage_eq_ok.mpr ⟨p, s, getPage_of_entry true hentry, ht⟩⟩
  | none =>
      obtain ⟨heap, hheap, -, hpages⟩ := h.inv.heap
      cases heap with
      | nil =>
          right
          unfold WeirdOs.mapPage
          rw [(getPage_fresh hentry).2 (kmallocAp_error hheap), error_bind]
      | cons table rest =>
          -- the table is in the heap, which is mapped, and aligned
          obtain ⟨hlo, hhi, haligned⟩ := (hpages table List.mem_cons_self).1
          have hk : kmallocAp s 0x1000 = .ok (table, heapPhys table, { s with kheap := some rest }) :=
            kmallocAp_ok hheap (getPhys_heap h.inv.heapSlot hlo hhi)
          have hget := (getPage_fresh hentry).1 hk (by unfold heapPhys; omega)
          let u := addTable { s with kheap := some rest } dir (slot r.address) table (heapPhys table)
          obtain ⟨t, ht⟩ := allocFrame_ok (s := u) (p := table + 4 * (r.address / 0x1000 % 1024))
            (k := r.isKernel) (w := r.isWritable) hn
          exact Or.inl ⟨t, mapPage_eq_ok.mpr ⟨_, u, hget, ht⟩⟩

/-- **A call of `allocate`** returns, or stops for want of a table. -/
theorem Tables.call_ok {c : AllocateCall} (h : Tables dir s) (hout : c.Clear)
    (hclear : ClearBefore dir s c.requests) :
    (∃ t, c.run dir s = .ok t) ∨ c.run dir s = .error outOfHeap := by
  rw [AllocateCall.run_eq]
  have hrequests := hout.requests
  generalize c.requests = rs at hclear hrequests
  induction rs generalizing s with
  | nil => exact Or.inl ⟨s, rfl⟩
  | cons r rs ih =>
      rcases h.slots.mapPage_ok (r := r) h.frames.nframes with ⟨t, ht⟩ | herror
      · obtain ⟨hr, hrs⟩ := List.forall_mem_cons.mp hrequests
        have hone : Lib.run (WeirdOs.mapPage dir) s [r] = .ok t := run_cons.mpr ⟨t, ht, rfl⟩
        obtain ⟨hfirst, hrest⟩ := ClearBefore.append hclear hone
        rw [Lib.run, ht, ok_bind]
        exact ih (h.run (List.forall_mem_singleton.mpr hr) hfirst hone) hrest hrs
      · right
        rw [Lib.run, herror, error_bind]

/-! ## Access rights -/

/-- The rights of a page are those that a call was made for. -/
theorem Page.Granted.translate {page : Page} {c : AllocateCall}
    (h : page.Granted c.isKernel.toNat c.isWritable.toNat) :
    page.translate wp acc a = if c.permits wp acc then some (page.frame * 0x1000 + a % 0x1000) else none := by
  have hzero : ∀ n : UInt32, n.toNat = 0 ↔ n = 0 := fun n => by
    rw [← UInt32.toNat_inj]
    rfl
  have hrw : page.rw ≠ 0 ↔ c.isWritable ≠ 0 := by
    rw [h.rw, ← (hzero _).ne]
    split <;> simp_all
  have huser : page.user ≠ 0 ↔ c.isKernel = 0 := by
    rw [h.user, ← hzero]
    split <;> simp_all
  unfold Page.translate AllocateCall.permits
  rw [h.present, decide_eq_decide.mpr hrw, decide_eq_decide.mpr huser]
  rfl

/-- **The page of an address is as the first call that maps it wants it**, or it is not there. -/
theorem Untouched.granted (hs : Untouched dir s) (hroom : (calls.flatMap AllocateCall.requests).length ≤ 14336)
    (hrun : runAllocate dir s calls = .ok s') (a : Nat) :
    (grantedBy calls a = none → pageAt s' dir a = Page.zero) ∧
    ∀ c, grantedBy calls a = some c → (pageAt s' dir a).Granted c.isKernel.toNat c.isWritable.toNat := by
  have hpage : a / 0x1000 = a / 0x1000 * 0x1000 / 0x1000 := by omega
  have haligned : a / 0x1000 * 0x1000 % 0x1000 = 0 := Nat.mul_mod_left _ _
  have hzero : pageAt s dir (a / 0x1000 * 0x1000) = Page.zero := pageAt_of_none (entry_eq_none.mpr (hs.tables _))
  obtain ⟨hdecided, hnone⟩ := pageAt_decided hs.viewInv haligned hrun
  rw [decider_eq_find? hs.viewInv hs.frameInv (hs.clearBefore hroom) haligned (by rw [hzero]; rfl) hrun]
    at hdecided hnone
  rw [pageAt_page hpage]
  exact ⟨fun hg => (hnone hg).trans hzero, hdecided⟩

theorem grantedBy_some {c : AllocateCall} (h : grantedBy calls a = some c) :
    c ∈ calls ∧ a / 0x1000 * 0x1000 ∈ c.pages :=
  ⟨List.mem_of_find?_eq_some h, by simpa using List.find?_some h⟩

/-- No call maps a page in the 4 MB pages. -/
theorem grantedBy_outside (hout : ∀ c ∈ calls, c.Clear) (h : ¬ Outside a) : grantedBy calls a = none := by
  cases hg : grantedBy calls a with
  | none => rfl
  | some c =>
      obtain ⟨hc, hpage⟩ := grantedBy_some hg
      refine absurd ?_ h
      have hslot : slot (a / 0x1000 * 0x1000) = slot a := by
        unfold slot
        omega
      have := hout c hc _ hpage
      unfold Outside at this ⊢
      rwa [hslot] at this

/-- **Who gets through**: outside the 4 MB pages, those that a call was made for; inside, no program. -/
theorem Untouched.translate_isSome (hs : Untouched dir s) (h : Tables dir s') (hclear : ∀ c ∈ calls, c.Clear)
    (hroom : (calls.flatMap AllocateCall.requests).length ≤ 14336)
    (hrun : runAllocate dir s calls = .ok s') (hin : Outside a ∨ acc.user = true) :
    (translate wp s' dir acc a).isSome = (grantedBy calls a).any fun c => c.permits wp acc := by
  by_cases hout : Outside a
  · rw [h.slots.translate_outside hout]
    obtain ⟨hnone, hsome⟩ := hs.granted hroom hrun a
    cases hg : grantedBy calls a with
    | none =>
        rw [hnone hg]
        rfl
    | some c =>
        rw [(hsome c hg).translate, Option.any_some]
        cases c.permits wp acc <;> rfl
  · rw [grantedBy_outside hclear hout]
    cases hx : translate wp s' dir acc a with
    | none => rfl
    | some x => exact absurd (h.outside (hin.resolve_left hout) hx) hout

/-- **The tables that calls leave** are in order. -/
theorem Untouched.tables_after (hs : Untouched dir s) (h : Tables dir s) (hclear : ∀ c ∈ calls, c.Clear)
    (hroom : (calls.flatMap AllocateCall.requests).length ≤ 14336)
    (hrun : runAllocate dir s calls = .ok s') : Tables dir s' := by
  refine h.run (fun r hr => ?_) (hs.clearBefore hroom) ((runAllocate_eq ..).symm.trans hrun)
  obtain ⟨c, hc, hr⟩ := List.mem_flatMap.mp hr
  exact (hclear c hc).requests r hr

/-! ## From boot on -/

/-- **What `initialise_paging` leaves** is in order: nothing is mapped but the two pages of 4 MB. -/
theorem initialisePaging_tables {frames : Nat → Nat} {heap : List Nat}
    (hmem : ∀ i, 128 ≤ i → i < 512 → frames i = 0) (hapart : heap.Pairwise Apart)
    (hheap : ∀ a ∈ heap, HeapPage a) (hboot : initialisePaging frames (fun _ => Page.zero) heap = .ok s) :
    Untouched s.kernelDirectory s ∧ Tables s.kernelDirectory s := by
  have hnonnull : ∀ a ∈ heap, a ≠ 0 := fun a ha => (hheap a ha).ne_zero
  obtain ⟨t, ht, hnew⟩ := initialisePaging_untouched frames heap hmem hapart hnonnull
  obtain rfl := Except.ok.inj (hboot.symm.trans ht)
  obtain ⟨t, ht, -, -, hkheap, hdir, -⟩ := initialisePaging_spec frames (fun _ => Page.zero) heap
  obtain rfl := Except.ok.inj (hboot.symm.trans ht)
  have hnodup : heap.Nodup := hapart.imp fun h heq => by
    unfold Apart at h
    omega
  have hslot : (s.dirs s.kernelDirectory).tablesPhysical kheapPageNumber = 0x400083 := by
    rw [hdir]
    rfl
  refine ⟨hnew, ⟨DirInv.init hdir hslot hkheap hnodup hheap, ?_, hslot, ?_⟩, hnew.frameInv, hnew.viewInv⟩
  · rw [hdir]
    rfl
  · intro k hk hk' _
    rw [hdir]
    exact (Function.update_of_ne hk' ..).trans (Function.update_of_ne hk ..)

/-- **What the MMU lets through.** After boot, on memory that is zero where words 128 to 511 of the bitmap
    are put (only the words before are cleared), with pages of the heap for tables that are apart, and any
    calls of `allocate` that stay out of the two 4 MB pages and together map at most 14336 pages, counting
    a page as often as it is mapped: no two addresses are translated to the same place; the kernel reaches
    itself and its heap in the first 8 MB, and no program does; any other address is translated for those
    accesses that the first call that maps its page was made for, and to a place past the first 8 MB. -/
theorem mmu_grants {frames : Nat → Nat} {heap : List Nat} (hmem : ∀ i, 128 ≤ i → i < 512 → frames i = 0)
    (hapart : heap.Pairwise Apart) (hheap : ∀ a ∈ heap, HeapPage a)
    (hboot : initialisePaging frames (fun _ => Page.zero) heap = .ok s) (hclear : ∀ c ∈ calls, c.Clear)
    (hroom : (calls.flatMap AllocateCall.requests).length ≤ 14336)
    (hrun : runAllocate s.kernelDirectory s calls = .ok s') (wp : Bool) (acc : Access) :
    Faithful (translate wp s' s.kernelDirectory acc) ∧
    ∀ a, (slot a = kernelPageNumber →
        translate wp s' s.kernelDirectory acc a = if acc.user then none else some (a - 0xc0000000)) ∧
      (slot a = kheapPageNumber →
        translate wp s' s.kernelDirectory acc a = if acc.user then none else some (heapPhys a)) ∧
      (Outside a →
        (translate wp s' s.kernelDirectory acc a).isSome =
            ((grantedBy calls a).any fun c => c.permits wp acc) ∧
          ∀ x, translate wp s' s.kernelDirectory acc a = some x →
            0x800000 ≤ x ∧ x < 0x4000000 ∧ x % 0x1000 = a % 0x1000) := by
  obtain ⟨hs, htables⟩ := initialisePaging_tables hmem hapart hheap hboot
  have h : Tables s.kernelDirectory s' := hs.tables_after htables hclear hroom hrun
  refine ⟨h.faithful, fun a => ⟨h.slots.translate_kernel, h.slots.translate_heap, fun hout => ⟨?_, ?_⟩⟩⟩
  · exact hs.translate_isSome h hclear hroom hrun (Or.inl hout)
  · intro x hx
    rcases h.translate_cases hx with ⟨hslot, -⟩ | ⟨hslot, -⟩ | ⟨-, hlow, hhigh, hoffset, -⟩
    · exact absurd hslot hout.1
    · exact absurd hslot hout.2
    · exact ⟨hlow, hhigh, hoffset⟩

/-- One page for a program: it can write there, and cannot read the kernel. -/
theorem mmu_grants_page :
    ∃ s s', initialisePaging (fun _ => 0) (fun _ => Page.zero) [0xd0001000] = .ok s ∧
      runAllocate s.kernelDirectory s [⟨0x1000, 0x1000, 0, 1⟩] = .ok s' ∧
      (translate true s' s.kernelDirectory ⟨true, true⟩ 0x1234).isSome = true ∧
      translate true s' s.kernelDirectory ⟨true, false⟩ 0xc0000000 = none := by
  obtain ⟨s, hs, -⟩ := initialisePaging_spec (fun _ => 0) (fun _ => Page.zero) [0xd0001000]
  have hrun : ((initialisePaging (fun _ => 0) (fun _ => Page.zero) [0xd0001000]).toOption.bind fun s =>
      (runAllocate s.kernelDirectory s [⟨0x1000, 0x1000, 0, 1⟩]).toOption).isSome = true := by
    decide +kernel
  obtain ⟨s', hs'⟩ := Option.isSome_iff_exists.mp hrun
  rw [hs] at hs'
  have hcalls := toOption_eq_some.mp hs'
  have hclear : ∀ c ∈ [(⟨0x1000, 0x1000, 0, 1⟩ : AllocateCall)], c.Clear := by
    unfold AllocateCall.Clear
    decide
  have hgrants := fun acc => (mmu_grants (fun _ _ _ => rfl) (List.pairwise_singleton ..)
    (by simp [HeapPage]) hs hclear (by decide) hcalls true acc).2
  refine ⟨s, s', hs, hcalls, ?_, ?_⟩
  · rw [((hgrants _ 0x1234).2.2 (by decide)).1]
    decide
  · rw [(hgrants _ 0xc0000000).1 (by decide)]
    rfl

end WeirdOs
