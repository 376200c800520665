import WeirdOs.Paging.Correctness.Frames

/-!
# `Paging.Correctness.Directory` — the two arrays of a page directory

A directory lists its tables twice: `tables` has the addresses the kernel uses, `tables_physical` those
the MMU uses. `DirInv` says that they stay in step: each physical entry is the translation of the table
under the 4 MB mapping of the heap, and no table serves two slots. From it follow what callers of
`get_page` rely on: entries do not move, tell pages apart, and are where the MMU looks.

The translation goes through the kernel directory, which may be the very directory being filled. That
is why addresses in the two 4 MB slots are left out.
-/

namespace WeirdOs

open Lib

variable {s s' : Paging} {dir a p : Nat}

/-! ## The heap's 4 MB mapping -/

/-- A page-aligned address in the heap. -/
def HeapPage (a : Nat) : Prop := 0xd0000000 ≤ a ∧ a < 0xd0400000 ∧ a % 4096 = 0

/-- Where an address of the heap is in physical memory: the heap is mapped to the second 4 MB. -/
def heapPhys (a : Nat) : Nat := a - 0xd0000000 + 0x400000

/-- **`get_phys`** of an address of the heap. -/
theorem getPhys_heap (h : (s.dirs dir).tablesPhysical kheapPageNumber = 0x400083)
    (hlo : 0xd0000000 ≤ a) (hhi : a < 0xd0400000) : getPhys s a dir = .ok (heapPhys a) := by
  have hidx : a / 0x1000 / 0x400 = kheapPageNumber := by
    unfold kheapPageNumber
    omega
  have hbit : (0x400083 : Nat) &&& 0x80 ≠ 0 := by decide
  have hbase : (0x400083 : Nat) &&& 0xfffff000 = 0x400000 := by decide
  unfold getPhys heapPhys
  simp only [hidx, h, hbit, hbase, ne_eq, not_false_eq_true, if_true, pure_eq_ok]
  rw [add32_of_lt (by omega), show 0x400000 + a % 0x400000 = a - 0xd0000000 + 0x400000 from by omega]

/-- The physical entry of a table leads back to the table. -/
theorem tableEntry_base {x : Nat} (h : x % 4096 = 0) (hx : x < 4294967296) :
    (x ||| 0x7) &&& 0xfffff000 = x := by
  obtain ⟨y, rfl⟩ : ∃ y, x = 2 ^ 12 * y := ⟨x / 4096, by omega⟩
  rw [← Nat.two_pow_add_eq_or_of_lt (show 7 < 2 ^ 12 by decide) y, and_pageMask (by omega)]
  omega

/-! ## The invariant -/

/-- **The directory invariant.** -/
structure DirInv (dir : Nat) (s : Paging) : Prop where
  heapSlot : (s.dirs s.kernelDirectory).tablesPhysical kheapPageNumber = 0x400083
  heap : ∃ heap, s.kheap = some heap ∧ heap.Nodup ∧
    ∀ a ∈ heap, HeapPage a ∧ ∀ k, (s.dirs dir).tables k ≠ a
  table : ∀ k, (s.dirs dir).tables k ≠ 0 → HeapPage ((s.dirs dir).tables k) ∧
    (s.dirs dir).tablesPhysical k = heapPhys ((s.dirs dir).tables k) ||| 0x7
  inj : ∀ j k, (s.dirs dir).tables j ≠ 0 → (s.dirs dir).tables j = (s.dirs dir).tables k → j = k

/-- The address is in neither of the slots mapped as 4 MB pages. -/
def Outside (a : Nat) : Prop := slot a ≠ kernelPageNumber ∧ slot a ≠ kheapPageNumber

theorem HeapPage.ne_zero (h : HeapPage a) : a ≠ 0 := by
  have := h.1
  omega

/-- **A table from the heap** keeps the invariant, in a slot that is not mapped as a 4 MB page. -/
theorem DirInv.addTable {rest : List Nat} {i table : Nat} (h : DirInv dir s)
    (hheap : i ≠ kheapPageNumber) (hnodup : (table :: rest).Nodup)
    (hpages : ∀ b ∈ table :: rest, HeapPage b ∧ ∀ k, (s.dirs dir).tables k ≠ b) :
    DirInv dir (addTable { s with kheap := some rest } dir i table (heapPhys table)) := by
  obtain ⟨hnotin, hnodup'⟩ := List.nodup_cons.mp hnodup
  obtain ⟨htable, hnew⟩ := hpages table List.mem_cons_self
  let t := WeirdOs.addTable { s with kheap := some rest } dir i table (heapPhys table)
  have htables : ∀ k, (t.dirs dir).tables k = if k = i then table else (s.dirs dir).tables k :=
    fun k => tables_addTable
  have hphysical : ∀ k, (t.dirs dir).tablesPhysical k =
      if k = i then heapPhys table ||| 0x7 else (s.dirs dir).tablesPhysical k :=
    fun k => tablesPhysical_addTable
  refine ⟨?_, ⟨rest, rfl, hnodup', fun b hb => ⟨(hpages b (List.mem_cons_of_mem _ hb)).1, ?_⟩⟩,
    ?_, ?_⟩
  · show (t.dirs s.kernelDirectory).tablesPhysical kheapPageNumber = 0x400083
    by_cases hd : s.kernelDirectory = dir
    · rw [hd, hphysical, if_neg (Ne.symm hheap), ← hd]
      exact h.heapSlot
    · have hsame : t.dirs s.kernelDirectory = s.dirs s.kernelDirectory := Function.update_of_ne hd ..
      rw [hsame]
      exact h.heapSlot
  · -- the pages still to be handed out are not the one that was
    intro k
    rw [htables]
    split
    · exact fun heq => hnotin (heq ▸ hb)
    · exact (hpages b (List.mem_cons_of_mem _ hb)).2 k
  · intro k hk
    rw [htables] at hk ⊢
    rw [hphysical]
    split
    · exact ⟨htable, rfl⟩
    next hs =>
      rw [if_neg hs] at hk
      exact h.table k hk
  · intro j k hj hjk
    rw [htables] at hj hjk
    rw [htables] at hjk
    by_cases hj' : j = i
    · by_cases hk' : k = i
      · rw [hj', hk']
      · rw [if_pos hj', if_neg hk'] at hjk
        exact absurd hjk.symm (hnew k)
    · rw [if_neg hj'] at hj hjk
      by_cases hk' : k = i
      · rw [if_pos hk'] at hjk
        exact absurd hjk (hnew j)
      · rw [if_neg hk'] at hjk
        exact h.inj j k hj hjk

/-- **Getting an entry** keeps the invariant and every entry. -/
theorem DirInv.getPage {r : Option Nat} (h : DirInv dir s) (hout : Outside a)
    (hget : getPage s a true dir = .ok (r, s')) :
    DirInv dir s' ∧ (∃ p, r = some p ∧ entry s' dir a = some p) ∧
      ∀ b q, entry s dir b = some q → entry s' dir b = some q := by
  rcases getPage_cases hget with ⟨p, hp, hr, rfl⟩ | ⟨hnone, table, addr, s₁, hk, _, hr, rfl⟩
  · exact ⟨h, ⟨p, hr, hp⟩, fun _ _ hb => hb⟩
  · obtain ⟨heap, hheap, hnodup, hpages⟩ := h.heap
    obtain ⟨rest, rfl, hphys, rfl⟩ := kmallocAp_cases hheap hk
    have htable := (hpages table List.mem_cons_self).1
    rw [getPhys_heap h.heapSlot htable.1 htable.2.1] at hphys
    cases hphys
    have hslot : (s.dirs dir).tables (slot a) = 0 := entry_eq_none.mp hnone
    exact ⟨h.addTable hout.2 hnodup hpages, ⟨_, hr, entry_addTable_self htable.ne_zero⟩,
      fun b q hb => entry_addTable_keep hslot hb⟩

/-- Allocating a frame does not touch directories. -/
theorem allocFrame_dirs {k w : Nat} (h : allocFrame s p k w = .ok s') :
    s'.dirs = s.dirs ∧ s'.kernelDirectory = s.kernelDirectory ∧ s'.kheap = s.kheap := by
  rcases allocFrame_cases h with ⟨_, rfl⟩ | ⟨_, rfl⟩ <;> exact ⟨rfl, rfl, rfl⟩

theorem DirInv.allocFrame {k w : Nat} (h : DirInv dir s) (halloc : allocFrame s p k w = .ok s') :
    DirInv dir s' ∧ ∀ b, entry s' dir b = entry s dir b := by
  obtain ⟨hdirs, hkernel, hheap⟩ := allocFrame_dirs halloc
  refine ⟨⟨?_, ?_, ?_, ?_⟩, entry_congr hdirs⟩
  · rw [hdirs, hkernel]
    exact h.heapSlot
  · rw [hdirs, hheap]
    exact h.heap
  · rw [hdirs]
    exact h.table
  · rw [hdirs]
    exact h.inj

/-! ## Runs -/

/-- A call of `get_page(a, 1, dir)`, or of `alloc_frame` on its result. -/
inductive PageOp where
  | getPage (a : UInt32)
  | allocFrame (a : UInt32) (isKernel isWriteable : UInt32)
deriving DecidableEq, Repr

/-- The address an operation is about. -/
def PageOp.address : PageOp → Nat
  | .getPage a => a.toNat
  | .allocFrame a _ _ => a.toNat

def pageStep (dir : Nat) (s : Paging) : PageOp → Exec Paging
  | .getPage a => do
    let (_, s) ← getPage s a.toNat true dir
    return s
  | .allocFrame a isKernel isWriteable => mapPage dir s ⟨a.toNat, isKernel.toNat, isWriteable.toNat⟩

/-- The operations in order. -/
def runPages (dir : Nat) : Paging → List PageOp → Exec Paging := run (pageStep dir)

/-- **One operation** keeps the invariant and every entry. -/
theorem DirInv.step {o : PageOp} (h : DirInv dir s) (hout : Outside o.address)
    (hstep : pageStep dir s o = .ok s') :
    DirInv dir s' ∧ ∀ b q, entry s dir b = some q → entry s' dir b = some q := by
  cases o with
  | getPage a =>
      obtain ⟨⟨r, s₁⟩, hget, hret⟩ := bind_eq_ok.mp hstep
      cases hret
      obtain ⟨h', _, hkeep⟩ := h.getPage hout hget
      exact ⟨h', hkeep⟩
  | allocFrame a k w =>
      obtain ⟨p, s₁, hget, halloc⟩ := mapPage_eq_ok.mp hstep
      obtain ⟨h₁, _, hkeep⟩ := h.getPage hout hget
      obtain ⟨h', hsame⟩ := h₁.allocFrame halloc
      exact ⟨h', fun b q hb => by rw [hsame]; exact hkeep b q hb⟩

/-- **A run** keeps the invariant and every entry. -/
theorem DirInv.run {ops : List PageOp} (h : DirInv dir s) (hout : ∀ o ∈ ops, Outside o.address)
    (hrun : runPages dir s ops = .ok s') :
    DirInv dir s' ∧ ∀ b q, entry s dir b = some q → entry s' dir b = some q :=
  run_invariant_of (fun t => DirInv dir t ∧ ∀ b q, entry s dir b = some q → entry t dir b = some q)
    (fun _ _ _ hok ⟨ht, hkeep⟩ hstep => by
      obtain ⟨ht', hkeep'⟩ := ht.step hok hstep
      exact ⟨ht', fun b q hb => hkeep' b q (hkeep b q hb)⟩)
    hout ⟨h, fun _ _ hb => hb⟩ hrun

/-- A directory fresh from `fork_page` satisfies the invariant. -/
theorem DirInv.init {heap : List Nat} {phys : Nat} (hdir : s.dirs dir = forkedDirectory phys)
    (hkernel : (s.dirs s.kernelDirectory).tablesPhysical kheapPageNumber = 0x400083)
    (hheap : s.kheap = some heap) (hnodup : heap.Nodup) (hpages : ∀ a ∈ heap, HeapPage a) :
    DirInv dir s := by
  have hnull : ∀ k, (s.dirs dir).tables k = 0 := fun k => by rw [hdir]; rfl
  refine ⟨hkernel, ⟨heap, hheap, hnodup, fun a ha => ⟨hpages a ha, ?_⟩⟩,
    fun k hk => absurd (hnull k) hk, fun j _ hj => absurd (hnull j) hj⟩
  intro k
  rw [hnull]
  exact (hpages a ha).ne_zero.symm

/-- What `fork_page` returns is such a directory, and the rest of the heap is left to its tables. -/
theorem forkPage_spec {heap : List Nat} (hheap : s.kheap = some heap) (h : forkPage s = .ok (dir, s')) :
    ∃ phys rest, heap = dir :: rest ∧ s'.dirs dir = forkedDirectory phys ∧ s'.kheap = some rest ∧
      s'.kernelDirectory = s.kernelDirectory ∧ ∀ d ≠ dir, s'.dirs d = s.dirs d := by
  obtain ⟨⟨d, phys, s₁⟩, hmalloc, hret⟩ := bind_eq_ok.mp h
  obtain ⟨rest, hrest, _, rfl⟩ := kmallocAp_cases hheap hmalloc
  cases hret
  exact ⟨phys, rest, hrest, Function.update_self .., rfl, rfl, fun d hd => Function.update_of_ne hd ..⟩

/-! ## The MMU -/

/-- The walk of the MMU through a directory: the physical address of the entry it reads for an address
    that is not in a 4 MB page. -/
def mmuEntry (d : PageDirectory) (a : Nat) : Option Nat :=
  let e := d.tablesPhysical (a / 0x400000)
  if e &&& 0x1 ≠ 0 ∧ e &&& 0x80 = 0 then some ((e &&& 0xfffff000) + 4 * (a / 0x1000 % 1024)) else none

/-- **The MMU and `get_page` agree** on where an entry is. -/
theorem DirInv.mmu (h : DirInv dir s) (hentry : entry s dir a = some p) :
    ∃ phys, getPhys s p s.kernelDirectory = .ok phys ∧ mmuEntry (s.dirs dir) a = some phys := by
  obtain ⟨ht, rfl⟩ := entry_eq_some.mp hentry
  obtain ⟨htable, hphysical⟩ := h.table _ ht
  generalize (s.dirs dir).tables (slot a) = table at *
  have hphys : heapPhys table % 4096 = 0 ∧ heapPhys table < 4294967296 := by
    unfold HeapPage at htable
    unfold heapPhys
    omega
  obtain ⟨hpresent, hsmall⟩ := tableEntry_flags hphys.1
  have hbase := tableEntry_base hphys.1 hphys.2
  unfold HeapPage at htable
  refine ⟨_, getPhys_heap h.heapSlot (by omega) (by omega), ?_⟩
  have hslot : a / 0x400000 = slot a := by
    unfold slot
    omega
  unfold mmuEntry
  simp only [hslot, hphysical, hpresent, hsmall, hbase, ne_eq, not_false_eq_true, and_self, if_true]
  -- the heap is mapped as one piece, so the entry moves with its table
  unfold heapPhys
  rw [show table + 4 * (a / 0x1000 % 1024) - 0xd0000000 + 0x400000 =
    table - 0xd0000000 + 0x400000 + 4 * (a / 0x1000 % 1024) from by omega]

/-- **Entries tell pages apart.** -/
theorem DirInv.entry_inj (h : DirInv dir s) {b q : Nat} (ha : entry s dir a = some p)
    (hb : entry s dir b = some q) : p = q ↔ a / 0x1000 = b / 0x1000 := by
  obtain ⟨hta, rfl⟩ := entry_eq_some.mp ha
  obtain ⟨htb, rfl⟩ := entry_eq_some.mp hb
  constructor
  · intro heq
    -- both tables are page-aligned, so table and index agree
    have hpa := (h.table _ hta).1
    have hpb := (h.table _ htb).1
    unfold HeapPage at hpa hpb
    have htable : (s.dirs dir).tables (slot a) = (s.dirs dir).tables (slot b) := by omega
    have hslot := h.inj _ _ hta htable
    unfold slot at hslot
    omega
  · intro heq
    unfold slot
    rw [heq]

/-- What an operation leaves: the entry of its address is there. -/
theorem DirInv.step_entry {o : PageOp} (h : DirInv dir s) (hout : Outside o.address)
    (hstep : pageStep dir s o = .ok s') : ∃ p, entry s' dir o.address = some p := by
  cases o with
  | getPage a =>
      obtain ⟨⟨r, s₁⟩, hget, hret⟩ := bind_eq_ok.mp hstep
      cases hret
      obtain ⟨_, ⟨p, _, hp⟩, _⟩ := h.getPage hout hget
      exact ⟨p, hp⟩
  | allocFrame a k w =>
      obtain ⟨q, s₁, hget, halloc⟩ := mapPage_eq_ok.mp hstep
      obtain ⟨h₁, ⟨p, _, hp⟩, _⟩ := h.getPage hout hget
      obtain ⟨_, hsame⟩ := h₁.allocFrame halloc
      exact ⟨p, (hsame _).trans hp⟩

/-- What a run leaves: the entries of all its addresses are there. -/
theorem DirInv.run_entry {ops : List PageOp} {o : PageOp} (h : DirInv dir s)
    (hout : ∀ o ∈ ops, Outside o.address) (hrun : runPages dir s ops = .ok s') (ho : o ∈ ops) :
    ∃ p, entry s' dir o.address = some p := by
  obtain ⟨pre, post, rfl⟩ := List.append_of_mem ho
  obtain ⟨s₁, hpre, hrest⟩ := run_append.mp hrun
  obtain ⟨s₂, hstep, hpost⟩ := run_cons.mp hrest
  have hpreOut : ∀ o ∈ pre, Outside o.address := fun o ho => hout o (List.mem_append_left _ ho)
  have hpostOut : ∀ o ∈ post, Outside o.address :=
    fun o ho => hout o (List.mem_append_right _ (List.mem_cons_of_mem _ ho))
  obtain ⟨h₁, _⟩ := h.run hpreOut hpre
  obtain ⟨p, hp⟩ := h₁.step_entry (hout o ho) hstep
  obtain ⟨h₂, _⟩ := h₁.step (hout o ho) hstep
  exact ⟨p, (h₂.run hpostOut hpost).2 _ _ hp⟩

/-- `p` is the entry of an address: `get_page(a, 1, dir)` returns it and changes nothing, it is the one that
    `alloc_frame` is called on when the address is mapped, and the walk of the MMU for the address reads it. -/
structure EntryOf (dir : Nat) (s : Paging) (a p : Nat) : Prop where
  getPage : WeirdOs.getPage s a true dir = .ok (some p, s)
  mapPage : ∀ isKernel isWritable,
    WeirdOs.mapPage dir s ⟨a, isKernel, isWritable⟩ = WeirdOs.allocFrame s p isKernel isWritable
  mmu : ∃ x, getPhys s p s.kernelDirectory = .ok x ∧ mmuEntry (s.dirs dir) a = some x

theorem DirInv.entryOf (h : DirInv dir s) (hentry : entry s dir a = some p) : EntryOf dir s a p where
  getPage := getPage_of_entry true hentry
  mapPage isKernel isWritable := by
    unfold WeirdOs.mapPage
    rw [getPage_of_entry true hentry]
    rfl
  mmu := h.mmu hentry

/-- **The two arrays of a directory stay in step.** In every run of `get_page` and `alloc_frame` at
    addresses outside the 4 MB slots, starting from a directory of `fork_page`: the physical entries
    are the translations of the tables; what `get_page` returns is the entry of the address then and after
    all that follows, the one the MMU reads and `alloc_frame` fills; entries tell pages apart; and every
    address of the run has one. -/
theorem directory_run {heap : List Nat} {phys : Nat} {s₀ : Paging} {ops : List PageOp}
    (hdir : s₀.dirs dir = forkedDirectory phys)
    (hkernel : (s₀.dirs s₀.kernelDirectory).tablesPhysical kheapPageNumber = 0x400083)
    (hheap : s₀.kheap = some heap) (hnodup : heap.Nodup) (hpages : ∀ a ∈ heap, HeapPage a)
    (hout : ∀ o ∈ ops, Outside o.address) (hrun : runPages dir s₀ ops = .ok s) :
    (∀ k, (s.dirs dir).tables k ≠ 0 →
      (s.dirs dir).tablesPhysical k = heapPhys ((s.dirs dir).tables k) ||| 0x7) ∧
    (∀ a p s₁, Outside a → getPage s a true dir = .ok (some p, s₁) →
      ∀ ops' s₂, (∀ o ∈ ops', Outside o.address) → runPages dir s₁ ops' = .ok s₂ →
        EntryOf dir s₂ a p ∧
        ∀ b q s₃, Outside b → getPage s₂ b true dir = .ok (some q, s₃) →
          (p = q ↔ a / 0x1000 = b / 0x1000)) ∧
    (∀ o ∈ ops, ∃ p, EntryOf dir s o.address p) ∧
    ∀ a p s₁, getPage s a false dir = .ok (some p, s₁) → EntryOf dir s a p := by
  have h₀ := DirInv.init hdir hkernel hheap hnodup hpages
  obtain ⟨h, _⟩ := h₀.run hout hrun
  refine ⟨fun k hk => (h.table k hk).2, ?_, ?_, ?_⟩
  · intro a p s₁ ha hget ops' s₂ hout' hrun'
    obtain ⟨h₁, ⟨p', hp', hentry⟩, _⟩ := h.getPage ha hget
    cases hp'
    obtain ⟨h₂, hkeep⟩ := h₁.run hout' hrun'
    have hentry₂ := hkeep a p hentry
    refine ⟨h₂.entryOf hentry₂, ?_⟩
    intro b q s₃ hb hgetb
    obtain ⟨h₃, ⟨q', hq', hentryb⟩, hkeep'⟩ := h₂.getPage hb hgetb
    cases hq'
    exact h₃.entry_inj (hkeep' a p hentry₂) hentryb
  · intro o ho
    obtain ⟨p, hp⟩ := h₀.run_entry hout hrun ho
    exact ⟨p, h.entryOf hp⟩
  · -- without `make`, `get_page` only returns entries that are there
    intro a p s₁ hget
    refine h.entryOf (entry_eq_some.mpr ?_)
    unfold WeirdOs.getPage at hget
    by_cases ht : (s.dirs dir).tables (slot a) = 0
    · have ht' : (s.dirs dir).tables (a / 0x1000 / 1024) = 0 := ht
      simp [ht'] at hget
    · have ht' : (s.dirs dir).tables (a / 0x1000 / 1024) ≠ 0 := ht
      simp only [ht', ne_eq, not_false_eq_true, if_true, pure_eq_ok, Except.ok.injEq,
        Prod.mk.injEq] at hget
      exact ⟨ht, Option.some.inj hget.1⟩

/-- After boot a directory is made, a page is mapped in it and the entry of another is asked for. Both
    entries are where the MMU reads them, and they are two. -/
theorem directory_run_fork :
    ∃ s₀ s₁ dir s p q, initialisePaging (fun _ => 0) (fun _ => Page.zero)
        [0xd0001000, 0xd0004000, 0xd0005000] = .ok s₀ ∧
      forkPage s₀ = .ok (dir, s₁) ∧
      runPages dir s₁ [.allocFrame 0x1000 0 1, .getPage 0x2000] = .ok s ∧
      EntryOf dir s 0x1000 p ∧ EntryOf dir s 0x2000 q ∧ p ≠ q := by
  let ops : List PageOp := [.allocFrame 0x1000 0 1, .getPage 0x2000]
  obtain ⟨s₀, hs₀, _, _, hheap₀, hdir₀, _⟩ :=
    initialisePaging_spec (fun _ => 0) (fun _ => Page.zero) [0xd0001000, 0xd0004000, 0xd0005000]
  have hruns : ((initialisePaging (fun _ => 0) (fun _ => Page.zero)
      [0xd0001000, 0xd0004000, 0xd0005000]).toOption.bind fun s => (forkPage s).toOption.bind fun r =>
        (runPages r.1 r.2 ops).toOption.map fun _ => s.kernelDirectory) = some 0xc0201000 := by
    decide +kernel
  obtain ⟨s₀', hs₀', hruns⟩ := Option.bind_eq_some_iff.mp hruns
  obtain rfl := Except.ok.inj (hs₀.symm.trans (toOption_eq_some.mp hs₀'))
  obtain ⟨⟨dir, s₁⟩, hfork, hruns⟩ := Option.bind_eq_some_iff.mp hruns
  obtain ⟨s, hrun, hkernel⟩ := Option.map_eq_some_iff.mp hruns
  have hfork := toOption_eq_some.mp hfork
  have hrun := toOption_eq_some.mp hrun
  obtain ⟨phys, rest, hrest, hdir, hheap, hkernel₁, hkeep⟩ := forkPage_spec hheap₀ hfork
  obtain ⟨rfl, rfl⟩ := List.cons.inj hrest
  have hslot : (s₁.dirs s₁.kernelDirectory).tablesPhysical kheapPageNumber = 0x400083 := by
    rw [hkernel₁, hkeep _ (by rw [hkernel]; decide), hdir₀]
    rfl
  have hpages : ∀ a ∈ [0xd0004000, 0xd0005000], HeapPage a := by simp [HeapPage]
  have hout : ∀ o ∈ ops, Outside o.address := by
    simp [ops, PageOp.address, Outside, slot, kernelPageNumber, kheapPageNumber]
  obtain ⟨_, happart, hentries, _⟩ := directory_run hdir hslot hheap (by decide) hpages hout hrun
  obtain ⟨p, hp⟩ := hentries (.allocFrame 0x1000 0 1) List.mem_cons_self
  obtain ⟨q, hq⟩ := hentries (.getPage 0x2000) (List.mem_cons_of_mem _ List.mem_cons_self)
  refine ⟨s₀, s₁, _, s, p, q, hs₀, hfork, hrun, hp, hq, ?_⟩
  -- the first is returned again, and then differs from the second
  have hfirst : Outside 0x1000 := hout (.allocFrame 0x1000 0 1) List.mem_cons_self
  have hsecond : Outside 0x2000 := hout (.getPage 0x2000) (List.mem_cons_of_mem _ List.mem_cons_self)
  obtain ⟨_, hsame⟩ := happart _ _ _ hfirst hp.getPage [] s nofun rfl
  rw [ne_eq, hsame _ _ _ hsecond hq.getPage]
  decide

end WeirdOs
