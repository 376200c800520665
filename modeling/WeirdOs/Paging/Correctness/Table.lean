import WeirdOs.Paging.Page
import WeirdOs.Lib.Exec

/-!
# `Paging.Correctness.Table` — what the page functions do, step by step

`entry` is where the entry of an address is, once its table exists. `get_page` either returns it or adds
a table first (`getPage_cases`); `alloc_frame` either does nothing or takes the first clear frame
(`allocFrame_cases`); and `allocate` is the sequence of both over the pages of its range
(`allocate_eq`), so that a run of `allocate` calls is a run of single pages.
-/

namespace WeirdOs

open Lib

variable {s s' : Paging} {dir a p : Nat}

/-! ## Entries -/

/-- The slot of the directory that an address belongs to. -/
def slot (a : Nat) : Nat := a / 0x1000 / 1024

/-- The entry of an address: nowhere, as long as its table does not exist. -/
def entry (s : Paging) (dir a : Nat) : Option Nat :=
  if (s.dirs dir).tables (slot a) = 0 then none
  else some ((s.dirs dir).tables (slot a) + 4 * (a / 0x1000 % 1024))

theorem entry_eq_none : entry s dir a = none ↔ (s.dirs dir).tables (slot a) = 0 := by
  unfold entry
  split <;> simp_all

theorem entry_eq_some : entry s dir a = some p ↔
    (s.dirs dir).tables (slot a) ≠ 0 ∧ (s.dirs dir).tables (slot a) + 4 * (a / 0x1000 % 1024) = p := by
  unfold entry
  split <;> simp_all

/-- Entries depend on the directories only. -/
theorem entry_congr (h : s'.dirs = s.dirs) (a : Nat) : entry s' dir a = entry s dir a := by
  rw [entry, entry, h]

/-- The frame an address is mapped to; 0 when it is not mapped. -/
def frameAt (s : Paging) (dir a : Nat) : Nat := ((entry s dir a).map fun p => (s.pages p).frame).getD 0

/-- **`get_page`** with `make`: the entry is there, or it is the entry of a new table. -/
theorem getPage_cases {r : Option Nat} (h : getPage s a true dir = .ok (r, s')) :
    (∃ p, entry s dir a = some p ∧ r = some p ∧ s' = s) ∨
    (entry s dir a = none ∧ ∃ table addr s₁, kmallocAp s 0x1000 = .ok (table, addr, s₁) ∧
      addr % 4096 = 0 ∧ r = some (table + 4 * (a / 0x1000 % 1024)) ∧
      s' = addTable s₁ dir (slot a) table addr) := by
  unfold getPage at h
  by_cases ht : (s.dirs dir).tables (slot a) = 0
  · right
    have ht' : (s.dirs dir).tables (a / 0x1000 / 1024) = 0 := ht
    refine ⟨if_pos ht, ?_⟩
    simp only [ht', ne_eq, not_true_eq_false, if_false, if_true] at h
    obtain ⟨⟨table, addr, s₁⟩, hk, h⟩ := bind_eq_ok.mp h
    obtain ⟨u, hassert, h⟩ := bind_eq_ok.mp h
    rw [assert_eq_ok, decide_eq_true_eq, and_offsetMask] at hassert
    simp only [pure_eq_ok, Except.ok.injEq, Prod.mk.injEq] at h
    exact ⟨table, addr, s₁, hk, hassert, h.1.symm, h.2.symm⟩
  · left
    have ht' : (s.dirs dir).tables (a / 0x1000 / 1024) ≠ 0 := ht
    refine ⟨_, if_neg ht, ?_⟩
    simp only [ht', ne_eq, not_false_eq_true, if_true, pure_eq_ok, Except.ok.injEq, Prod.mk.injEq] at h
    exact ⟨h.1.symm, h.2.symm⟩

/-- `get_page` of an address whose table exists. -/
theorem getPage_of_entry (make : Bool) (h : entry s dir a = some p) :
    getPage s a make dir = .ok (some p, s) := by
  obtain ⟨ht, rfl⟩ := entry_eq_some.mp h
  have ht' : (s.dirs dir).tables (a / 0x1000 / 1024) ≠ 0 := ht
  simp only [getPage, ht', ne_eq, not_false_eq_true, if_true, pure_eq_ok]
  rfl

/-- **`alloc_frame`**: the entry has a frame already, or it gets the first clear one. -/
theorem allocFrame_cases {k w : Nat} (h : allocFrame s p k w = .ok s') :
    ((s.pages p).frame ≠ 0 ∧ s' = s) ∨
    ((s.pages p).frame = 0 ∧
      s' = { s with
        frames := setFrame s.frames (word (firstFrame s.frames s.nframes * 0x1000))
        pages := Function.update s.pages p
          { present := 1
            rw := if w ≠ 0 then 1 else 0
            user := if k ≠ 0 then 0 else 1
            frame := firstFrame s.frames s.nframes % 1048576 } }) := by
  unfold allocFrame at h
  split at h
  · rename_i hf
    cases h
    exact Or.inl ⟨hf, rfl⟩
  · rename_i hf
    obtain ⟨_, _, h⟩ := bind_eq_ok.mp h
    cases h
    exact Or.inr ⟨by simpa using hf, rfl⟩

/-- Mapping a page is getting its entry and allocating a frame for it. -/
theorem mapPage_eq_ok {r : PageRequest} :
    mapPage dir s r = .ok s' ↔
      ∃ p s₁, getPage s r.address true dir = .ok (some p, s₁) ∧
        allocFrame s₁ p r.isKernel r.isWritable = .ok s' := by
  unfold mapPage
  constructor
  · intro h
    obtain ⟨⟨page, s₁⟩, hget, h⟩ := bind_eq_ok.mp h
    cases page with
    | none => cases h
    | some p => exact ⟨p, s₁, hget, h⟩
  · rintro ⟨p, s₁, hget, h⟩
    exact bind_eq_ok.mpr ⟨_, hget, h⟩

/-! ## Tables -/

/-- Adding a table leaves the entries of the other slots where they are. -/
theorem tables_addTable {i table addr k : Nat} :
    ((addTable s dir i table addr).dirs dir).tables k =
      if k = i then table else (s.dirs dir).tables k := by
  simp [addTable, Function.update_apply]

theorem tablesPhysical_addTable {i table addr k : Nat} :
    ((addTable s dir i table addr).dirs dir).tablesPhysical k =
      if k = i then addr ||| 0x7 else (s.dirs dir).tablesPhysical k := by
  simp [addTable, Function.update_apply]

/-- The entries of a slot that gets a table are the entries of the table. -/
theorem entry_addTable_self {table addr : Nat} (ht : table ≠ 0) :
    entry (addTable s dir (slot a) table addr) dir a = some (table + 4 * (a / 0x1000 % 1024)) := by
  rw [entry_eq_some, tables_addTable, if_pos rfl]
  exact ⟨ht, rfl⟩

/-- A table for a slot that has none leaves every entry where it is. -/
theorem entry_addTable_keep {i table addr : Nat} (hnone : (s.dirs dir).tables i = 0)
    (h : entry s dir a = some p) : entry (addTable s dir i table addr) dir a = some p := by
  rw [entry_eq_some] at h ⊢
  rw [tables_addTable, if_neg]
  · exact h
  · rintro rfl
    exact h.1 hnone

section Zeroed

variable {i table addr : Nat} (hunused : ∀ q, (s.pages q).frame ≠ 0 → q < table ∨ table + 0x1000 ≤ q)

/-- A new table is zero. -/
theorem pages_addTable_new {q : Nat} (hq : table ≤ q ∧ q < table + 0x1000) :
    (addTable s dir i table addr).pages q = Page.zero := if_pos hq

include hunused in
/-- When no entry in use is where the new table is put, the entries in use are kept. -/
theorem pages_addTable_used {q : Nat} (hq : (s.pages q).frame ≠ 0) :
    (addTable s dir i table addr).pages q = s.pages q := by
  apply if_neg
  intro hin
  have := hunused q hq
  omega

include hunused in
/-- Then every entry keeps its frame. -/
theorem frame_addTable (q : Nat) :
    ((addTable s dir i table addr).pages q).frame = (s.pages q).frame := by
  by_cases hq : (s.pages q).frame = 0
  · by_cases hin : table ≤ q ∧ q < table + 0x1000
    · rw [pages_addTable_new hin, hq]
      rfl
    · exact congrArg Page.frame (if_neg hin)
  · rw [pages_addTable_used hunused hq]

end Zeroed

/-- `kmalloc_ap` of a heap that is ready takes the next address, and translates it. -/
theorem kmallocAp_cases {heap : List Nat} {sz table addr : Nat} (hheap : s.kheap = some heap)
    (h : kmallocAp s sz = .ok (table, addr, s')) :
    ∃ rest, heap = table :: rest ∧ getPhys s table s.kernelDirectory = .ok addr ∧
      s' = { s with kheap := some rest } := by
  cases heap with
  | nil => simp [kmallocAp, hheap] at h
  | cons b rest =>
      simp only [kmallocAp, hheap] at h
      obtain ⟨phys, hphys, h⟩ := bind_eq_ok.mp h
      cases h
      exact ⟨rest, rfl, hphys, rfl⟩

/-! ## Slots -/

/-- What a slot holds for a new table: the low bits of the entry say present, and not a 4 MB page. -/
theorem tableEntry_flags {x : Nat} (h : x % 4096 = 0) :
    (x ||| 0x7) &&& 0x1 ≠ 0 ∧ (x ||| 0x7) &&& 0x80 = 0 := by
  obtain ⟨y, rfl⟩ : ∃ y, x = 2 ^ 12 * y := ⟨x / 4096, by omega⟩
  rw [← Nat.two_pow_add_eq_or_of_lt (show 7 < 2 ^ 12 by decide) y]
  constructor
  · rw [Nat.and_one_is_mod]
    omega
  · rw [show (0x80 : Nat) = 1 <<< 7 from rfl, and_one_shiftLeft_eq_zero, Nat.testBit_two_pow_mul_add _
      (by decide), if_pos (by decide)]
    decide

/-- `kmalloc_ap` touches neither the bitmap nor entries nor directories. -/
theorem kmallocAp_keeps {sz table addr : Nat} (h : kmallocAp s sz = .ok (table, addr, s')) :
    s'.dirs = s.dirs ∧ s'.frames = s.frames ∧ s'.nframes = s.nframes ∧ s'.pages = s.pages := by
  cases hheap : s.kheap with
  | none =>
      simp only [kmallocAp, hheap, pure_eq_ok, Except.ok.injEq, Prod.mk.injEq] at h
      obtain ⟨-, -, rfl⟩ := h
      exact ⟨rfl, rfl, rfl, rfl⟩
  | some heap =>
      obtain ⟨rest, _, _, rfl⟩ := kmallocAp_cases hheap h
      exact ⟨rfl, rfl, rfl, rfl⟩

/-- `get_page` does not touch the bitmap. -/
theorem getPage_frames {r : Option Nat} (h : getPage s a true dir = .ok (r, s')) :
    s'.frames = s.frames ∧ s'.nframes = s.nframes := by
  rcases getPage_cases h with ⟨_, _, _, rfl⟩ | ⟨_, table, addr, s₁, hk, _, _, rfl⟩
  · exact ⟨rfl, rfl⟩
  · obtain ⟨-, hframes, hnframes, -⟩ := kmallocAp_keeps hk
    exact ⟨hframes, hnframes⟩

/-- **What mapping a page does to a slot**: nothing, unless it is the slot of the page and has no table
    yet. Then it points to a table afterwards, and is no 4 MB page. -/
theorem mapPage_slot {r : PageRequest} (h : mapPage dir s r = .ok s') (k : Nat) :
    ((s'.dirs dir).tables k = (s.dirs dir).tables k ∧
      (s'.dirs dir).tablesPhysical k = (s.dirs dir).tablesPhysical k ∧
      ¬ (slot r.address = k ∧ (s.dirs dir).tables k = 0)) ∨
    (slot r.address = k ∧ (s'.dirs dir).tablesPhysical k &&& 0x80 = 0) := by
  obtain ⟨p, s₁, hget, halloc⟩ := mapPage_eq_ok.mp h
  have hdirs : s'.dirs = s₁.dirs := by
    rcases allocFrame_cases halloc with ⟨_, rfl⟩ | ⟨_, rfl⟩ <;> rfl
  rw [hdirs]
  rcases getPage_cases hget with ⟨p', hp, _, rfl⟩ | ⟨hnone, table, addr, s₂, hk, halign, _, rfl⟩
  · refine Or.inl ⟨rfl, rfl, fun ⟨hslot, hzero⟩ => ?_⟩
    simp [entry, hslot, hzero] at hp
  · by_cases hslot : slot r.address = k
    · refine Or.inr ⟨hslot, ?_⟩
      rw [tablesPhysical_addTable, if_pos hslot.symm]
      exact (tableEntry_flags halign).2
    · rw [tables_addTable, tablesPhysical_addTable, if_neg (Ne.symm hslot), if_neg (Ne.symm hslot),
        (kmallocAp_keeps hk).1]
      exact Or.inl ⟨rfl, rfl, fun h' => hslot h'.1⟩

/-- A slot that is no 4 MB page stays so. -/
theorem run_mapPage_broken {rs : List PageRequest} {k : Nat} (h : run (mapPage dir) s rs = .ok s')
    (hk : (s.dirs dir).tablesPhysical k &&& 0x80 = 0) : (s'.dirs dir).tablesPhysical k &&& 0x80 = 0 :=
  run_invariant (fun t : Paging => (t.dirs dir).tablesPhysical k &&& 0x80 = 0)
    (fun t r t' ht hstep => by
      rcases mapPage_slot hstep k with ⟨_, hsame, _⟩ | ⟨_, hbroken⟩
      · rw [hsame]
        exact ht
      · exact hbroken) hk h

/-- Mapping pages of other slots leaves a slot alone. -/
theorem run_mapPage_same {rs : List PageRequest} {k : Nat} (h : run (mapPage dir) s rs = .ok s')
    (hout : ∀ r ∈ rs, slot r.address ≠ k) :
    (s'.dirs dir).tables k = (s.dirs dir).tables k ∧
      (s'.dirs dir).tablesPhysical k = (s.dirs dir).tablesPhysical k :=
  run_invariant_of (fun t : Paging => (t.dirs dir).tables k = (s.dirs dir).tables k ∧
      (t.dirs dir).tablesPhysical k = (s.dirs dir).tablesPhysical k)
    (fun t r t' hr ⟨ht, hp⟩ hstep => by
      rcases mapPage_slot hstep k with ⟨ht', hp', _⟩ | ⟨hslot, _⟩
      · exact ⟨ht'.trans ht, hp'.trans hp⟩
      · exact absurd hslot hr) hout ⟨rfl, rfl⟩ h

/-- **Mapping a page of a slot that has no table** turns it into one that is no 4 MB page. -/
theorem run_mapPage_breaks {rs : List PageRequest} {k : Nat} (h : run (mapPage dir) s rs = .ok s')
    (hnull : (s.dirs dir).tables k = 0) (hin : ∃ r ∈ rs, slot r.address = k) :
    (s'.dirs dir).tablesPhysical k &&& 0x80 = 0 := by
  induction rs generalizing s with
  | nil => simp at hin
  | cons r rs ih =>
      obtain ⟨t, ht, hrest⟩ := run_cons.mp h
      rcases mapPage_slot ht k with ⟨htables, _, hnot⟩ | ⟨_, hbroken⟩
      · apply ih hrest (htables.trans hnull)
        obtain ⟨r', hr', hslot⟩ := hin
        rcases List.mem_cons.mp hr' with rfl | hr'
        · exact absurd ⟨hslot, hnull⟩ hnot
        · exact ⟨r', hr', hslot⟩
      · exact run_mapPage_broken hrest hbroken

/-! ## Ranges -/

/-- The pages from `start` up to `stop`. -/
def pageRange (start stop : Nat) : List Nat :=
  (List.range ((stop - start + 0xfff) / 0x1000)).map fun i => start + 0x1000 * i

theorem pageRange_of_le {start stop : Nat} (h : stop ≤ start) : pageRange start stop = [] := by
  rw [pageRange, show (stop - start + 0xfff) / 0x1000 = 0 from by omega]
  rfl

theorem pageRange_cons {start stop : Nat} (h : start < stop) :
    pageRange start stop = start :: pageRange (start + 0x1000) stop := by
  unfold pageRange
  rw [show (stop - start + 0xfff) / 0x1000 = (stop - (start + 0x1000) + 0xfff) / 0x1000 + 1 from by omega,
    List.range_succ_eq_map, List.map_cons, List.map_map]
  refine congrArg₂ List.cons (by simp) (List.map_congr_left ?_)
  intro i _
  show start + 0x1000 * (i + 1) = _
  omega

theorem mem_pageRange {start stop a : Nat} :
    a ∈ pageRange start stop ↔ start ≤ a ∧ a < stop ∧ a % 0x1000 = start % 0x1000 := by
  simp only [pageRange, List.mem_map, List.mem_range]
  constructor
  · rintro ⟨i, hi, rfl⟩
    omega
  · rintro ⟨hle, hlt, hmod⟩
    exact ⟨(a - start) / 0x1000, by omega, by omega⟩

/-- **The loop of `allocate`** maps the pages of the range one after the other. -/
theorem allocateLoop_eq {k w stop : Nat} (hstop : stop < 4294967296) (halign : stop % 4096 = 0) :
    ∀ {fuel i : Nat} (s : Paging), i % 4096 = 0 → (stop - i) / 4096 < fuel →
      allocateLoop dir k w stop fuel i s =
        run (mapPage dir) s ((pageRange i stop).map fun a => ⟨a, k, w⟩) := by
  intro fuel
  induction fuel with
  | zero => intro i s _ hfuel; omega
  | succ fuel ih =>
      intro i s hi hfuel
      rw [allocateLoop]
      by_cases hlt : i < stop
      · rw [if_pos hlt, pageRange_cons hlt, List.map_cons, run]
        congr 1
        funext t
        rw [add32_of_lt (by omega)]
        exact ih t (by omega) (by omega)
      · rw [if_neg hlt, pageRange_of_le (by omega)]
        rfl

/-- The pages `allocate(virt_addr, size, …)` maps. -/
def allocatePages (virtAddr size : Nat) : List Nat :=
  let start := virtAddr / 4096 * 4096
  let size := if size % 4096 ≠ 0 then (size / 4096 * 4096 + 4096) % 4294967296 else size
  pageRange start ((start + size) % 4294967296)

/-- **`allocate`** maps the pages of its range one after the other. -/
theorem allocate_eq {v size k w : Nat} (hv : v < 4294967296) (hsize : size < 4294967296) (s : Paging) :
    allocate s dir v size k w = run (mapPage dir) s ((allocatePages v size).map fun a => ⟨a, k, w⟩) := by
  unfold allocate allocatePages
  simp only [and_pageMask hv, and_offsetMask, and_pageMask hsize, add32]
  refine allocateLoop_eq (Nat.mod_lt _ (by decide)) ?_ s (by omega) (by omega)
  split <;> omega

end WeirdOs
