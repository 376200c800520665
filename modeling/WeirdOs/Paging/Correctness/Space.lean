import WeirdOs.Paging.Correctness.Mmu

/-!
# `Paging.Correctness.Space` — paged memory is a flat memory with access rights

`Realises` ties the tables, the memory behind them and the cache of the processor to a `Space`, which knows
the calls of `allocate` and the bytes stored and nothing else. Every event keeps it, or fails on both sides
(`Realises.step`); only `allocate` can stop for a reason of its own, when the heap has no page for a table.

`page.cpp` never tells the processor to forget a translation. It need not: translations are only added.
-/

namespace WeirdOs

open Lib

variable {s : Paging} {dir a x : Nat} {wp : Bool} {acc : Access}

/-! ## The relation -/

/-- Where an address outside the 4 MB pages is, for whoever may access it. -/
def Mmu.place (m : Mmu) (a : Nat) : Option Nat := if Outside a then m.walk ⟨false, false⟩ a else none

theorem Mmu.place_eq_some {m : Mmu} :
    m.place a = some x ↔ Outside a ∧ m.walk ⟨false, false⟩ a = some x := Option.ite_none_right_eq_some ..

theorem Tables.place_faithful {m : Mmu} (h : Tables m.directory m.paging) : Faithful m.place := by
  intro a b x ha hb
  exact h.faithful a b x (Mmu.place_eq_some.mp ha).2 (Mmu.place_eq_some.mp hb).2

/-- **Memory realises an address space**: its tables are those that the calls left, its cells hold what was
    stored, and what the processor remembers is in the tables. -/
structure Realises (m₀ m : Mmu) (d : Space) : Prop where
  directory : m.directory = m₀.directory
  wp : m.wp = m₀.wp
  clear : ∀ c ∈ d.calls, c.Clear
  room : (d.calls.flatMap AllocateCall.requests).length ≤ 14336
  paging : runAllocate m₀.directory m₀.paging d.calls = .ok m.paging
  tables : Tables m.directory m.paging
  backs : Backs m.place m₀.physical m.physical d.bytes
  tlb : ∀ acc, Extends (m.tlb acc) (m.walk acc)

/-- What somebody can access, the kernel can read. -/
theorem translate_read (h : translate wp s dir acc a = some x) :
    translate wp s dir ⟨false, false⟩ a = some x := by
  have hread : ∀ rw user, Access.allowed wp ⟨false, false⟩ rw user = true := fun _ _ => rfl
  unfold translate at h ⊢
  dsimp only at h ⊢
  rw [Option.ite_none_right_eq_some] at h
  rw [hread, if_pos rfl]
  obtain ⟨-, h⟩ := h
  cases hentry : mmuEntry (s.dirs dir) a with
  | none =>
      rw [hentry] at h
      exact h
  | some p =>
      rw [hentry] at h
      obtain ⟨hpresent, -, hx⟩ := Page.translate_eq_some.mp h
      exact Page.translate_eq_some.mpr ⟨hpresent, hread _ _, hx⟩

variable {m₀ m m' : Mmu} {d d' : Space} {e : MemoryEvent}

/-- The cache makes no difference. -/
theorem Realises.lookup (h : Realises m₀ m d) : m.lookup acc a = m.walk acc a := by
  unfold Mmu.lookup
  cases htlb : m.tlb acc a with
  | none => rfl
  | some x => rw [h.tlb acc a x htlb, Option.some_or]

/-- **Who gets through** are those that a call was made for. -/
theorem Realises.walk_isSome (h : Realises m₀ m d) (hs : Untouched m₀.directory m₀.paging)
    (hin : Outside a ∨ acc.user = true) : (m.walk acc a).isSome = d.permits m₀.wp acc a := by
  have htables := h.tables
  rw [h.directory] at htables
  unfold Mmu.walk
  rw [h.directory, h.wp]
  exact hs.translate_isSome htables h.clear h.room h.paging hin

/-- They get to the place of the address. -/
theorem Realises.walk_place (h : Realises m₀ m d) (hin : Outside a ∨ acc.user = true)
    (hx : m.walk acc a = some x) : m.place a = some x := by
  have hout : Outside a := hin.elim id fun huser => h.tables.outside huser hx
  exact Mmu.place_eq_some.mpr ⟨hout, translate_read hx⟩

theorem Realises.faithful (h : Realises m₀ m d) : Faithful m.place := h.tables.place_faithful

/-! ## Events -/

/-- The kernel keeps out of the 4 MB pages: it maps nothing over them, and what it stores there is not what
    this is about. Programs do as they please. -/
def MemoryEvent.Clear : MemoryEvent → Prop
  | .allocate c => c.Clear
  | .store user a _ => Outside a.toNat ∨ user = true
  | .fill _ _ => True
  | .evict _ _ => True

/-- **A call of `allocate`** is seen by the address space, unless there is no page left for a table. -/
theorem Realises.allocate {c : AllocateCall} (h : Realises m₀ m d)
    (hs : Untouched m₀.directory m₀.paging) (hc : c.Clear)
    (hroom : ((d.calls ++ [c]).flatMap AllocateCall.requests).length ≤ 14336) :
    (∃ m', m.step (.allocate c) = .ok m' ∧ Realises m₀ m' { d with calls := d.calls ++ [c] } ∧
      Extends m.place m'.place) ∨ m.step (.allocate c) = .error outOfHeap := by
  have hclear : ClearBefore m.directory m.paging c.requests := by
    have hall := hs.clearBefore hroom
    have hbefore := h.paging
    rw [runAllocate_eq] at hbefore
    rw [List.flatMap_append, List.flatMap_singleton] at hall
    rw [h.directory]
    exact (hall.append hbefore).2
  rcases h.tables.call_ok hc hclear with ⟨p, hp⟩ | herror
  · left
    let m' : Mmu := { m with paging := p }
    have htables : Tables m.directory p := h.tables.call hc hclear hp
    have hext : ∀ acc, Extends (m.walk acc) (m'.walk acc) := fun _ => h.tables.extends htables hp
    have hplace : Extends m.place m'.place := by
      intro a x hx
      obtain ⟨hout, hx⟩ := Mmu.place_eq_some.mp hx
      exact Mmu.place_eq_some.mpr ⟨hout, hext _ a x hx⟩
    have hfaithful : Faithful m'.place := Tables.place_faithful htables
    refine ⟨m', ?_, ⟨h.directory, h.wp, ?_, hroom, ?_, htables, h.backs.extend hplace hfaithful,
      fun acc => (h.tlb acc).trans (hext acc)⟩, hplace⟩
    · rw [Mmu.step, hp, ok_bind, pure_eq_ok]
    · intro c' hc'
      rcases List.mem_append.mp hc' with hc' | hc'
      · exact h.clear c' hc'
      · rw [List.mem_singleton.mp hc']
        exact hc
    · rw [h.directory] at hp
      exact run_append.mpr ⟨m.paging, h.paging, run_cons.mpr ⟨p, hp, rfl⟩⟩
  · right
    rw [Mmu.step, herror, error_bind]

/-- **A byte stored** goes to its address, or there is a page fault on both sides. -/
theorem Realises.store {user : Bool} {v : UInt8} {a : UInt32} (h : Realises m₀ m d)
    (hs : Untouched m₀.directory m₀.paging) (hin : Outside a.toNat ∨ user = true) :
    (∃ m' d', m.step (.store user a v) = .ok m' ∧ d.step m₀.wp (.store user a v) = .ok d' ∧
      Realises m₀ m' d' ∧ Extends m.place m'.place ∧ d'.calls = d.calls) ∨
    (m.step (.store user a v) = .error memoryFault ∧
      d.step m₀.wp (.store user a v) = .error memoryFault) := by
  have hpermits : (m.walk ⟨user, true⟩ a.toNat).isSome = d.permits m₀.wp ⟨user, true⟩ a.toNat :=
    h.walk_isSome hs hin
  unfold Mmu.step Space.step
  dsimp only
  rw [h.lookup]
  cases hx : m.walk ⟨user, true⟩ a.toNat with
  | none =>
      right
      rw [hx] at hpermits
      rw [← hpermits]
      exact ⟨rfl, rfl⟩
  | some x =>
      left
      rw [hx] at hpermits
      rw [← hpermits]
      have hplace := h.walk_place hin hx
      let m' : Mmu := { m with physical := Function.update m.physical x v }
      exact ⟨m', _, rfl, rfl, ⟨h.directory, h.wp, h.clear, h.room, h.paging, h.tables,
        h.backs.write h.faithful hplace v, h.tlb⟩, Extends.refl, rfl⟩

/-- **The processor** may remember what is in the tables, and forget it. -/
theorem Realises.remember {t : Option Nat} (h : Realises m₀ m d) (acc : Access) (a : Nat)
    (ht : ∀ x, t = some x → m.walk acc a = some x) :
    Realises m₀ { m with tlb := Function.update m.tlb acc (Function.update (m.tlb acc) a t) } d := by
  refine ⟨h.directory, h.wp, h.clear, h.room, h.paging, h.tables, h.backs, ?_⟩
  intro acc' b x hb
  change Function.update m.tlb acc _ acc' b = some x at hb
  show m.walk acc' b = some x
  by_cases hacc : acc' = acc
  · subst hacc
    rw [Function.update_self] at hb
    by_cases hba : b = a
    · subst hba
      rw [Function.update_self] at hb
      exact ht x hb
    · rw [Function.update_of_ne hba] at hb
      exact h.tlb acc' b x hb
  · rw [Function.update_of_ne hacc] at hb
    exact h.tlb acc' b x hb

/-- **One event** does the same on both sides, or stops for want of a table. -/
theorem Realises.step (h : Realises m₀ m d) (hs : Untouched m₀.directory m₀.paging) (he : e.Clear)
    (hroom : ((d.calls ++ e.calls).flatMap AllocateCall.requests).length ≤ 14336) :
    (∃ m' d', m.step e = .ok m' ∧ d.step m₀.wp e = .ok d' ∧ Realises m₀ m' d' ∧
      Extends m.place m'.place ∧ d'.calls = d.calls ++ e.calls) ∨
    (m.step e = .error memoryFault ∧ d.step m₀.wp e = .error memoryFault) ∨ m.step e = .error outOfHeap := by
  cases e with
  | allocate c =>
      rcases h.allocate hs he hroom with ⟨m', hm', h', hext⟩ | herror
      · exact Or.inl ⟨m', _, hm', rfl, h', hext, rfl⟩
      · exact Or.inr (Or.inr herror)
  | store user a v =>
      rcases h.store hs he with ⟨m', d', hm', hd', h', hext, hcalls⟩ | herror
      · exact Or.inl ⟨m', d', hm', hd', h', hext, hcalls.trans (List.append_nil _).symm⟩
      · exact Or.inr (Or.inl herror)
  | fill acc a =>
      exact Or.inl ⟨_, d, rfl, rfl, h.remember acc a.toNat (fun _ hx => hx), Extends.refl,
        (List.append_nil _).symm⟩
  | evict acc a =>
      exact Or.inl ⟨_, d, rfl, rfl, h.remember acc a.toNat (fun _ hx => by cases hx), Extends.refl,
        (List.append_nil _).symm⟩

/-- **A run** does the same on both sides, or stops for want of a table. -/
theorem Realises.run {events : List MemoryEvent} (h : Realises m₀ m d)
    (hs : Untouched m₀.directory m₀.paging) (hclear : ∀ e ∈ events, e.Clear)
    (hroom : ((d.calls ++ events.flatMap MemoryEvent.calls).flatMap AllocateCall.requests).length ≤ 14336) :
    (∃ m' d', Lib.run Mmu.step m events = .ok m' ∧ Lib.run (Space.step m₀.wp) d events = .ok d' ∧
      Realises m₀ m' d' ∧ Extends m.place m'.place ∧
      d'.calls = d.calls ++ events.flatMap MemoryEvent.calls) ∨
    (Lib.run Mmu.step m events = .error memoryFault ∧
      Lib.run (Space.step m₀.wp) d events = .error memoryFault) ∨
    Lib.run Mmu.step m events = .error outOfHeap := by
  induction events generalizing m d with
  | nil => exact Or.inl ⟨m, d, rfl, rfl, h, Extends.refl, (List.append_nil _).symm⟩
  | cons e events ih =>
      obtain ⟨he, hclear'⟩ := List.forall_mem_cons.mp hclear
      rw [List.flatMap_cons, ← List.append_assoc] at hroom
      have hfirst : ((d.calls ++ e.calls).flatMap AllocateCall.requests).length ≤ 14336 := by
        rw [List.flatMap_append, List.length_append] at hroom
        omega
      simp only [Lib.run]
      rcases h.step hs he hfirst with ⟨m₁, d₁, hm₁, hd₁, h₁, hext, hcalls⟩ | ⟨hm₁, hd₁⟩ | hm₁
      · rw [← hcalls] at hroom
        rw [hm₁, hd₁, ok_bind, ok_bind]
        rcases ih h₁ hclear' hroom with ⟨m', d', hm', hd', h', hext', hcalls'⟩ | hfault | hfull
        · refine Or.inl ⟨m', d', hm', hd', h', hext.trans hext', ?_⟩
          rw [hcalls', hcalls, List.flatMap_cons, List.append_assoc]
        · exact Or.inr (Or.inl hfault)
        · exact Or.inr (Or.inr hfull)
      · rw [hm₁, hd₁]
        exact Or.inr (Or.inl ⟨rfl, rfl⟩)
      · rw [hm₁]
        exact Or.inr (Or.inr rfl)

/-! ## From boot on -/

/-- A new address space, of memory that nobody has used. -/
theorem Realises.init {physical : Mem} (hs : Tables s.kernelDirectory s) :
    Realises (Mmu.boot s physical wp) (Mmu.boot s physical wp) Space.empty :=
  ⟨rfl, rfl, by simp [Space.empty], by simp [Space.empty], rfl, hs, Backs.init, fun _ _ _ h => by cases h⟩

/-- **Reading a byte**, where `init` has what the places held at first. -/
theorem Realises.load (init : Mem) (h : Realises m₀ m d) (hs : Untouched m₀.directory m₀.paging)
    (hinit : ∀ a x, m.place a = some x → init a = m₀.physical x) {user : Bool}
    (hin : Outside a ∨ user = true) : m.load user a = d.load m₀.wp init user a := by
  have hpermits : (m.walk ⟨user, false⟩ a).isSome = d.permits m₀.wp ⟨user, false⟩ a := h.walk_isSome hs hin
  unfold Mmu.load Space.load
  rw [h.lookup, ← hpermits]
  cases hx : m.walk ⟨user, false⟩ a with
  | none => rfl
  | some x =>
      have hplace := h.walk_place hin hx
      rw [Option.isSome_some, if_pos rfl, hinit a x hplace, ← h.backs.holds a x hplace]

/-- The memory of the kernel is out of reach. -/
theorem Realises.low (h : Realises m₀ m d) (hx : x < 0x800000) : m.physical x = m₀.physical x := by
  refine h.backs.rest x ?_
  intro a ha
  obtain ⟨hout, ha⟩ := Mmu.place_eq_some.mp ha
  rcases h.tables.translate_cases ha with ⟨hslot, -⟩ | ⟨hslot, -⟩ | ⟨-, hlow, -⟩
  · exact hout.1 hslot
  · exact hout.2 hslot
  · omega

/-- **Along a run** places are added to those there were. -/
theorem Realises.prefix_extends {events pre : List MemoryEvent} (h : Realises m₀ m₀ Space.empty)
    (hs : Untouched m₀.directory m₀.paging) (hclear : ∀ e ∈ events, e.Clear)
    (hroom : ((events.flatMap MemoryEvent.calls).flatMap AllocateCall.requests).length ≤ 14336)
    (hpre : pre <+: events) (hm : Lib.run Mmu.step m₀ pre = .ok m)
    (hm' : Lib.run Mmu.step m₀ events = .ok m') : Extends m.place m'.place := by
  obtain ⟨rest, rfl⟩ := hpre
  obtain ⟨t, ht, hrest⟩ := run_append.mp hm'
  obtain rfl := Except.ok.inj (hm.symm.trans ht)
  have hprefix : ((pre.flatMap MemoryEvent.calls).flatMap AllocateCall.requests).length ≤ 14336 := by
    rw [List.flatMap_append, List.flatMap_append, List.length_append] at hroom
    omega
  rcases h.run hs (fun e he => hclear e (List.mem_append_left _ he)) hprefix with
    ⟨t, d, ht, -, hd, -, hcalls⟩ | ⟨hfault, -⟩ | hfull
  · obtain rfl := Except.ok.inj (hm.symm.trans ht)
    have hcalls' : d.calls = pre.flatMap MemoryEvent.calls := hcalls
    rw [List.flatMap_append, ← hcalls'] at hroom
    rcases hd.run hs (fun e he => hclear e (List.mem_append_right _ he)) hroom with
      ⟨t, -, ht, -, -, hext, -⟩ | ⟨hfault, -⟩ | hfull
    · obtain rfl := Except.ok.inj (hrest.symm.trans ht)
      exact hext
    · rw [hrest] at hfault
      cases hfault
    · rw [hrest] at hfull
      cases hfull
  · rw [hm] at hfault
    cases hfault
  · rw [hm] at hfull
    cases hfull

/-- **Paged memory is a flat memory with access rights.** From boot on, on memory that is zero where words
    128 to 511 of the bitmap are put, with pages of the heap for tables that are apart, let the kernel
    allocate pages, let the kernel and programs store bytes, and let the processor fill and drop its cache,
    in any order. The kernel allocates and stores outside the two 4 MB pages, and at most 14336 pages are
    mapped, counting a page as often as it is. What is seen at any time is what is seen in the address
    space that knows only the calls and the bytes stored: every load of a program, and every load of the
    kernel outside the 4 MB pages, gives the same byte or the same page fault, a store that faults faults
    in both, and the first 8 MB, where the kernel, its heap and the page tables are, keep every byte. Only
    `allocate` can stop a run besides, for want of a page for a table. -/
theorem paged_memory {frames : Nat → Nat} {heap : List Nat} (hmem : ∀ i, 128 ≤ i → i < 512 → frames i = 0)
    (hapart : heap.Pairwise Apart) (hheap : ∀ a ∈ heap, HeapPage a)
    (hboot : initialisePaging frames (fun _ => Page.zero) heap = .ok s) (physical : Mem) (wp : Bool)
    {events : List MemoryEvent}
    (hclear : ∀ e ∈ events, e.Clear)
    (hroom : ((events.flatMap MemoryEvent.calls).flatMap AllocateCall.requests).length ≤ 14336) :
    ∃ init : Mem, ∀ pre, pre <+: events →
      (∃ m d, run Mmu.step (Mmu.boot s physical wp) pre = .ok m ∧
        run (Space.step wp) Space.empty pre = .ok d ∧
        (∀ user a, Outside a ∨ user = true → m.load user a = d.load wp init user a) ∧
        ∀ x < 0x800000, m.physical x = physical x) ∨
      (run Mmu.step (Mmu.boot s physical wp) pre = .error memoryFault ∧
        run (Space.step wp) Space.empty pre = .error memoryFault) ∨
      run Mmu.step (Mmu.boot s physical wp) pre = .error outOfHeap := by
  obtain ⟨hs, htables⟩ := initialisePaging_tables hmem hapart hheap hboot
  have hinit : Realises (Mmu.boot s physical wp) (Mmu.boot s physical wp) Space.empty :=
    Realises.init htables
  have hroom' : ∀ pre, pre <+: events →
      ((pre.flatMap MemoryEvent.calls).flatMap AllocateCall.requests).length ≤ 14336 := by
    rintro pre ⟨rest, rfl⟩
    rw [List.flatMap_append, List.flatMap_append, List.length_append] at hroom
    omega
  have hclear' : ∀ pre, pre <+: events → ∀ e ∈ pre, e.Clear := fun pre hpre e he =>
    hclear e (hpre.subset he)
  -- the places of all states along the run, in one translation
  let Reached := {r : List MemoryEvent × Mmu // r.1 <+: events ∧
    run Mmu.step (Mmu.boot s physical wp) r.1 = .ok r.2}
  obtain ⟨τ, hτ⟩ := exists_union (σ := fun r : Reached => r.1.2.place) (by
    rintro ⟨⟨pre, m⟩, hpre, hm⟩ ⟨⟨pre', m'⟩, hpre', hm'⟩
    rcases List.prefix_or_prefix_of_prefix hpre hpre' with h | h
    · exact Or.inl (hinit.prefix_extends hs (hclear' pre' hpre') (hroom' pre' hpre') h hm hm')
    · exact Or.inr (hinit.prefix_extends hs (hclear' pre hpre) (hroom' pre hpre) h hm' hm))
  refine ⟨fun a => (τ a).elim 0 physical, ?_⟩
  intro pre hpre
  rcases hinit.run hs (hclear' pre hpre) (hroom' pre hpre) with ⟨m, d, hm, hd, h, -⟩ | hfault | hfull
  · refine Or.inl ⟨m, d, hm, hd, ?_, fun x hx => h.low hx⟩
    intro user a hin
    refine h.load _ hs ?_ hin
    intro b x hb
    rw [hτ ⟨(pre, m), hpre, hm⟩ b x hb]
    rfl
  · exact Or.inr (Or.inl hfault)
  · exact Or.inr (Or.inr hfull)

/-- A program reads what it stored, through the cache. -/
theorem paged_memory_page :
    ∃ s m, initialisePaging (fun _ => 0) (fun _ => Page.zero) [0xd0001000] = .ok s ∧
      run Mmu.step (Mmu.boot s (fun _ => 0) true)
        [.allocate ⟨0x1000, 0x1000, 0, 1⟩, .fill ⟨true, true⟩ 0x1234, .store true 0x1234 7] = .ok m ∧
      m.load true 0x1234 = .ok 7 := by
  obtain ⟨s, hs, -⟩ := initialisePaging_spec (fun _ => 0) (fun _ => Page.zero) [0xd0001000]
  let events : List MemoryEvent :=
    [.allocate ⟨0x1000, 0x1000, 0, 1⟩, .fill ⟨true, true⟩ 0x1234, .store true 0x1234 7]
  have hok : ((initialisePaging (fun _ => 0) (fun _ => Page.zero) [0xd0001000]).toOption.bind fun s =>
      (run Mmu.step (Mmu.boot s (fun _ => 0) true) events).toOption).isSome = true := by
    decide +kernel
  obtain ⟨m, hm⟩ := Option.isSome_iff_exists.mp hok
  rw [hs] at hm
  have hrun := toOption_eq_some.mp hm
  have hcall : (⟨0x1000, 0x1000, 0, 1⟩ : AllocateCall).Clear := by
    unfold AllocateCall.Clear
    decide
  have hclear : ∀ e ∈ events, e.Clear := by simp [events, MemoryEvent.Clear, hcall]
  obtain ⟨init, hall⟩ := paged_memory (fun _ _ _ => rfl) (List.pairwise_singleton ..) (by simp [HeapPage]) hs
    (fun _ => 0) true hclear (by decide)
  -- the store and the load are permitted by the one call
  have hgranted : grantedBy [⟨0x1000, 0x1000, 0, 1⟩] 0x1234 = some ⟨0x1000, 0x1000, 0, 1⟩ := by decide
  have hpermits : ∀ bytes write,
      Space.permits true ⟨[⟨0x1000, 0x1000, 0, 1⟩], bytes⟩ ⟨true, write⟩ 0x1234 = true := by
    intro bytes write
    rw [Space.permits, hgranted]
    cases write <;> decide
  have haddr : (0x1234 : UInt32).toNat = 0x1234 := by decide
  have hspace : run (Space.step true) Space.empty events = .ok
      ⟨[⟨0x1000, 0x1000, 0, 1⟩], Function.update (fun _ => none) 0x1234 (some 7)⟩ := by
    simp only [events, run, Space.step, Space.empty, pure_eq_ok, ok_bind, List.nil_append, haddr, hpermits,
      if_true]
  rcases hall events List.prefix_rfl with ⟨m', d, hm', hd, hload, -⟩ | ⟨hfault, -⟩ | hfull
  · obtain rfl := Except.ok.inj (hrun.symm.trans hm')
    obtain rfl := Except.ok.inj (hspace.symm.trans hd)
    refine ⟨s, m, hs, hrun, ?_⟩
    rw [hload true 0x1234 (Or.inr rfl), Space.load, hpermits, if_pos rfl]
    dsimp only
    rw [Function.update_self]
    rfl
  · rw [hrun] at hfault
    cases hfault
  · rw [hrun] at hfull
    cases hfull

end WeirdOs
