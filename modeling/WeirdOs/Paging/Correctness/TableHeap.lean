import WeirdOs.Heap.Correctness.AlignedHeap
import WeirdOs.Heap.Correctness.New
import WeirdOs.Paging.Correctness.Mmu
import WeirdOs.Paging.TableHeap

/-!
# `Paging.Correctness.TableHeap` — what the heap hands out for tables

`TableFits` is what `kmalloc_a` needs of the heap to leave it well formed. As long as it holds where a table is
asked for, the tables are pages of the heap, apart from each other, and keep what is written to them
(`heap_tables`): what `Paging.Page` takes for granted of its list.
-/

namespace WeirdOs

open Lib Lib.Piece

/-! ## Room for a page -/

/-- The block that is chosen for a page is not the first one and has room for the page behind the next boundary;
    its header moves without running over itself, and it is split or is the last. -/
structure PageFits (lo : Nat) (xs : List Block) (a b : Block) (ys : List Block) : Prop where
  chosen : suitable lo (requiredSize lo 0x1000) (xs ++ a :: b :: ys) = some b
  header : 16 ≤ b.distance
  room : b.distance + 0x1000 ≤ b.size
  link : b.size - b.distance - 0x1000 > headerSize + minBlockSize ∨ ys = []

/-- A page can be had from the heap. -/
def TableFits (lo : Nat) (s : HeapState) : Prop :=
  ∃ xs a b ys, s.blocks = some (entries 0 (xs ++ a :: b :: ys)) ∧ PageFits lo xs a b ys

/-- Pages can be had one after the other: the blocks before, the pages, and the blocks after. -/
inductive PagesFit (lo : Nat) : List Block → List Nat → List Block → Prop where
  | nil {bs : List Block} : PagesFit lo bs [] bs
  | cons {xs ys bs' : List Block} {a b : Block} {tables : List Nat} (first : PageFits lo xs a b ys)
      (rest : PagesFit lo (xs ++ a.grown b :: (place b.moved 0x1000 ++ ys)) tables bs') :
      PagesFit lo (xs ++ a :: b :: ys) (b.boundary :: tables) bs'

variable {m : Mem} {lo hi n t i : Nat} {s s' : TableHeap} {bs xs ys : List Block} {a b c : Block}
  {live : Nat → Option Nat}

/-! ## One page -/

theorem Block.moved_payload (b : Block) : b.moved.payload = b.boundary := by
  rw [b.boundary_eq_addr]
  rfl

/-- A used block that grows owns what it owned. -/
theorem Owned.grow (h : Owned live (xs ++ a :: ys)) : Owned live (xs ++ a.grown b :: ys) := by
  constructor
  · intro p r hp
    obtain ⟨c, hc, hu, hpay, hr⟩ := h.sound p r hp
    rcases mem_middle.mp hc with rfl | hc
    · exact ⟨c.grown b, by simp, hu, hpay, Nat.le_trans hr (Nat.le_add_right _ _)⟩
    · exact ⟨c, mem_middle.mpr (Or.inr hc), hu, hpay, hr⟩
  · intro c hc hu
    rcases mem_middle.mp hc with rfl | hc
    · exact h.complete a (by simp) hu
    · exact h.complete c (mem_middle.mpr (Or.inr hc)) hu

/-- Outside of all headers is outside of each. -/
theorem out_of_not_inHeaders {x : Nat} (h : ¬ InHeaders bs x) (hc : c ∈ bs) :
    x < c.addr ∨ c.addr + 16 ≤ x := by
  by_contra hno
  exact h ⟨c, hc, by omega, by omega⟩

/-- **Nothing else is written**: a byte in no header and outside of the block stays. -/
theorem allocated_realigned_out (h : Layout m lo hi (xs ++ a :: b :: ys)) (hroom : b.distance + n ≤ b.size)
    (hintact : header (realigned m a b) (b.addr + b.distance) = header (resized m a b) b.addr)
    (hlink : b.size - b.distance - n > headerSize + minBlockSize ∨ ys = []) {x : Nat}
    (hold : ¬ InHeaders (xs ++ a :: b :: ys) x) (hx : x < b.addr ∨ b.stop ≤ x) :
    allocated (realigned m a b) b.moved n x = m x := by
  have hlay := layout_realigned h (by omega) hintact
  have hfit : n ≤ b.moved.size := show n ≤ b.size - b.distance by omega
  have hstop := Block.stop_eq b
  have hstop' : b.moved.stop = b.stop := by
    rw [Block.stop_eq, Block.stop_eq]
    show b.addr + b.distance + 16 + (b.size - b.distance) = _
    omega
  have hmoved : b.moved.addr = b.addr + b.distance := rfl
  -- the headers are those there were, the one that moves, and what is split off
  have hnew : ¬ InHeaders (xs ++ a.grown b :: b.moved :: ys) x := by
    rintro ⟨c, hc, hle, hlt⟩
    rcases mem_middle.mp hc with rfl | hc
    · exact hold ⟨a, by simp, hle, hlt⟩
    · rcases mem_middle.mp hc with rfl | hc
      · omega
      · refine hold ⟨c, ?_, hle, hlt⟩
        simp only [List.mem_append, List.mem_cons] at hc ⊢
        tauto
  have hplace : ¬ InHeaders (place b.moved n) x := fun hin => by
    have := inHeaders_place hfit hin
    have := le_placedSize hfit
    omega
  have hys : ¬ InHeaders ys x := fun ⟨d, hd, hx⟩ => hold ⟨d, by simp [hd], hx⟩
  rw [List.append_cons] at hlay hnew
  have hstep : allocated (relinkHead (realigned m a b) (headKey Block.addr 0 ys) (b.addr + b.distance))
      b.moved n x = _ := (allocated_spec hlay hfit).2 x hnew hplace
  rw [← allocated_relinked_eq h hroom hintact hlink, hstep, relinkHead_out hys, realigned_out h (by omega),
    resized_out (out_of_not_inHeaders hold (by simp)) (out_of_not_inHeaders hold (by simp))]

/-! ## The invariant -/

/-- **What holds of the tables**: each is a live page of the heap. -/
structure TablesLive (lo hi : Nat) (s : TableHeap) (bs : List Block) : Prop where
  inv : HeapInv lo hi s.heap bs
  live : ∀ t ∈ s.tables, s.heap.live t = some 0x1000
  page : ∀ t ∈ s.tables, t % 0x1000 = 0
  nodup : s.tables.Nodup

/-- A table is a page of the heap. -/
theorem TablesLive.heapPage (h : TablesLive 0xd0000000 0xd0400000 s bs) (ht : t ∈ s.tables) : HeapPage t := by
  obtain ⟨c, hc, -, rfl, hr, -⟩ := h.inv.block_of_live (h.live t ht)
  have hbound := h.inv.layout.bound hc
  rw [Block.payload_eq]
  exact ⟨by omega, by omega, h.page _ ht⟩

/-- Two tables are apart. -/
theorem TablesLive.apart (h : TablesLive lo hi s bs) {t' : Nat} (ht : t ∈ s.tables) (ht' : t' ∈ s.tables)
    (hne : t ≠ t') : Apart t t' := by
  obtain ⟨c, hc, -, rfl, hr, -⟩ := h.inv.block_of_live (h.live t ht)
  obtain ⟨d, hd, -, rfl, hr', -⟩ := h.inv.block_of_live (h.live t' ht')
  have hapart := h.inv.layout.apart hc hd fun heq => hne (congrArg Block.payload heq)
  unfold Apart
  rw [Block.payload_eq, Block.payload_eq]
  omega

/-- **A page is taken**: the call returns, the page was not live, and only bytes of the heap's own are written. -/
theorem TablesLive.page_taken (h : TablesLive lo hi s (xs ++ a :: b :: ys)) (hlo : 0 < lo)
    (hfits : PageFits lo xs a b ys) :
    ∃ s', s.step .table = .ok s' ∧
      TablesLive lo hi s' (xs ++ a.grown b :: (place b.moved 0x1000 ++ ys)) ∧
      s'.tables = s.tables ++ [b.boundary] ∧ s.heap.live b.boundary = none ∧
      s'.heap.live = Function.update s.heap.live b.boundary (some 0x1000) ∧
      ∀ x, ¬ s.heap.Own lo hi x → s'.heap.heap.mem x = s.heap.heap.mem x := by
  obtain ⟨heap, hk, hheap⟩ := h.inv.kheap
  have hlay := h.inv.layout
  have hroom := hfits.room
  have ha := hlay.bound (b := a) (by simp)
  have hb := hlay.bound (b := b) (by simp)
  have hstop := Block.stop_eq b
  obtain ⟨-, hfree⟩ := suitable_mem hfits.chosen
  have hco := h.inv.coalesced hlo
  -- neighbours are not both free
  have hused : a.used = true := by
    have hseam := (coalesced_append.mp hco).2.1.1
    simpa [hfree] using hseam
  have hintact : header (realigned s.heap.heap.mem a b) (b.addr + b.distance) =
      header (resized s.heap.heap.mem a b) b.addr :=
    (intact_iff hlay (by omega)).mpr (BlockHeader.repeats_of_le hfits.header)
  have hboundary := b.boundary_eq_addr
  have hcall := kmallocA_eq hk hheap hlay hfits.chosen
  rw [if_pos (by omega), if_neg (by omega), add32_of_lt (by omega), ← hboundary] at hcall
  have hlive := ((List.append_cons xs a (b :: ys) ▸ h.inv.owned).drop_free hfree)
  rw [List.append_assoc, List.singleton_append] at hlive
  have hgrown : Owned s.heap.live ((xs ++ [a.grown b]) ++ ys) := by
    rw [List.append_assoc, List.singleton_append]
    exact hlive.grow
  have howned := hgrown.place (b := b.moved) (n := 0x1000) (show 0x1000 ≤ b.size - b.distance by omega)
  rw [b.moved_payload, List.append_assoc, List.singleton_append] at howned
  have hmem : b ∈ xs ++ a :: b :: ys := by simp
  have hfresh : s.heap.live b.boundary = none := by
    cases hq : s.heap.live b.boundary with
    | none => rfl
    | some r =>
        have hout := h.inv.live_off_free hmem hfree hq
        have hpos := b.distance_pos
        omega
  have hnew : ∀ t ∈ s.tables, t ≠ b.boundary := by
    rintro t ht rfl
    rw [h.live _ ht] at hfresh
    cases hfresh
  let k : KernelHeap :=
    { s.heap.heap with mem := allocated (realigned s.heap.heap.mem a b) b.moved 0x1000 }
  let s' : TableHeap :=
    ⟨⟨k, Function.update s.heap.live b.boundary (some 0x1000)⟩, s.tables ++ [b.boundary]⟩
  have hinv : HeapInv lo hi s'.heap (xs ++ a.grown b :: (place b.moved 0x1000 ++ ys)) :=
    ⟨⟨heap, hk, hheap⟩, allocated_realigned hlay hroom hintact hfits.link, howned,
      fun _ => coalesced_aligned hco hused hfree⟩
  refine ⟨s', bind_eq_ok.mpr ⟨_, hcall, rfl⟩, ⟨hinv, ?_, ?_, ?_⟩, rfl, hfresh, rfl, ?_⟩
  · intro t ht
    rcases List.mem_append.mp ht with ht | ht
    · exact (Function.update_of_ne (hnew t ht) ..).trans (h.live t ht)
    · rw [List.mem_singleton.mp ht]
      exact Function.update_self ..
  · intro t ht
    rcases List.mem_append.mp ht with ht | ht
    · exact h.page t ht
    · rw [List.mem_singleton.mp ht]
      exact Nat.mod_eq_zero_of_dvd b.dvd_boundary
  · rw [List.nodup_append]
    exact ⟨h.nodup, List.nodup_singleton _, fun t ht u hu => List.mem_singleton.mp hu ▸ hnew t ht⟩
  · intro x hx
    refine allocated_realigned_out hlay hroom hintact hfits.link (fun hin => hx (h.inv.own_of_inHeaders hin)) ?_
    by_contra hin
    exact hx (h.inv.own_of_free hmem hfree (by omega) (by omega))

/-- A byte of a table is not the heap's own. -/
theorem TablesLive.not_own (h : TablesLive lo hi s bs) (ht : t ∈ s.tables) (hi' : i < 0x1000) :
    ¬ s.heap.Own lo hi (t + i) := fun hown => by
  have := hown.2.2 t 0x1000 (h.live t ht)
  omega

/-- The same, where a page can be had of what is in memory. -/
theorem TablesLive.table (h : TablesLive lo hi s bs) (hlo : 0 < lo) (hfits : TableFits lo s.heap) :
    ∃ s' bs' p, s.step .table = .ok s' ∧ TablesLive lo hi s' bs' ∧ s'.tables = s.tables ++ [p] ∧
      ∀ t ∈ s.tables, ∀ i < 0x1000, s'.heap.heap.mem (t + i) = s.heap.heap.mem (t + i) := by
  obtain ⟨xs, a, b, ys, hblocks, hfits⟩ := hfits
  obtain rfl : bs = xs ++ a :: b :: ys :=
    entries_injective (Option.some.inj (h.inv.blocks_eq.symm.trans hblocks))
  obtain ⟨s', hstep, h', htables, -, -, hframe⟩ := h.page_taken hlo hfits
  exact ⟨s', _, b.boundary, hstep, h', htables, fun t ht i hi => hframe _ (h.not_own ht hi)⟩

/-- What `takeTables` does: the heap is in order, the pages were not live and are so now, besides what was live,
    and only bytes of the heap's own are written. -/
structure TablesTaken (lo hi : Nat) (s : HeapState) (tables : List Nat) (bs' : List Block) (s' : HeapState) :
    Prop where
  inv : HeapInv lo hi s' bs'
  fresh : ∀ t ∈ tables, s.live t = none
  live : ∀ q, s'.live q = (s.live q).or (if q ∈ tables then some 0x1000 else none)
  mem : ∀ x, ¬ s.Own lo hi x → s'.heap.mem x = s.heap.mem x

/-- **Pages can be had** first for some tables, and then for the others. -/
theorem PagesFit.append {tables tables' : List Nat} {bs' : List Block} (h : PagesFit lo bs (tables ++ tables') bs') :
    ∃ bs₁, PagesFit lo bs tables bs₁ ∧ PagesFit lo bs₁ tables' bs' := by
  induction tables generalizing bs with
  | nil => exact ⟨bs, .nil, h⟩
  | cons t tables ih =>
      cases h with
      | cons hfirst hrest =>
          obtain ⟨bs₁, h₁, h₂⟩ := ih hrest
          exact ⟨bs₁, .cons hfirst h₁, h₂⟩

/-- **Pages are taken** one after the other. -/
theorem TablesLive.pages_taken {tables : List Nat} {bs' : List Block} (h : TablesLive lo hi s bs) (hlo : 0 < lo)
    (hfits : PagesFit lo bs tables bs') :
    ∃ s', run TableHeap.step s (tables.map fun _ => .table) = .ok s' ∧ s'.tables = s.tables ++ tables ∧
      TablesTaken lo hi s.heap tables bs' s'.heap := by
  induction hfits generalizing s with
  | nil => exact ⟨s, rfl, (List.append_nil _).symm, h.inv, by simp, by simp, fun _ _ => rfl⟩
  | @cons xs ys bs' a b tables hfirst hrest ih =>
      obtain ⟨s₁, hstep, h₁, htables₁, hfresh, hlive, hmem⟩ := h.page_taken hlo hfirst
      obtain ⟨s', hrun, htables, htaken⟩ := ih h₁
      have hold : ∀ q r, s.heap.live q = some r → s₁.heap.live q = some r := by
        intro q r hq
        rw [hlive, Function.update_of_ne _, hq]
        rintro rfl
        rw [hfresh] at hq
        cases hq
      refine ⟨s', run_cons.mpr ⟨s₁, hstep, hrun⟩, ?_, htaken.inv, ?_, ?_, ?_⟩
      · rw [htables, htables₁, List.append_assoc, List.singleton_append]
      · refine List.forall_mem_cons.mpr ⟨hfresh, fun t ht => ?_⟩
        cases hq : s.heap.live t with
        | none => rfl
        | some r =>
            have hnone := htaken.fresh t ht
            rw [hold t r hq] at hnone
            cases hnone
      · intro q
        rw [htaken.live, hlive]
        by_cases hq : q = b.boundary
        · rw [hq, Function.update_self, hfresh, if_pos List.mem_cons_self]
          rfl
        · rw [Function.update_of_ne hq]
          simp only [List.mem_cons, hq, false_or]
      · exact fun x hx => (htaken.mem x fun hown => hx (hown.mono hold)).trans (hmem x hx)

/-- **`takeTables`** returns where the pages can be had. -/
theorem HeapInv.takeTables {u : HeapState} {tables : List Nat} {bs' : List Block} (h : HeapInv lo hi u bs)
    (hlo : 0 < lo) (hfits : PagesFit lo bs tables bs') :
    ∃ u', u.takeTables tables = .ok u' ∧ TablesTaken lo hi u tables bs' u' := by
  have hlive : TablesLive lo hi ⟨u, []⟩ bs := ⟨h, by simp, by simp, List.nodup_nil⟩
  obtain ⟨s', hrun, htables, htaken⟩ := hlive.pages_taken hlo hfits
  exact ⟨s'.heap, bind_eq_ok.mpr ⟨s', hrun, if_pos htables⟩, htaken⟩

/-- **Any other operation.** -/
theorem TablesLive.heapOp {o : HeapOp} (h : TablesLive lo hi s bs) (hstep : s.step (.heap o) = .ok s') :
    ∃ bs', TablesLive lo hi s' bs' ∧ s'.tables = s.tables ∧
      ∀ t ∈ s.tables, ∀ i < 0x1000, s'.heap.heap.mem (t + i) = s.heap.heap.mem (t + i) := by
  unfold TableHeap.step at hstep
  dsimp only at hstep
  split at hstep
  · cases hstep
  · next hnot =>
    obtain ⟨u, hu, hret⟩ := bind_eq_ok.mp hstep
    cases hret
    obtain ⟨bs', hcase, hinv⟩ := h.inv.step hu
    have hkeep : ∀ t ∈ s.tables, u.live t = s.heap.live t ∧
        ∀ i < 0x1000, u.heap.mem (t + i) = s.heap.heap.mem (t + i) := by
      intro t ht
      obtain ⟨c, hc, hused, rfl, hr, -⟩ := h.inv.block_of_live (h.live t ht)
      have harg : o.argument ≠ some c.payload := by
        intro harg
        rw [harg, Option.any_some] at hnot
        exact hnot (decide_eq_true ht)
      obtain ⟨hbytes, hlive⟩ := hcase.frame h.inv.layout hc hused harg
      refine ⟨hlive, fun i hi => hbytes _ (Nat.le_add_right _ _) ?_⟩
      rw [Block.payload_eq, Block.stop_eq]
      omega
    exact ⟨bs', ⟨hinv, fun t ht => (hkeep t ht).1.trans (h.live t ht), h.page, h.nodup⟩, rfl,
      fun t ht => (hkeep t ht).2⟩

/-- **A table is written.** -/
theorem TablesLive.entry {t' i' : Nat} {v : UInt8} (h : TablesLive lo hi s bs)
    (hstep : s.step (.entry t' i' v) = .ok s') :
    TablesLive lo hi s' bs ∧ s'.tables = s.tables ∧ t' ∈ s.tables ∧ i' < 0x1000 ∧
      ∀ t ∈ s.tables, ∀ i < 0x1000, s'.heap.heap.mem (t + i) =
        if t' = t ∧ i' = i then v else s.heap.heap.mem (t + i) := by
  unfold TableHeap.step at hstep
  dsimp only at hstep
  split at hstep
  · next ht' =>
    obtain ⟨u, hu, hret⟩ := bind_eq_ok.mp hstep
    cases hret
    obtain ⟨bs', hcase, hinv⟩ := h.inv.step hu
    have hsame : bs' = bs := by
      cases hcase
      rfl
    subst hsame
    unfold HeapState.step at hu
    dsimp only at hu
    rw [h.live t' ht'] at hu
    dsimp only at hu
    split at hu
    · next hi' =>
      cases hu
      refine ⟨⟨hinv, h.live, h.page, h.nodup⟩, rfl, ht', hi', ?_⟩
      intro t ht i hi
      show store8 s.heap.heap.mem (t' + i') v (t + i) = _
      by_cases heq : t' = t ∧ i' = i
      · obtain ⟨rfl, rfl⟩ := heq
        rw [if_pos ⟨rfl, rfl⟩]
        exact if_pos rfl
      · rw [if_neg heq]
        refine store8_out ?_
        by_cases hne : t' = t
        · subst hne
          exact fun hcontra => heq ⟨rfl, by omega⟩
        · have hapart := h.apart ht' ht hne
          unfold Apart at hapart
          omega
    · cases hu
  · cases hstep

/-! ## Runs -/

theorem writtenLast_append (ops : List TableOp) (o : TableOp) (t i : Nat) :
    writtenLast (ops ++ [o]) t i = match o with
      | .entry t' i' v => if t' = t ∧ i' = i then some v else writtenLast ops t i
      | _              => writtenLast ops t i := by
  unfold writtenLast
  rw [List.foldl_append]
  rfl

/-- The tables along a run, and what was written to them. -/
structure TablesHold (lo hi : Nat) (ops : List TableOp) (s : TableHeap) : Prop where
  live : ∃ bs, TablesLive lo hi s bs
  written : ∀ t i v, writtenLast ops t i = some v → t ∈ s.tables ∧ i < 0x1000 ∧ s.heap.heap.mem (t + i) = v

/-- **One step.** -/
theorem TablesHold.step {ops : List TableOp} {o : TableOp} (h : TablesHold lo hi ops s) (hlo : 0 < lo)
    (hfits : o = .table → TableFits lo s.heap) (hstep : s.step o = .ok s') :
    TablesHold lo hi (ops ++ [o]) s' := by
  obtain ⟨bs, hlive⟩ := h.live
  cases o with
  | heap o =>
      obtain ⟨bs', hlive', htables, hbytes⟩ := hlive.heapOp hstep
      refine ⟨⟨bs', hlive'⟩, ?_⟩
      intro t i v hv
      rw [writtenLast_append] at hv
      obtain ⟨ht, hi, hbyte⟩ := h.written t i v hv
      exact ⟨htables ▸ ht, hi, (hbytes t ht i hi).trans hbyte⟩
  | table =>
      obtain ⟨u, bs', p, hu, hlive', htables, hbytes⟩ := hlive.table hlo (hfits rfl)
      obtain rfl := Except.ok.inj (hstep.symm.trans hu)
      refine ⟨⟨bs', hlive'⟩, ?_⟩
      intro t i v hv
      rw [writtenLast_append] at hv
      obtain ⟨ht, hi, hbyte⟩ := h.written t i v hv
      exact ⟨htables ▸ List.mem_append_left _ ht, hi, (hbytes t ht i hi).trans hbyte⟩
  | entry t' i' v' =>
      obtain ⟨hlive', htables, ht', hi', hbytes⟩ := hlive.entry hstep
      refine ⟨⟨bs, hlive'⟩, ?_⟩
      intro t i v hv
      rw [writtenLast_append] at hv
      dsimp only at hv
      by_cases heq : t' = t ∧ i' = i
      · rw [if_pos heq] at hv
        obtain ⟨rfl, rfl⟩ := heq
        cases hv
        exact ⟨htables ▸ ht', hi', (hbytes _ ht' _ hi').trans (if_pos ⟨rfl, rfl⟩)⟩
      · rw [if_neg heq] at hv
        obtain ⟨ht, hi, hbyte⟩ := h.written t i v hv
        exact ⟨htables ▸ ht, hi, ((hbytes t ht i hi).trans (if_neg heq)).trans hbyte⟩

/-- **A run** in which a page can be had whenever one is asked for. -/
theorem TablesHold.run {ops : List TableOp} {s₀ : TableHeap} (h : TablesHold lo hi [] s₀) (hlo : 0 < lo)
    (hfits : ∀ pre s, pre ++ [.table] <+: ops → Lib.run TableHeap.step s₀ pre = .ok s → TableFits lo s.heap)
    (hrun : Lib.run TableHeap.step s₀ ops = .ok s) : TablesHold lo hi ops s := by
  induction ops using List.reverseRecOn generalizing s with
  | nil =>
      cases hrun
      exact h
  | append_singleton ops o ih =>
      obtain ⟨u, hu, hlast⟩ := run_append.mp hrun
      obtain ⟨s', hstep, hnil⟩ := run_cons.mp hlast
      cases hnil
      have hbefore := ih (fun pre s hpre => hfits pre s (hpre.trans (List.prefix_append _ _))) hu
      refine hbefore.step hlo (fun ho => hfits ops u ?_ hu) hstep
      rw [ho]

/-- A new heap. -/
theorem TablesHold.init (k : KernelHeap) : TablesHold 0xd0000000 0xd0400000 [] (.init k) :=
  ⟨⟨_, HeapInv.init k (show 16 ≤ 0x400000 by decide) (show 0xd0000000 + 0x400000 < 4294967296 by decide),
    by simp [TableHeap.init], by simp [TableHeap.init], List.nodup_nil⟩, fun _ _ _ h => by cases h⟩

/-- **Page tables from the heap.** Use the heap of the kernel in any way, take pages for tables in between,
    each where a page can be had (`PageFits`: the chosen block is not the first one, has room behind the
    next boundary, its header can be moved there, and it is split or is the last one), and write to them.
    The heap is well formed after that; the tables are pages of the heap and apart from each other; they
    hold what was written to them last, whatever else was done. So `initialise_paging` with these pages to
    come leaves tables as the MMU needs them, and where a page can be had again, `kmalloc_ap` returns one.
    -/
theorem heap_tables (k : KernelHeap) {ops : List TableOp} (hrun : run TableHeap.step (.init k) ops = .ok s)
    (hfits : ∀ pre s, pre ++ [.table] <+: ops → run TableHeap.step (.init k) pre = .ok s →
      TableFits 0xd0000000 s.heap) :
    (∃ l, s.heap.blocks = some l ∧ WellFormed 0xd0000000 0xd0400000 l) ∧
      (∀ t ∈ s.tables, HeapPage t) ∧ s.tables.Pairwise Apart ∧
      (∀ t i v, writtenLast ops t i = some v → s.heap.heap.mem (t + i) = v) ∧
      (∀ frames : Nat → Nat, (∀ i, 128 ≤ i → i < 512 → frames i = 0) →
        ∃ p, initialisePaging frames (fun _ => Page.zero) s.tables = .ok p ∧
          Untouched p.kernelDirectory p ∧ Tables p.kernelDirectory p) ∧
      (TableFits 0xd0000000 s.heap → ∃ s', s.step .table = .ok s') := by
  have hhold := (TablesHold.init k).run (by decide) hfits hrun
  obtain ⟨bs, h⟩ := hhold.live
  have hpages : ∀ t ∈ s.tables, HeapPage t := fun t ht => h.heapPage ht
  have hapart : s.tables.Pairwise Apart := h.nodup.imp_of_mem fun ht ht' hne => h.apart ht ht' hne
  refine ⟨⟨_, h.inv.blocks_eq, entries_wellFormed h.inv.layout (h.inv.coalesced (by decide))⟩, hpages, hapart,
    fun t i v hv => (hhold.written t i v hv).2.2, ?_, ?_⟩
  · intro frames hmem
    obtain ⟨p, hp, -⟩ := initialisePaging_spec frames (fun _ => Page.zero) s.tables
    exact ⟨p, hp, initialisePaging_tables hmem hapart hpages hp⟩
  · intro hfits
    obtain ⟨s', -, -, hs', -⟩ := h.table (by decide) hfits
    exact ⟨s', hs'⟩

/-- After a first allocation, a page is taken and written to. -/
theorem heap_tables_first : ∃ s p, run TableHeap.step (.init ⟨fun _ => 0, none, 0⟩)
      [.heap (.kmalloc 16), .table, .entry p 5 7] = .ok s ∧
    s.tables = [p] ∧ HeapPage p ∧ s.heap.heap.mem (p + 5) = 7 := by
  let k : KernelHeap := ⟨fun _ => 0, none, 0⟩
  have hnew : HeapInv 0xd0000000 0xd0400000 (TableHeap.init k).heap [⟨0xd0000000, 0x3ffff0, false⟩] :=
    HeapInv.init k (show 16 ≤ 0x400000 by decide) (show 0xd0000000 + 0x400000 < 4294967296 by decide)
  obtain ⟨heap, hk, hfirst⟩ := hnew.kheap
  obtain ⟨q, k₁, hkmalloc⟩ := kmalloc_ok hk hfirst hnew.layout (n := 16) (by decide)
    ⟨_, List.mem_singleton_self _, rfl, by decide⟩
  let h₁ : HeapState := ⟨k₁, Function.update (TableHeap.init k).heap.live q (some 16)⟩
  have hstep₁ : (TableHeap.init k).heap.step (.kmalloc 16) = .ok h₁ := bind_eq_ok.mpr ⟨_, hkmalloc, rfl⟩
  have hfits : TableFits 0xd0000000 h₁ := by
    obtain ⟨bs, hcase, hinv⟩ := hnew.step hstep₁
    generalize h₁ = h₁ at hcase hinv
    cases hcase with
    | kmalloc xs b ys hsplit hfree hn hframe =>
        obtain ⟨rfl, hb, rfl⟩ : xs = [] ∧ b = ⟨0xd0000000, 0x3ffff0, false⟩ ∧ ys = [] := by
          rcases xs with _ | ⟨x, xs⟩
          · simp only [List.nil_append, List.cons.injEq] at hsplit
            exact ⟨rfl, hsplit.1.symm, hsplit.2.symm⟩
          · simp at hsplit
        subst hb
        exact ⟨[], ⟨0xd0000000, 16, true⟩, ⟨0xd0000020, 0x3fffd0, false⟩, [], hinv.blocks_eq, by decide,
          by decide, by decide, .inr rfl⟩
  obtain ⟨bs₁, -, hinv₁⟩ := hnew.step hstep₁
  have hlive₁ : TablesLive 0xd0000000 0xd0400000 ⟨h₁, []⟩ bs₁ :=
    ⟨hinv₁, by simp, by simp, List.nodup_nil⟩
  obtain ⟨s₂, bs₂, p, hstep₂, hlive₂, htables, -⟩ := hlive₁.table (by decide) hfits
  have hp : s₂.tables = [p] := htables
  have hmem : p ∈ s₂.tables := hp ▸ List.mem_singleton_self p
  let s₃ : TableHeap := { s₂ with heap := { s₂.heap with heap := { s₂.heap.heap with
    mem := store8 s₂.heap.heap.mem (p + 5) 7 } } }
  have hstep₃ : s₂.step (.entry p 5 7) = .ok s₃ := by
    refine (if_pos hmem).trans (bind_eq_ok.mpr ⟨s₃.heap, ?_, rfl⟩)
    unfold HeapState.step
    dsimp only
    rw [hlive₂.live p hmem]
    rfl
  have hrun : run TableHeap.step (.init k) [.heap (.kmalloc 16), .table, .entry p 5 7] = .ok s₃ :=
    run_cons.mpr ⟨⟨h₁, []⟩, bind_eq_ok.mpr ⟨h₁, hstep₁, rfl⟩,
      run_cons.mpr ⟨s₂, hstep₂, run_cons.mpr ⟨s₃, hstep₃, rfl⟩⟩⟩
  obtain ⟨-, hpages, -, hwritten, -⟩ := heap_tables k hrun (by
    intro pre s hpre hs
    obtain ⟨rest, hops⟩ := hpre
    rcases pre with _ | ⟨o₁, _ | ⟨o₂, _ | ⟨o₃, pre⟩⟩⟩
    · simp at hops
    · simp only [List.cons_append, List.nil_append, List.cons.injEq] at hops
      obtain ⟨rfl, -⟩ := hops
      obtain ⟨u, hu, hnil⟩ := run_cons.mp hs
      cases hnil
      obtain ⟨h, hh, hret⟩ := bind_eq_ok.mp hu
      cases hret
      obtain rfl := Except.ok.inj (hstep₁.symm.trans hh)
      exact hfits
    · simp at hops
    · simp at hops)
  exact ⟨s₃, p, hrun, hp, hpages p hmem, hwritten p 5 7 (if_pos ⟨rfl, rfl⟩)⟩

end WeirdOs
