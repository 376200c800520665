import WeirdOs.Paging.Correctness.Frames

/-!
# `Paging.Correctness.View` — a page directory as a function from pages to entries

`pageAt` forgets where the tables of a directory are: it is the entry that describes a page, zero where
there is no table. As long as the tables are apart from each other and from the memory still to be handed
out (`ViewInv`), mapping a page is an update of this function at one page (`ViewInv.mapPage`). All that is
said elsewhere about ranges of pages is a consequence of that one step.
-/

namespace WeirdOs

open Lib

variable {s s' : Paging} {dir a b p q : Nat}

/-- The entry that describes the page of an address; zero where there is no table. -/
def pageAt (s : Paging) (dir a : Nat) : Page := ((entry s dir a).map s.pages).getD Page.zero

theorem pageAt_of_entry (h : entry s dir a = some p) : pageAt s dir a = s.pages p := by
  rw [pageAt, h]
  rfl

theorem pageAt_of_none (h : entry s dir a = none) : pageAt s dir a = Page.zero := by
  rw [pageAt, h]
  rfl

/-- Entries are of pages, not of addresses. -/
theorem entry_page (h : a / 0x1000 = b / 0x1000) : entry s dir a = entry s dir b := by
  rw [entry, entry, slot, slot, h]

theorem pageAt_page (h : a / 0x1000 = b / 0x1000) : pageAt s dir a = pageAt s dir b := by
  rw [pageAt, pageAt, entry_page h]

/-- Being mapped is a property of the entry. -/
theorem mapped_iff : Mapped s dir a ↔ (pageAt s dir a).present = 1 ∧ (pageAt s dir a).frame ≠ 0 := by
  cases hentry : entry s dir a with
  | none =>
      rw [pageAt_of_none hentry]
      refine iff_of_false ?_ fun h => absurd h.1 (by decide)
      rintro ⟨p, hp, -⟩
      rw [hentry] at hp
      cases hp
  | some p =>
      rw [pageAt_of_entry hentry]
      constructor
      · rintro ⟨q, hq, h⟩
        obtain rfl := Option.some.inj (hentry.symm.trans hq)
        exact h
      · exact fun h => ⟨p, hentry, h⟩

/-! ## The invariant -/

/-- The tables of a directory are apart from each other and from fresh memory. -/
structure ViewInv (dir : Nat) (s : Paging) : Prop where
  fresh : ∃ heap, Fresh dir s heap
  apart : ∀ j k, j ≠ k → (s.dirs dir).tables j ≠ 0 → (s.dirs dir).tables k ≠ 0 →
    Apart ((s.dirs dir).tables j) ((s.dirs dir).tables k)

/-- A directory without tables, as `fork_page` makes it. -/
theorem ViewInv.init {heap : List Nat} (hfresh : Fresh dir s heap)
    (hnew : ∀ k, (s.dirs dir).tables k = 0) : ViewInv dir s :=
  ⟨⟨heap, hfresh⟩, fun j _ _ hj => absurd (hnew j) hj⟩

/-- **Different pages have different entries.** -/
theorem ViewInv.entry_inj (h : ViewInv dir s) (ha : entry s dir a = some p) (hb : entry s dir b = some p) :
    a / 0x1000 = b / 0x1000 := by
  obtain ⟨hta, hpa⟩ := entry_eq_some.mp ha
  obtain ⟨htb, hpb⟩ := entry_eq_some.mp hb
  by_cases hslot : slot a = slot b
  · rw [hslot] at hpa
    unfold slot at hslot
    omega
  · have := h.apart _ _ hslot hta htb
    unfold Apart at this
    omega

/-- A new table apart from the others keeps them apart. -/
theorem apart_addTable {i table addr : Nat}
    (hapart : ∀ j k, j ≠ k → (s.dirs dir).tables j ≠ 0 → (s.dirs dir).tables k ≠ 0 →
      Apart ((s.dirs dir).tables j) ((s.dirs dir).tables k))
    (hfar : ∀ k, (s.dirs dir).tables k ≠ 0 → Apart table ((s.dirs dir).tables k)) :
    let t := addTable s dir i table addr
    ∀ j k, j ≠ k → (t.dirs dir).tables j ≠ 0 → (t.dirs dir).tables k ≠ 0 →
      Apart ((t.dirs dir).tables j) ((t.dirs dir).tables k) := by
  intro t j k hjk
  rw [tables_addTable, tables_addTable]
  by_cases hj : j = i
  · have hk : k ≠ i := fun hk => hjk (hj.trans hk.symm)
    rw [if_pos hj, if_neg hk]
    exact fun _ => hfar k
  · rw [if_neg hj]
    by_cases hk : k = i
    · rw [if_pos hk]
      exact fun hj' _ => (hfar j hj').symm
    · rw [if_neg hk]
      exact hapart j k hjk

/-- A new table apart from the others changes the view of no page: its own entries are zero, as if it were
    not there. -/
theorem pageAt_addTable {i table addr : Nat} (hnone : (s.dirs dir).tables i = 0) (htable : table ≠ 0)
    (hfar : ∀ k, (s.dirs dir).tables k ≠ 0 → Apart table ((s.dirs dir).tables k)) (b : Nat) :
    pageAt (addTable s dir i table addr) dir b = pageAt s dir b := by
  by_cases hb : slot b = i
  · subst hb
    rw [pageAt_of_none (entry_eq_none.mpr hnone), pageAt_of_entry (entry_addTable_self htable)]
    exact pages_addTable_new ⟨Nat.le_add_right _ _, by omega⟩
  · cases hentry : entry s dir b with
    | none =>
        rw [pageAt_of_none hentry, pageAt_of_none]
        rw [entry_eq_none, tables_addTable, if_neg hb]
        exact entry_eq_none.mp hentry
    | some q =>
        rw [pageAt_of_entry hentry, pageAt_of_entry (entry_addTable_keep hnone hentry)]
        apply if_neg
        intro hin
        obtain ⟨ht, rfl⟩ := entry_eq_some.mp hentry
        have := hfar _ ht
        unfold Apart at this
        omega

/-- **Getting an entry** keeps the invariant, and the view of every page. -/
theorem ViewInv.getPage (h : ViewInv dir s) (hget : getPage s a true dir = .ok (some p, s')) :
    ViewInv dir s' ∧ entry s' dir a = some p ∧ ∀ b, pageAt s' dir b = pageAt s dir b := by
  rcases getPage_cases hget with ⟨p', hp, hr, rfl⟩ | ⟨hnone, table, addr, s₁, hk, _, hr, rfl⟩
  · cases hr
    exact ⟨h, hp, fun _ => rfl⟩
  · cases hr
    obtain ⟨heap, hfresh⟩ := h.fresh
    obtain ⟨rest, rfl, _, rfl⟩ := kmallocAp_cases hfresh.kheap hk
    have hslot : (s.dirs dir).tables (slot a) = 0 := entry_eq_none.mp hnone
    have htable : table ≠ 0 := hfresh.nonnull table List.mem_cons_self
    have hfar : ∀ k, (s.dirs dir).tables k ≠ 0 → Apart table ((s.dirs dir).tables k) :=
      hfresh.tables table List.mem_cons_self
    let u : Paging := { s with kheap := some rest }
    exact ⟨⟨⟨rest, hfresh.addTable⟩, apart_addTable (s := u) h.apart hfar⟩, entry_addTable_self htable,
      pageAt_addTable (s := u) hslot htable hfar⟩

/-- **Changing an entry** changes the view of its page only. -/
theorem ViewInv.pageAt_update {t : Paging} {page : Page} (h : ViewInv dir s)
    (hentry : entry s dir a = some p) (hdirs : t.dirs = s.dirs)
    (hpages : t.pages = Function.update s.pages p page) (b : Nat) :
    pageAt t dir b = if b / 0x1000 = a / 0x1000 then page else pageAt s dir b := by
  unfold pageAt
  rw [entry_congr hdirs, hpages]
  by_cases hb : b / 0x1000 = a / 0x1000
  · rw [if_pos hb, entry_page hb, hentry]
    exact Function.update_self ..
  · rw [if_neg hb]
    cases hbentry : entry s dir b with
    | none => rfl
    | some q =>
        refine Function.update_of_ne ?_ ..
        rintro rfl
        exact hb (h.entry_inj hbentry hentry)

/-- The entry that a request makes of an entry without a frame. -/
def PageRequest.page (r : PageRequest) (frame : Nat) : Page where
  present := 1
  rw := if r.isWritable ≠ 0 then 1 else 0
  user := if r.isKernel ≠ 0 then 0 else 1
  frame := frame

/-- **Mapping a page** does nothing to the view of a directory if the page has a frame. Otherwise its entry
    becomes that of the request, with the frame that `first_frame` returns, and no other entry changes. -/
theorem ViewInv.mapPage {r : PageRequest} (h : ViewInv dir s) (hmap : mapPage dir s r = .ok s') :
    ViewInv dir s' ∧
    (((pageAt s dir r.address).frame ≠ 0 ∧ ∀ b, pageAt s' dir b = pageAt s dir b) ∨
      ((pageAt s dir r.address).frame = 0 ∧ ∀ b, pageAt s' dir b =
        if b / 0x1000 = r.address / 0x1000 then r.page (firstFrame s.frames s.nframes % 1048576)
        else pageAt s dir b)) := by
  obtain ⟨p, s₁, hget, halloc⟩ := mapPage_eq_ok.mp hmap
  obtain ⟨h₁, hentry, hview⟩ := h.getPage hget
  obtain ⟨hframes, hnframes⟩ := getPage_frames hget
  simp only [← hview, pageAt_of_entry hentry, ← hframes, ← hnframes]
  rcases allocFrame_cases halloc with ⟨hf, rfl⟩ | ⟨hzero, rfl⟩
  · exact ⟨h₁, Or.inl ⟨hf, fun _ => rfl⟩⟩
  · obtain ⟨heap, hfresh⟩ := h₁.fresh
    exact ⟨⟨⟨heap, hfresh.kheap, hfresh.apart, hfresh.nonnull, hfresh.tables⟩, h₁.apart⟩,
      Or.inr ⟨hzero, h₁.pageAt_update hentry rfl rfl⟩⟩

/-- Mapping other pages leaves the entry of a page as it is. -/
theorem ViewInv.run_keep {rs : List PageRequest} (h : ViewInv dir s)
    (hout : ∀ r ∈ rs, a / 0x1000 ≠ r.address / 0x1000) (hrun : run (WeirdOs.mapPage dir) s rs = .ok s') :
    ViewInv dir s' ∧ pageAt s' dir a = pageAt s dir a := by
  refine run_invariant_of (fun t => ViewInv dir t ∧ pageAt t dir a = pageAt s dir a) ?_ hout ⟨h, rfl⟩ hrun
  rintro t r u hr ⟨ht, hat⟩ hstep
  obtain ⟨hu, ⟨-, hsame⟩ | ⟨-, hupdate⟩⟩ := ht.mapPage hstep
  · exact ⟨hu, (hsame a).trans hat⟩
  · refine ⟨hu, ?_⟩
    rw [hupdate, if_neg hr]
    exact hat

theorem ViewInv.run {rs : List PageRequest} (h : ViewInv dir s)
    (hrun : run (WeirdOs.mapPage dir) s rs = .ok s') : ViewInv dir s' :=
  run_invariant (ViewInv dir) (fun _ _ _ ht hstep => (ht.mapPage hstep).1) h hrun

end WeirdOs
