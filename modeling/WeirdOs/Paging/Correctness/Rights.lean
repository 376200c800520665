import WeirdOs.Paging.Correctness.Ranges

/-!
# `Paging.Correctness.Rights` — the access rights of a page that several calls of `allocate` cover

`alloc_frame` returns straight away when the entry has a frame, before it looks at the flags. The rights of
a page are therefore those of one call, not of all calls that cover it. `deciders` lists the calls that
found the page without a frame; the last of them decides (`pageAt_decided`). While free frames remain there
is one such call, the first that maps the page (`decider_eq_find?`).
-/

namespace WeirdOs

open Lib

variable {s s' t : Paging} {dir a k w : Nat}

/-- The page is one of those that the range of the call meets. -/
def AllocateCall.Covers (c : AllocateCall) (a : Nat) : Prop :=
  0 < c.size.toNat ∧ a < 4294967296 ∧ Meets c.virtAddr.toNat c.size.toNat a

/-- The page can be written to. -/
def Page.Writable (p : Page) : Prop := p.present = 1 ∧ p.rw = 1

/-- The page can be accessed from user mode. -/
def Page.Accessible (p : Page) : Prop := p.present = 1 ∧ p.user = 1

/-- The entry has the rights that the flags of `alloc_frame` stand for. -/
structure Page.Granted (p : Page) (isKernel isWritable : Nat) : Prop where
  present : p.present = 1
  rw : p.rw = if isWritable ≠ 0 then 1 else 0
  user : p.user = if isKernel ≠ 0 then 0 else 1

theorem Page.Granted.writable_iff {p : Page} (h : p.Granted k w) : p.Writable ↔ w ≠ 0 := by
  rw [Writable, h.rw, and_iff_right h.present]
  split <;> simp_all

theorem Page.Granted.accessible_iff {p : Page} (h : p.Granted k w) : p.Accessible ↔ k = 0 := by
  rw [Accessible, h.user, and_iff_right h.present]
  split <;> simp_all

/-! ## One call -/

/-- **Mapping pages with the same flags**: a page among them that has no frame gets the rights that the
    flags stand for; any other page keeps its entry. -/
theorem run_granted {rs : List PageRequest} (h : ViewInv dir s)
    (hflags : ∀ r ∈ rs, r.isKernel = k ∧ r.isWritable = w) (hrun : run (mapPage dir) s rs = .ok s') :
    ((∃ r ∈ rs, a / 0x1000 = r.address / 0x1000) ∧ (pageAt s dir a).frame = 0 →
      (pageAt s' dir a).Granted k w) ∧
    (¬ ((∃ r ∈ rs, a / 0x1000 = r.address / 0x1000) ∧ (pageAt s dir a).frame = 0) →
      pageAt s' dir a = pageAt s dir a) := by
  induction rs generalizing s with
  | nil =>
      cases hrun
      exact ⟨fun h => absurd h.1 (by simp), fun _ => rfl⟩
  | cons r rs ih =>
      obtain ⟨t, ht, hrest⟩ := run_cons.mp hrun
      obtain ⟨⟨hk, hw⟩, hflags'⟩ := List.forall_mem_cons.mp hflags
      obtain ⟨hvt, hstep⟩ := h.mapPage ht
      obtain ⟨hyes, hno⟩ := ih hvt hflags' hrest
      by_cases hr : a / 0x1000 = r.address / 0x1000
      · rw [← pageAt_page hr] at hstep
        rcases hstep with ⟨hframe, hsame⟩ | ⟨hframe, hupdate⟩
        · refine ⟨fun h => absurd h.2 hframe, ?_⟩
          intro _
          rw [← hsame a] at hframe ⊢
          exact hno fun h => hframe h.2
        · refine ⟨?_, fun h => absurd ⟨⟨r, List.mem_cons_self, hr⟩, hframe⟩ h⟩
          intro _
          -- granted now, and granted again where the page is in the list twice
          have hnow : (pageAt t dir a).Granted k w := by
            rw [hupdate, if_pos hr]
            exact ⟨rfl, by rw [← hw]; rfl, by rw [← hk]; rfl⟩
          by_cases hagain : (∃ r ∈ rs, a / 0x1000 = r.address / 0x1000) ∧ (pageAt t dir a).frame = 0
          · exact hyes hagain
          · rw [hno hagain]
            exact hnow
      · have hsame : pageAt t dir a = pageAt s dir a := by
          rcases hstep with ⟨-, hsame⟩ | ⟨-, hupdate⟩
          · exact hsame a
          · rw [hupdate, if_neg hr]
        have hin : (∃ r' ∈ r :: rs, a / 0x1000 = r'.address / 0x1000) ↔
            ∃ r' ∈ rs, a / 0x1000 = r'.address / 0x1000 := by
          simp [hr]
        rw [hin, ← hsame]
        exact ⟨hyes, hno⟩

/-- The call maps the page, and finds it without a frame. -/
def AllocateCall.Decides (dir a : Nat) (s : Paging) (c : AllocateCall) : Prop :=
  a ∈ c.pages ∧ (pageAt s dir a).frame = 0

instance (dir a : Nat) (s : Paging) (c : AllocateCall) : Decidable (c.Decides dir a s) :=
  inferInstanceAs (Decidable (_ ∧ _))

/-- **What one call does to the rights of a page.** -/
theorem AllocateCall.run_granted {c : AllocateCall} (h : ViewInv dir s) (ha : a % 0x1000 = 0)
    (hcall : c.run dir s = .ok t) :
    ViewInv dir t ∧
    (c.Decides dir a s → (pageAt t dir a).Granted c.isKernel.toNat c.isWritable.toNat) ∧
    (¬ c.Decides dir a s → pageAt t dir a = pageAt s dir a) := by
  rw [AllocateCall.run_eq] at hcall
  have hflags : ∀ r ∈ c.requests, r.isKernel = c.isKernel.toNat ∧ r.isWritable = c.isWritable.toNat := by
    intro r hr
    obtain ⟨b, -, rfl⟩ := List.mem_map.mp hr
    exact ⟨rfl, rfl⟩
  unfold Decides
  rw [← AllocateCall.mem_requests ha]
  exact ⟨h.run hcall, WeirdOs.run_granted h hflags hcall⟩

/-! ## Sequences of calls -/

/-- The calls that map the page and find it without a frame. -/
def deciders (dir a : Nat) (s : Paging) (calls : List AllocateCall) : List AllocateCall :=
  trace (fun s c => if c.Decides dir a s then [c] else []) (fun s c => c.run dir s) s calls

/-- The call that decides the rights of the page. -/
def decider (dir a : Nat) (s : Paging) (calls : List AllocateCall) : Option AllocateCall :=
  (deciders dir a s calls).getLast?

@[simp] theorem decider_nil : decider dir a s [] = none := rfl

/-- A later call that decides comes before this one. -/
theorem decider_cons {c : AllocateCall} {calls : List AllocateCall} (ht : c.run dir s = .ok t) :
    decider dir a s (c :: calls) =
      (decider dir a t calls).or (if c.Decides dir a s then some c else none) := by
  have hstep : (fun (s : Paging) (c : AllocateCall) => c.run dir s) s c = .ok t := ht
  unfold decider deciders
  rw [trace_ok hstep, List.getLast?_append]
  by_cases hc : c.Decides dir a s
  · rw [if_pos hc, if_pos hc]
    rfl
  · rw [if_neg hc, if_neg hc]
    rfl

/-- **The rights of a page** are those of the call that decides it; without one, its entry is as it was. -/
theorem pageAt_decided {calls : List AllocateCall} (h : ViewInv dir s) (ha : a % 0x1000 = 0)
    (hrun : runAllocate dir s calls = .ok s') :
    (∀ c, decider dir a s calls = some c →
      (pageAt s' dir a).Granted c.isKernel.toNat c.isWritable.toNat) ∧
    (decider dir a s calls = none → pageAt s' dir a = pageAt s dir a) := by
  induction calls generalizing s with
  | nil =>
      cases hrun
      refine ⟨?_, fun _ => rfl⟩
      intro c hc
      cases hc
  | cons c calls ih =>
      obtain ⟨t, ht, hrest⟩ := run_cons.mp hrun
      obtain ⟨hvt, hyes, hno⟩ := c.run_granted h ha ht
      obtain ⟨hlast, hnone⟩ := ih hvt hrest
      rw [decider_cons ht]
      cases hd : decider dir a t calls with
      | some c' =>
          refine ⟨?_, fun hd' => by cases hd'⟩
          intro d hd'
          cases hd'
          exact hlast c' hd
      | none =>
          rw [Option.none_or, hnone hd]
          by_cases hc : c.Decides dir a s
          · rw [if_pos hc]
            refine ⟨?_, fun hd' => by cases hd'⟩
            intro d hd'
            cases hd'
            exact hyes hc
          · rw [if_neg hc]
            exact ⟨fun d hd' => (by cases hd'), fun _ => hno hc⟩

/-- A page that has a frame is decided. -/
theorem decider_of_frame {calls : List AllocateCall} (h : ViewInv dir s) (ha : a % 0x1000 = 0)
    (hframe : (pageAt s dir a).frame ≠ 0) (hrun : runAllocate dir s calls = .ok s') :
    decider dir a s calls = none := by
  induction calls generalizing s with
  | nil => rfl
  | cons c calls ih =>
      obtain ⟨t, ht, hrest⟩ := run_cons.mp hrun
      obtain ⟨hvt, -, hno⟩ := c.run_granted h ha ht
      have hnot : ¬ c.Decides dir a s := fun hd => hframe hd.2
      rw [decider_cons ht, if_neg hnot, Option.or_none]
      apply ih hvt _ hrest
      rw [hno hnot]
      exact hframe

/-- **While free frames remain**, the first call that maps a page decides it. -/
theorem decider_eq_find? {calls : List AllocateCall} (hv : ViewInv dir s) (hf : FrameInv dir s)
    (hclear : ClearBefore dir s (calls.flatMap AllocateCall.requests)) (ha : a % 0x1000 = 0)
    (hframe : (pageAt s dir a).frame = 0) (hrun : runAllocate dir s calls = .ok s') :
    decider dir a s calls = calls.find? fun c => a ∈ c.pages := by
  induction calls generalizing s with
  | nil => rfl
  | cons c calls ih =>
      obtain ⟨t, ht, hrest⟩ := run_cons.mp hrun
      obtain ⟨hvt, -, hno⟩ := c.run_granted hv ha ht
      have hreqs : run (mapPage dir) s c.requests = .ok t := (c.run_eq s).symm.trans ht
      rw [List.flatMap_cons] at hclear
      obtain ⟨hclear₁, hclear₂⟩ := hclear.append hreqs
      obtain ⟨hft, hmapped, -⟩ := hf.run hclear₁ hreqs
      rw [decider_cons ht]
      by_cases hin : a ∈ c.pages
      · obtain ⟨r, hr, hpage⟩ := (AllocateCall.mem_requests ha).mpr hin
        have hframe' : (pageAt t dir a).frame ≠ 0 := by
          rw [pageAt_page hpage]
          exact (mapped_iff.mp (hmapped r hr)).2
        rw [decider_of_frame hvt ha hframe' hrest, Option.none_or, if_pos ⟨hin, hframe⟩]
        simp [hin]
      · have hnot : ¬ c.Decides dir a s := fun hd => hin hd.1
        rw [if_neg hnot, Option.or_none, ih hvt hft hclear₂ (by rw [hno hnot]; exact hframe) hrest]
        simp [hin]

/-- **Exactly when the rights of all calls are combined.** After any sequence of calls of `allocate` on a
    new directory: every page that a call with `is_writable` covers is writable, and every page that a call
    without `is_kernel` covers is accessible from user mode, if and only if the call that decides such a
    page has the same flag. While free frames remain, that is the first call that maps the page. -/
theorem allocate_rights_iff {heap : List Nat} {calls : List AllocateCall} (hfresh : Fresh dir s heap)
    (hnew : ∀ k, (s.dirs dir).tables k = 0) (hrun : runAllocate dir s calls = .ok s') :
    (((∀ a, (∃ c ∈ calls, c.Covers a ∧ c.isWritable.toNat ≠ 0) → (pageAt s' dir a).Writable) ∧
        ∀ a, (∃ c ∈ calls, c.Covers a ∧ c.isKernel.toNat = 0) → (pageAt s' dir a).Accessible) ↔
      (∀ a, (∃ c ∈ calls, c.Covers a ∧ c.isWritable.toNat ≠ 0) →
        ∃ c, decider dir a s calls = some c ∧ c.isWritable.toNat ≠ 0) ∧
      ∀ a, (∃ c ∈ calls, c.Covers a ∧ c.isKernel.toNat = 0) →
        ∃ c, decider dir a s calls = some c ∧ c.isKernel.toNat = 0) ∧
    (Untouched dir s → ClearBefore dir s (calls.flatMap AllocateCall.requests) →
      ∀ a, a % 0x1000 = 0 → decider dir a s calls = calls.find? fun c => a ∈ c.pages) := by
  have hv : ViewInv dir s := ViewInv.init hfresh hnew
  have hzero : ∀ a, pageAt s dir a = Page.zero := fun a => pageAt_of_none (entry_eq_none.mpr (hnew _))
  have hzero' : ¬ Page.zero.Writable ∧ ¬ Page.zero.Accessible := by
    unfold Page.Writable Page.Accessible
    decide
  have hrights : ∀ a, a % 0x1000 = 0 →
      ((pageAt s' dir a).Writable ↔ ∃ c, decider dir a s calls = some c ∧ c.isWritable.toNat ≠ 0) ∧
      ((pageAt s' dir a).Accessible ↔ ∃ c, decider dir a s calls = some c ∧ c.isKernel.toNat = 0) := by
    intro a ha
    obtain ⟨hdecided, hnone⟩ := pageAt_decided hv ha hrun
    cases hd : decider dir a s calls with
    | none =>
        rw [hnone hd, hzero]
        simp [hzero'.1, hzero'.2]
    | some c =>
        rw [(hdecided c hd).writable_iff, (hdecided c hd).accessible_iff]
        simp
  refine ⟨and_congr (forall_congr' ?_) (forall_congr' ?_), ?_⟩
  · intro a
    exact forall_congr' fun ⟨_, _, hcovers, _⟩ => (hrights a hcovers.2.2.1).1
  · intro a
    exact forall_congr' fun ⟨_, _, hcovers, _⟩ => (hrights a hcovers.2.2.1).2
  · intro hs hclear a ha
    exact decider_eq_find? hv hs.frameInv hclear ha (by rw [hzero]; rfl) hrun

/-- Two calls that share a page: the first is for writable pages of programs, the second for pages of the
    kernel, so each right that is asked for is given, and the shared page has those of the first. -/
theorem allocate_rights_iff_shared :
    ∃ s s', initialisePaging (fun _ => 0) (fun _ => Page.zero) [0xd0001000] = .ok s ∧
      runAllocate s.kernelDirectory s [⟨0x1000, 0x2000, 0, 1⟩, ⟨0x2000, 0x2000, 1, 0⟩] = .ok s' ∧
      ∀ a, (⟨0x1000, 0x2000, 0, 1⟩ : AllocateCall).Covers a →
        (pageAt s' s.kernelDirectory a).Writable ∧ (pageAt s' s.kernelDirectory a).Accessible := by
  obtain ⟨s, hs, hnew⟩ := initialisePaging_untouched (fun _ => 0) [0xd0001000] (fun _ _ _ => rfl)
    (List.pairwise_singleton ..) (by decide)
  have hrun : ((initialisePaging (fun _ => 0) (fun _ => Page.zero) [0xd0001000]).toOption.bind fun s =>
      (runAllocate s.kernelDirectory s
        [⟨0x1000, 0x2000, 0, 1⟩, ⟨0x2000, 0x2000, 1, 0⟩]).toOption).isSome = true := by
    decide +kernel
  obtain ⟨s', hs'⟩ := Option.isSome_iff_exists.mp hrun
  rw [hs] at hs'
  have hcalls := toOption_eq_some.mp hs'
  obtain ⟨heap, hfresh⟩ := hnew.fresh
  obtain ⟨hiff, hfirst⟩ := allocate_rights_iff hfresh hnew.tables hcalls
  have hdecides : ∀ a, (⟨0x1000, 0x2000, 0, 1⟩ : AllocateCall).Covers a →
      decider s.kernelDirectory a s [⟨0x1000, 0x2000, 0, 1⟩, ⟨0x2000, 0x2000, 1, 0⟩] =
        some ⟨0x1000, 0x2000, 0, 1⟩ := by
    rintro a ⟨-, -, haligned, hlt, hgt⟩
    rw [hfirst hnew (hnew.clearBefore (by decide)) a haligned]
    change a < 0x1000 + 0x2000 at hlt
    change 0x1000 < a + 0x1000 at hgt
    obtain rfl | rfl : a = 0x1000 ∨ a = 0x2000 := by omega
    · decide
    · decide
  -- the second call asks for neither right
  have hwritable : ∀ a, (∃ c ∈ [(⟨0x1000, 0x2000, 0, 1⟩ : AllocateCall), ⟨0x2000, 0x2000, 1, 0⟩],
      c.Covers a ∧ c.isWritable.toNat ≠ 0) → (⟨0x1000, 0x2000, 0, 1⟩ : AllocateCall).Covers a := by
    rintro a ⟨c, hc, hca, hw⟩
    obtain rfl | hc := List.mem_cons.mp hc
    · exact hca
    · obtain rfl := List.mem_singleton.mp hc
      exact absurd rfl hw
  have haccessible : ∀ a, (∃ c ∈ [(⟨0x1000, 0x2000, 0, 1⟩ : AllocateCall), ⟨0x2000, 0x2000, 1, 0⟩],
      c.Covers a ∧ c.isKernel.toNat = 0) → (⟨0x1000, 0x2000, 0, 1⟩ : AllocateCall).Covers a := by
    rintro a ⟨c, hc, hca, hw⟩
    obtain rfl | hc := List.mem_cons.mp hc
    · exact hca
    · obtain rfl := List.mem_singleton.mp hc
      exact absurd hw (by decide)
  obtain ⟨hrw, hru⟩ := hiff.mpr ⟨fun a ha => ⟨_, hdecides a (hwritable a ha), by decide⟩,
    fun a ha => ⟨_, hdecides a (haccessible a ha), by decide⟩⟩
  refine ⟨s, s', hs, hcalls, fun a ha => ⟨hrw a ?_, hru a ?_⟩⟩
  · exact ⟨_, List.mem_cons_self, ha, by decide⟩
  · exact ⟨_, List.mem_cons_self, ha, by decide⟩

/-- **The order of two calls matters.** A page that a read-only and a writable range share is read-only if
    the first comes first. -/
theorem allocate_rights_order :
    ∃ s s₁ s₂, initialisePaging (fun _ => 0) (fun _ => Page.zero) [0xd0001000] = .ok s ∧
      runAllocate s.kernelDirectory s [⟨0x1000, 0x10, 0, 0⟩, ⟨0x1800, 0x10, 0, 1⟩] = .ok s₁ ∧
      runAllocate s.kernelDirectory s [⟨0x1800, 0x10, 0, 1⟩, ⟨0x1000, 0x10, 0, 0⟩] = .ok s₂ ∧
      (⟨0x1800, 0x10, 0, 1⟩ : AllocateCall).Covers 0x1000 ∧
      ¬ (pageAt s₁ s.kernelDirectory 0x1000).Writable ∧
      (pageAt s₂ s.kernelDirectory 0x1000).Writable := by
  have hrun : ((initialisePaging (fun _ => 0) (fun _ => Page.zero) [0xd0001000]).toOption.bind fun s =>
      (runAllocate s.kernelDirectory s
        [⟨0x1000, 0x10, 0, 0⟩, ⟨0x1800, 0x10, 0, 1⟩]).toOption.bind fun s₁ =>
          (runAllocate s.kernelDirectory s
            [⟨0x1800, 0x10, 0, 1⟩, ⟨0x1000, 0x10, 0, 0⟩]).toOption.map fun s₂ =>
              (pageAt s₁ s.kernelDirectory 0x1000, pageAt s₂ s.kernelDirectory 0x1000)) =
      some (⟨1, 0, 1, 2048⟩, ⟨1, 1, 1, 2048⟩) := by
    decide +kernel
  obtain ⟨s, hs, hrest⟩ := Option.bind_eq_some_iff.mp hrun
  obtain ⟨s₁, hs₁, hrest⟩ := Option.bind_eq_some_iff.mp hrest
  obtain ⟨s₂, hs₂, hpages⟩ := Option.map_eq_some_iff.mp hrest
  obtain ⟨h₁, h₂⟩ := Prod.mk.inj hpages
  refine ⟨s, s₁, s₂, toOption_eq_some.mp hs, toOption_eq_some.mp hs₁, toOption_eq_some.mp hs₂, ?_, ?_, ?_⟩
  · unfold AllocateCall.Covers Meets
    decide
  · rw [h₁]
    unfold Page.Writable
    decide
  · rw [h₂]
    unfold Page.Writable
    decide

end WeirdOs
