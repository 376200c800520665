import WeirdOs.Util.Correctness.String

/-!
# `Util.Correctness.Shared` — strings that share a buffer

The copy constructors copy the pointer, and `==` answers at once when the pointers are equal. That is right
as long as strings with one buffer have one length (`eqRight_iff`). A copy and its source do; `+=` changes
the length of its target only, and when `krealloc` leaves the buffer where it is, the others that have it
keep a length that is no longer that of the text (`append_in_place_wrong`).

`SharedInv`: every live string has a live buffer that is large enough, and strings with one buffer have one
length. It survives every operation that spares the buffers that are shared: nothing is appended to them,
and they are not freed (`sharedStep`).
-/

namespace WeirdOs

open Lib

variable {lo hi len : Nat} {s t : StringState} {o : StringOp} {a b : Nat} {old : Option Nat}

namespace StringState

/-! ## What `==` should answer -/

/-- Another live string has the buffer of `a`. -/
def Shared (s : StringState) (a : Nat) : Prop := ∃ b ∈ s.live, b ≠ a ∧ (s.str b).data = (s.str a).data

/-- The same length and the same bytes. -/
structure SameText (s : StringState) (a b : Nat) : Prop where
  length : (s.str a).length = (s.str b).length
  bytes : ∀ i < (s.str a).length, s.charAt a i = s.charAt b i

/-- **`==` is right**, for every two live strings. -/
def EqRight (s : StringState) : Prop := ∀ a ∈ s.live, ∀ b ∈ s.live, s.eq a b = true ↔ s.SameText a b

/-- Live strings with one buffer have one length. -/
def OneLength (s : StringState) : Prop :=
  ∀ a ∈ s.live, ∀ b ∈ s.live, (s.str a).data = (s.str b).data → (s.str a).length = (s.str b).length

/-- The byte behind the text is a NUL. -/
def HasNul (s : StringState) (a : Nat) : Prop := s.charAt a (s.str a).length = 0

/-- **What `==` answers.** -/
theorem eq_iff : s.eq a b = true ↔ (s.str a).data = (s.str b).data ∨ s.SameText a b := by
  unfold StringState.eq
  by_cases hdata : (s.str a).data = (s.str b).data
  · simp [hdata]
  · rw [if_neg hdata, or_iff_right hdata]
    by_cases hlen : (s.str a).length = (s.str b).length
    · rw [if_neg (not_not_intro hlen), List.all_eq_true]
      simp only [List.mem_range, decide_eq_true_eq]
      exact ⟨fun hbytes => ⟨hlen, hbytes⟩, fun hsame => hsame.bytes⟩
    · rw [if_pos hlen]
      exact ⟨nofun, fun hsame => absurd hsame.length hlen⟩

/-- **The shortcut for equal pointers is right iff** strings with one buffer have one length. -/
theorem eqRight_iff : s.EqRight ↔ s.OneLength := by
  constructor
  · intro hright a ha b hb hdata
    exact ((hright a ha b hb).mp (eq_iff.mpr (Or.inl hdata))).length
  · intro hone a ha b hb
    rw [eq_iff, or_iff_right_iff_imp]
    intro hdata
    refine ⟨hone a ha b hb hdata, fun i _ => ?_⟩
    unfold charAt
    rw [hdata]

end StringState

/-! ## Appends -/

/-- Appending the empty text leaves the buffer where it is. -/
theorem AppendedBy.kept {q : Nat} {h₁ : HeapState} {f : Mem → Mem}
    (happ : AppendedBy s a (s.str a).length q h₁ f t) (hs : ∃ bs, HeapInv lo hi s.heap bs)
    (ha : s.HasBuffer a) : t.str = s.str := by
  obtain ⟨bs, hheap⟩ := hs
  obtain ⟨r, hr, hlen⟩ := ha
  obtain ⟨rfl, -⟩ := Prod.mk.inj (Except.ok.inj (happ.call.symm.trans (hheap.realloc_kept hr hlen)))
  rw [happ.str]
  exact Function.update_eq_self a s.str

/-- **An append that makes a shared buffer longer where it is breaks `==`.** -/
theorem append_in_place_wrong (hright : s.EqRight) (hop : o.appendsTo = some a) (hshared : s.Shared a)
    (hlonger : s.resultLength o ≠ (s.str a).length) (hfits : LengthFits s o) (hrun : s.step o = .ok t)
    (hkept : (t.str a).data = (s.str a).data) : ¬ t.EqRight := by
  obtain ⟨ha, q, h₁, f, happ⟩ := appended_cases hop hfits hrun
  obtain ⟨b, hb, hba, hdata⟩ := hshared
  have hlen := StringState.eqRight_iff.mp hright b hb a ha hdata
  have hother : t.str b = s.str b := by rw [happ.str, Function.update_of_ne hba]
  have hself : (t.str a).length = s.resultLength o := by rw [happ.str, Function.update_self]
  rw [StringState.eqRight_iff]
  intro hone
  rw [← happ.live] at ha hb
  have hsame := hone a ha b hb (by rw [hother, hkept, hdata])
  rw [hself, hother, hlen] at hsame
  exact hlonger hsame

/-! ## The invariant -/

/-- **Strings may share buffers**, but then they have one length. -/
structure SharedInv (lo hi : Nat) (s : StringState) : Prop extends BuffersLive lo hi s where
  oneLength : s.OneLength

theorem SharedInv.eqRight (hs : SharedInv lo hi s) : s.EqRight := StringState.eqRight_iff.mpr hs.oneLength

/-- The operation makes no string longer whose buffer another one has. -/
def AppendsAlone (s : StringState) (o : StringOp) : Prop :=
  ∀ a, o.appendsTo = some a → s.Shared a → s.resultLength o = (s.str a).length

/-- **The operation spares the buffers that are shared**: it appends nothing to them and does not free
    them. -/
structure SparesShared (s : StringState) (o : StringOp) : Prop where
  fits : LengthFits s o
  appends : AppendsAlone s o
  destroys : ∀ a, o = .destroy a → ¬ s.Shared a

theorem sparesShared_of_fits (hfits : LengthFits s o) (happends : o.appendsTo = none)
    (hdestroy : ∀ a, o ≠ .destroy a) : SparesShared s o := by
  refine ⟨hfits, ?_, fun a h => absurd h (hdestroy a)⟩
  intro a h
  rw [happends] at h
  cases h

/-- The operation leaves the buffers that are shared where they are: it does not free them, and `krealloc`
    does not move them. -/
structure KeepsShared (s : StringState) (o : StringOp) : Prop where
  fits : LengthFits s o
  destroys : ∀ a, o = .destroy a → ¬ s.Shared a
  stays : ∀ a t, o.appendsTo = some a → s.Shared a → s.step o = .ok t → (t.str a).data = (s.str a).data

/-- A string that has the same buffer, with the byte behind its text as it was. -/
theorem StringState.HasNul.congr (hb : s.HasNul b) (hs : ∃ bs, HeapInv lo hi s.heap bs)
    (hbuffer : s.HasBuffer b) (hstr : t.str b = s.str b)
    (hbyte : t.heap.heap.mem ((s.str b).data + (s.str b).length) =
      s.heap.heap.mem ((s.str b).data + (s.str b).length)) : t.HasNul b := by
  have hfits := hbuffer.fits hs
  unfold StringState.HasNul StringState.charAt at hb ⊢
  rw [add32_of_lt (by omega)] at hb
  rw [hstr, add32_of_lt (by omega), hbyte]
  exact hb

/-- **What an operation leaves**: the invariant, and the NULs of the strings that it is not about. -/
structure SharedStep (lo hi : Nat) (s : StringState) (a : Nat) (t : StringState) : Prop where
  inv : SharedInv lo hi t
  others : ∀ b ∈ t.live, b ≠ a → b ∈ s.live ∧ (s.HasNul b → t.HasNul b)

/-- A string with a buffer of its own, among strings that keep theirs. -/
theorem Gives.sharedStep (hg : Gives lo hi s old a len t) (hs : SharedInv lo hi s)
    (hlive : ∀ b ∈ t.live, b ≠ a → b ∈ s.live ∧ old ≠ some (s.str b).data) : SharedStep lo hi s a t := by
  refine ⟨⟨hg.buffersLive hs.toBuffersLive hlive, ?_⟩, ?_⟩
  · intro b hb c hc heq
    rcases hg.same_buffer hs.toBuffersLive hlive hb hc heq with rfl | ⟨hb', hc', hbstr, hcstr⟩
    · rfl
    · rw [hbstr, hcstr] at heq ⊢
      exact hs.oneLength b hb' c hc' heq
  · intro b hb hba
    obtain ⟨hb', hold⟩ := hlive b hb hba
    obtain ⟨hstr, -, -, hbytes⟩ := hg.keeps (hs.owned b hb') hba hold
    exact ⟨hb', fun hnul => hnul.congr hs.heap (hs.owned b hb') hstr (hbytes _ (Nat.le_refl _))⟩

/-- An append of nothing, to a string whose buffer others may have. -/
theorem AppendedBy.sharedStep {q : Nat} {h₁ : HeapState} {f : Mem → Mem}
    (happ : AppendedBy s a (s.str a).length q h₁ f t) (hresized : Resized lo hi s a (s.str a).length t)
    (hs : SharedInv lo hi s) (ha : a ∈ s.live) : SharedStep lo hi s a t := by
  have hstr := happ.kept hs.heap (hs.owned a ha)
  have hg := hresized.gives
  have hbuffer := hg.hasBuffer
  have hnul := happ.nul
  unfold StringState.HasBuffer at hbuffer
  unfold StringState.charAt at hnul
  rw [hstr] at hbuffer hnul
  refine ⟨⟨⟨?_, ?_⟩, ?_⟩, ?_⟩
  · obtain ⟨p, n, hgiven, -⟩ := hg
    exact hgiven.inv
  · intro b hb
    rw [hresized.live] at hb
    by_cases hdata : (s.str b).data = (s.str a).data
    · unfold StringState.HasBuffer
      rw [hstr, hdata, hs.oneLength b hb a ha hdata]
      exact hbuffer
    · refine (hg.keeps (hs.owned b hb) ?_ fun heq => hdata (Option.some.inj heq).symm).2.2.1
      rintro rfl
      exact hdata rfl
  · intro b hb c hc
    rw [hresized.live] at hb hc
    rw [hstr]
    exact hs.oneLength b hb c hc
  · intro b hb hba
    rw [hresized.live] at hb
    refine ⟨hb, fun hbnul => ?_⟩
    by_cases hdata : (s.str b).data = (s.str a).data
    · -- the byte that is written is the one behind this text too
      unfold StringState.HasNul StringState.charAt
      rw [hstr, hdata, hs.oneLength b hb a ha hdata]
      exact hnul
    · obtain ⟨hbstr, -, -, hbytes⟩ :=
        hg.keeps (hs.owned b hb) hba fun heq => hdata (Option.some.inj heq).symm
      exact hbnul.congr hs.heap (hs.owned b hb) hbstr (hbytes _ (Nat.le_refl _))

theorem copy_sharedStep (hs : SharedInv lo hi s) (hb : b ∈ s.live) :
    SharedStep lo hi s a (s.construct a (s.str b)) := by
  -- every string then has the buffer and the length that some string had
  have hother : ∀ c ∈ (s.construct a (s.str b)).live, c ≠ a →
      c ∈ s.live ∧ (s.construct a (s.str b)).str c = s.str c := fun c hc hca =>
    ⟨Finset.mem_of_mem_insert_of_ne hc hca, Function.update_of_ne hca ..⟩
  have hsource : ∀ c ∈ (s.construct a (s.str b)).live,
      ∃ x ∈ s.live, (s.construct a (s.str b)).str c = s.str x := by
    intro c hc
    by_cases hca : c = a
    · exact ⟨b, hb, by rw [hca]; exact Function.update_self ..⟩
    · exact ⟨c, hother c hc hca⟩
  refine ⟨⟨⟨hs.heap, ?_⟩, ?_⟩, ?_⟩
  · intro c hc
    obtain ⟨x, hx, hcx⟩ := hsource c hc
    unfold StringState.HasBuffer
    rw [hcx]
    exact hs.owned x hx
  · intro c hc d hd
    obtain ⟨x, hx, hcx⟩ := hsource c hc
    obtain ⟨y, hy, hdy⟩ := hsource d hd
    rw [hcx, hdy]
    exact hs.oneLength x hx y hy
  · intro c hc hca
    obtain ⟨hc', hstr⟩ := hother c hc hca
    exact ⟨hc', fun hnul => hnul.congr hs.heap (hs.owned c hc') hstr rfl⟩

/-- The end of a string that has its buffer for itself. -/
theorem destroy_sharedStep (hs : SharedInv lo hi s) (halone : ¬ s.Shared a) {h' : HeapState}
    (hinv : ∃ bs, HeapInv lo hi h' bs)
    (hframe : ∀ q r, s.heap.live q = some r → q ≠ (s.str a).data → h'.live q = some r ∧
      ∀ i < r, h'.heap.mem (q + i) = s.heap.heap.mem (q + i)) :
    SharedStep lo hi s a
      { s with heap := h', freed := s.freed ++ [(s.str a).data], live := s.live.erase a } := by
  have hother : ∀ b ∈ s.live.erase a, b ∈ s.live ∧
      ∃ r, (s.str b).length < r ∧ h'.live (s.str b).data = some r ∧
        ∀ i < r, h'.heap.mem ((s.str b).data + i) = s.heap.heap.mem ((s.str b).data + i) := by
    intro b hb
    have hb' := Finset.mem_of_mem_erase hb
    obtain ⟨r, hr, hlen⟩ := hs.owned b hb'
    exact ⟨hb', r, hlen, hframe _ r hr fun hdata => halone ⟨b, hb', Finset.ne_of_mem_erase hb, hdata⟩⟩
  refine ⟨⟨⟨hinv, ?_⟩, ?_⟩, ?_⟩
  · intro b hb
    obtain ⟨-, r, hlen, hlive, -⟩ := hother b hb
    exact ⟨r, hlive, hlen⟩
  · intro b hb c hc
    exact hs.oneLength b (hother b hb).1 c (hother c hc).1
  · intro b hb _
    obtain ⟨hb', r, hlen, -, hbytes⟩ := hother b hb
    exact ⟨hb', fun hnul => hnul.congr hs.heap (hs.owned b hb') rfl (hbytes _ hlen)⟩

/-- **One operation that spares the buffers that are shared.** -/
theorem sharedStep (hs : SharedInv lo hi s) (hspares : SparesShared s o) (hrun : s.step o = .ok t) :
    SharedStep lo hi s o.target t := by
  cases bufferStep_cases hs.toBuffersLive hspares.fits hrun with
  | created hop hnew hc =>
      rw [StringOp.target_of_constructs hop]
      refine hc.gives.sharedStep hs fun b hb hba => ⟨?_, nofun⟩
      rw [hc.live] at hb
      exact Finset.mem_of_mem_insert_of_ne hb hba
  | copied _ hmem => exact copy_sharedStep hs hmem
  | assigned ha _ hr => exact hr.gives.sharedStep hs fun b hb _ => ⟨hr.live ▸ hb, nofun⟩
  | @appended o t a hop ha hr =>
      rw [StringOp.target_of_appendsTo hop]
      by_cases hshared : s.Shared a
      · obtain ⟨-, q, h₁, f, happ⟩ := appended_cases hop hspares.fits hrun
        rw [hspares.appends a hop hshared] at happ hr
        exact happ.sharedStep hr hs ha
      · apply hr.gives.sharedStep hs
        intro b hb hba
        rw [hr.live] at hb
        exact ⟨hb, fun heq => hshared ⟨b, hb, hba, (Option.some.inj heq).symm⟩⟩
  | destroyed _ hinv hframe => exact destroy_sharedStep hs (hspares.destroys _ rfl) hinv hframe

/-! ## Runs -/

theorem sharedInv_start {heap : HeapState} {bs : List Block} (hh : HeapInv lo hi heap bs) :
    SharedInv lo hi (StringState.start heap) :=
  ⟨(stringInv_start hh).buffersLive, fun a ha => absurd ha (Finset.notMem_empty a)⟩

/-- **When `==` is right.** It is, in every state that a run reaches, when nothing is appended to a string
    whose buffer another one has, and no such string is destroyed. Among the runs that leave shared buffers
    where they are, it is in no other. -/
theorem string_eq_right {k : KernelHeap} {size start : Nat} (hsize : 16 ≤ size)
    (hregion : start + size < 4294967296) {heapOps : List HeapOp} {heap : HeapState}
    (hheap : (HeapState.init k size start).run heapOps = .ok heap) {ops : List StringOp}
    (hrun : StringState.run heap ops = .ok s) :
    ((∀ pre o t, pre ++ [o] <+: ops → StringState.run heap pre = .ok t → SparesShared t o) →
        ∀ pre t, pre <+: ops → StringState.run heap pre = .ok t → t.EqRight) ∧
      ((∀ pre o t, pre ++ [o] <+: ops → StringState.run heap pre = .ok t → KeepsShared t o) →
        ((∀ pre t, pre <+: ops → StringState.run heap pre = .ok t → t.EqRight) ↔
          ∀ pre o t, pre ++ [o] <+: ops → StringState.run heap pre = .ok t → AppendsAlone t o)) := by
  obtain ⟨bs, hinv⟩ := HeapInv.run hsize hregion hheap
  have hstart := sharedInv_start hinv
  have hkeep : ∀ s o t, SharedInv start (start + size) s → SparesShared s o → s.step o = .ok t →
      SharedInv start (start + size) t := fun s o t hs hspares hstep => (sharedStep hs hspares hstep).inv
  constructor
  · intro hspares pre t hpre ht
    exact (run_good hkeep hstart hrun hspares pre t hpre ht).eqRight
  · refine run_holds_iff_of (I := SharedInv start (start + size)) (fun s hs => hs.eqRight) ?_ ?_ hstart hrun
    · intro s o t hs hkeeps halone hstep
      exact hkeep s o t hs ⟨hkeeps.fits, halone, hkeeps.destroys⟩ hstep
    · intro s o t hs hkeeps hnot hstep
      obtain ⟨a, hop, hshared, hlonger⟩ : ∃ a, o.appendsTo = some a ∧ s.Shared a ∧
          s.resultLength o ≠ (s.str a).length := by
        simpa [AppendsAlone] using hnot
      exact append_in_place_wrong hs.eqRight hop hshared hlonger hkeeps.fits hstep
        (hkeeps.stays a t hop hshared hstep)

/-- A text and a copy of it. -/
theorem string_eq_right_copy :
    ∃ s, StringState.run smallHeap [.ofCstr 0 letterA, .copy 1 0] = .ok s ∧ s.Shared 1 ∧ s.EqRight := by
  have hok : ((StringState.run smallHeap [.ofCstr 0 letterA]).toOption.map fun s => (s.str 0).length) =
      some 1 := by
    decide +kernel
  have hok' : (StringState.run smallHeap [.ofCstr 0 letterA, .copy 1 0]).toOption.map
      (fun s => (s.live, s.str 0, s.str 1)) = some ({0, 1}, ⟨80, 1⟩, ⟨80, 1⟩) := by
    decide +kernel
  obtain ⟨s, hs, hafter⟩ := Option.map_eq_some_iff.mp hok'
  simp only [Prod.mk.injEq] at hafter
  obtain ⟨hlive, h0, h1⟩ := hafter
  have hrun := toOption_eq_some.mp hs
  have hheap : (HeapState.init ⟨fun _ => 0, none, 0⟩ 200 64).run [] = .ok smallHeap := rfl
  refine ⟨s, hrun, ⟨0, by rw [hlive]; decide, by decide, by rw [h0, h1]⟩, ?_⟩
  refine (string_eq_right (by decide) (by decide) hheap hrun).1 ?_ _ s (List.prefix_refl _) hrun
  obtain ⟨s₁, hfirst, hrest⟩ := run_cons.mp hrun
  obtain ⟨s₂, hsecond, -⟩ := run_cons.mp hrest
  have hlen : (s₁.str 0).length = 1 := by
    have hrun₁ : StringState.run smallHeap [.ofCstr 0 letterA] = .ok s₁ := run_cons.mpr ⟨s₁, hfirst, rfl⟩
    rw [hrun₁] at hok
    exact Option.some.inj hok
  refine (forall_steps_cons hfirst).mpr ⟨sparesShared_of_fits ?_ rfl (by simp), ?_⟩
  · simp [LengthFits, StringState.resultLength, letterA]
  · refine (forall_steps_cons hsecond).mpr ⟨sparesShared_of_fits ?_ rfl (by simp), by simp⟩
    show (s₁.str 0).length + 1 < 4294967296
    omega

/-- **A copy, and an append to its source.** The buffer has room for two letters and a NUL, so `krealloc`
    leaves it where it is: the source has two letters, the copy has one, and `==` says that they are equal. -/
theorem string_eq_wrong :
    ∃ s, StringState.run smallHeap [.ofCstr 0 letterA, .copy 1 0, .plusAssignCstr 0 letterA] = .ok s ∧
      s.live = {0, 1} ∧ s.eq 0 1 = true ∧ (s.str 0).length = 2 ∧ (s.str 1).length = 1 ∧ ¬ s.EqRight := by
  have hok : (StringState.run smallHeap
      [.ofCstr 0 letterA, .copy 1 0, .plusAssignCstr 0 letterA]).toOption.map
      (fun s => (s.live, s.str 0, s.str 1)) = some ({0, 1}, ⟨80, 2⟩, ⟨80, 1⟩) := by
    decide +kernel
  obtain ⟨s, hs, hafter⟩ := Option.map_eq_some_iff.mp hok
  simp only [Prod.mk.injEq] at hafter
  obtain ⟨hlive, h0, h1⟩ := hafter
  have heq : s.eq 0 1 = true := StringState.eq_iff.mpr (Or.inl (by rw [h0, h1]))
  refine ⟨s, toOption_eq_some.mp hs, hlive, heq, by rw [h0], by rw [h1], fun hright => ?_⟩
  have hsame := ((hright 0 (by rw [hlive]; decide) 1 (by rw [hlive]; decide)).mp heq).length
  rw [h0, h1] at hsame
  cases hsame

end WeirdOs
