import WeirdOs.Util.Correctness.Append
import WeirdOs.Util.Correctness.Shared
import Mathlib.Data.List.TakeWhile

/-!
# `Util.Correctness.Terminated` — strings that can be read as C strings

What takes the pointer of a string for a `const char *` reads up to the first NUL: `strlen`, `hash`, `fputs`.
Every operation puts a NUL behind the text it makes, with one exception (`step_nul`): `string()` takes a
buffer from `kmalloc` as it is, so its text ends where the heap happens to have a NUL (`default_nul_iff`).

A string that shares its buffer can lose its NUL to another one: an append writes over it, or frees the
buffer (`append_alone`), and a destruction frees it (`destroy_alone`).
-/

namespace WeirdOs

open Lib

variable {lo hi : Nat} {s t : StringState} {o : StringOp} {a b : Nat}

/-! ## Reading a string as a C string -/

/-- **What a reader of `cstr` relies on**: a buffer with room for the text and a NUL, the NUL in it, and so a
    text that ends there: `strlen` is the length, and the hash value is that of the text. -/
structure StringState.Terminated (s : StringState) (a : Nat) : Prop where
  room : s.HasBuffer a
  nul : s.HasNul a
  cstr : s.cstr a = .ok ((s.text a).takeWhile (· ≠ 0))
  strlen : 0 ∉ s.text a → s.cstrLen a = .ok (s.str a).length
  hash : s.hash a = .ok (hashText ((s.text a).takeWhile (· ≠ 0)))

/-- **The NUL is enough.** -/
theorem StringState.HasNul.terminated (hnul : s.HasNul a) (hs : ∃ bs, HeapInv lo hi s.heap bs)
    (ha : s.HasBuffer a) : s.Terminated a := by
  have hfits := ha.fits hs
  have hcstr : s.cstr a = .ok ((s.text a).takeWhile (· ≠ 0)) := by
    unfold StringState.HasNul StringState.charAt at hnul
    rw [add32_of_lt (by omega)] at hnul
    exact cstring_bytesAt (by omega) (by omega) hnul
  refine ⟨ha, hnul, hcstr, ?_, ?_⟩
  · intro hfree
    have hall : (s.text a).takeWhile (· ≠ 0) = s.text a := by
      rw [List.takeWhile_eq_self_iff]
      intro c hc
      simpa using ne_of_mem_of_not_mem hc hfree
    unfold StringState.cstrLen
    rw [hcstr, hall]
    show Except.ok (s.text a).length = _
    rw [StringState.text, bytesAt_length]
  · unfold StringState.hash
    rw [hcstr]
    rfl

/-! ## The NUL behind a text -/

/-- The byte behind the text was written last. -/
theorem hasNul_of_store {m : Mem} {p len : Nat} (hstr : t.str a = ⟨p, len⟩)
    (hmem : t.heap.heap.mem = store8 m (add32 p len) 0) : t.HasNul a := by
  unfold StringState.HasNul StringState.charAt
  rw [hstr, hmem]
  exact store8_same ..

theorem ofCstr_nul {cstr : CText} (hrun : s.ofCstr a cstr = .ok t) : t.HasNul a := by
  obtain ⟨⟨p, s₁⟩, -, hret⟩ := bind_eq_ok.mp hrun
  cases hret
  exact hasNul_of_store (Function.update_self ..) rfl

theorem ofLen_nul {len : Nat} (hrun : s.ofLen a len = .ok t) : (t.str a).length = len ∧ t.HasNul a := by
  obtain ⟨⟨p, s₁⟩, -, hret⟩ := bind_eq_ok.mp hrun
  cases hret
  have hstr : Function.update s₁.str a ⟨p, len⟩ a = ⟨p, len⟩ := Function.update_self ..
  exact ⟨congrArg Str.length hstr, hasNul_of_store hstr rfl⟩

theorem assign_nul (hfits : (s.str b).length + 1 < 4294967296) (hrun : s.assign a b = .ok t) :
    t.HasNul a := by
  obtain ⟨p, h₁, -, rfl⟩ := assign_cases hfits hrun
  exact hasNul_of_store (Function.update_self ..) rfl

theorem plusCstr_nul {x : Nat} {other : CText} (hrun : s.plusCstr a x other = .ok t) : t.HasNul a := by
  obtain ⟨s₁, -, hret⟩ := bind_eq_ok.mp hrun
  cases hret
  exact hasNul_of_store rfl rfl

theorem plus_nul {x y : Nat} (hrun : s.plus a x y = .ok t) : t.HasNul a := by
  obtain ⟨s₁, -, hret⟩ := bind_eq_ok.mp hrun
  cases hret
  exact hasNul_of_store rfl rfl

theorem substr_nul {x first len : Nat} (hrun : s.substr a x first len = .ok t) : t.HasNul a := by
  obtain ⟨s₁, hof, hret⟩ := bind_eq_ok.mp hrun
  cases hret
  obtain ⟨hlen, -⟩ := ofLen_nul hof
  exact hasNul_of_store (p := (s₁.str a).data) (by rw [← hlen]; rfl) rfl

theorem copy_nul (hb : s.HasNul b) : (s.copy a b).HasNul a := by
  unfold StringState.HasNul StringState.charAt at hb ⊢
  simp only [StringState.copy, StringState.construct, Function.update_self]
  exact hb

/-- **What `string()` leaves behind the empty text** is what its buffer began with. -/
theorem default_nul_iff (hs : ∃ bs, HeapInv lo hi s.heap bs) (hrun : s.default a = .ok t) :
    ∃ p h', s.heap.malloc 5 = .ok (p, h') ∧ (t.HasNul a ↔ s.heap.heap.mem p = 0) := by
  obtain ⟨bs, hheap⟩ := hs
  obtain ⟨⟨p, s₁⟩, hmalloc, hret⟩ := bind_eq_ok.mp hrun
  obtain ⟨⟨p', h₁⟩, hcall, hsome⟩ := bind_eq_ok.mp hmalloc
  obtain ⟨rfl, rfl⟩ := Prod.mk.inj (Except.ok.inj hsome)
  cases hret
  have hgiven := handedOut_malloc hheap (by decide) hcall
  obtain ⟨bs', hinv⟩ := hgiven.inv
  have hend := hinv.fits hgiven.live
  have hbyte := hheap.malloc_bytes hcall 0 (by decide)
  refine ⟨p', h₁, hcall, ?_⟩
  unfold StringState.HasNul StringState.charAt
  simp only [StringState.construct, Function.update_self]
  rw [add32_of_lt (by omega), hbyte, Nat.add_zero]

/-- What `string()` is given begins with a NUL. -/
def DefaultNul (s : StringState) (o : StringOp) : Prop :=
  ∀ a p h', o = .default a → s.heap.malloc 5 = .ok (p, h') → s.heap.heap.mem p = 0

/-- **The NUL that an operation leaves** behind the text of its target: it writes one, or copies the pointer
    to one, or finds one. -/
theorem step_nul (hs : BuffersLive lo hi s) (hfits : LengthFits s o) (hdefault : DefaultNul s o)
    (hnuls : ∀ b ∈ s.live, s.HasNul b) (hrun : s.step o = .ok t) (ha : o.target ∈ t.live) :
    t.HasNul o.target := by
  cases o with
  | default a =>
      obtain ⟨_, -, hrun⟩ := bind_eq_ok.mp hrun
      obtain ⟨p, h', hcall, hiff⟩ := default_nul_iff hs.heap hrun
      exact hiff.mpr (hdefault a p h' rfl hcall)
  | ofCstr a cstr =>
      obtain ⟨_, -, hrun⟩ := bind_eq_ok.mp hrun
      exact ofCstr_nul hrun
  | ofLen a len =>
      obtain ⟨_, -, hrun⟩ := bind_eq_ok.mp hrun
      exact (ofLen_nul hrun).2
  | copy a b =>
      obtain ⟨_, -, hrun⟩ := bind_eq_ok.mp hrun
      obtain ⟨_, hb, hrun⟩ := bind_eq_ok.mp hrun
      cases hrun
      exact copy_nul (hnuls b (stringCheckLive_eq_ok.mp hb))
  | assign a b =>
      obtain ⟨_, -, hrun⟩ := bind_eq_ok.mp hrun
      obtain ⟨_, -, hrun⟩ := bind_eq_ok.mp hrun
      exact assign_nul hfits hrun
  | plusCstr a x other =>
      obtain ⟨_, -, hrun⟩ := bind_eq_ok.mp hrun
      obtain ⟨_, -, hrun⟩ := bind_eq_ok.mp hrun
      exact plusCstr_nul hrun
  | plus a x y =>
      obtain ⟨_, -, hrun⟩ := bind_eq_ok.mp hrun
      obtain ⟨_, -, hrun⟩ := bind_eq_ok.mp hrun
      obtain ⟨_, -, hrun⟩ := bind_eq_ok.mp hrun
      exact plus_nul hrun
  | plusAssignCstr a other =>
      obtain ⟨-, q, h₁, f, happ⟩ := appended_cases rfl hfits hrun
      exact happ.nul
  | plusAssign a b =>
      obtain ⟨-, q, h₁, f, happ⟩ := appended_cases rfl hfits hrun
      exact happ.nul
  | substr a x first len =>
      obtain ⟨_, -, hrun⟩ := bind_eq_ok.mp hrun
      obtain ⟨_, -, hrun⟩ := bind_eq_ok.mp hrun
      exact substr_nul hrun
  | slice a x first stop =>
      obtain ⟨_, -, hrun⟩ := bind_eq_ok.mp hrun
      obtain ⟨_, -, hrun⟩ := bind_eq_ok.mp hrun
      exact substr_nul hrun
  | destroy a =>
      obtain ⟨_, -, hrun⟩ := bind_eq_ok.mp hrun
      obtain ⟨s₁, -, hret⟩ := bind_eq_ok.mp hrun
      cases hret
      exact absurd rfl (Finset.ne_of_mem_erase ha)

/-! ## One step -/

/-- Strings with one buffer have one length, and every text has a NUL behind it. -/
structure TerminatedInv (lo hi : Nat) (s : StringState) : Prop extends SharedInv lo hi s where
  nul : ∀ a ∈ s.live, s.HasNul a

theorem TerminatedInv.terminated (hs : TerminatedInv lo hi s) (ha : a ∈ s.live) : s.Terminated a :=
  (hs.nul a ha).terminated hs.heap (hs.owned a ha)

/-- **One operation** that spares the buffers that are shared, and finds a NUL if it is `string()`. -/
theorem terminatedInv_step (hs : TerminatedInv lo hi s) (hspares : SparesShared s o)
    (hdefault : DefaultNul s o) (hrun : s.step o = .ok t) : TerminatedInv lo hi t := by
  have hstep := sharedStep hs.toSharedInv hspares hrun
  refine ⟨hstep.inv, ?_⟩
  intro a ha
  by_cases htarget : a = o.target
  · rw [htarget] at ha ⊢
    exact step_nul hs.toBuffersLive hspares.fits hdefault hs.nul hrun ha
  · obtain ⟨ha', hkeep⟩ := hstep.others a ha htarget
    exact hkeep (hs.nul a ha')

/-! ## What breaks a string -/

/-- A text that is appended to a shared buffer does not begin with a NUL of its own. -/
def NoLeadingNul (s : StringState) (o : StringOp) : Prop :=
  ∀ a b, o = .plusAssign a b → s.Shared a → 0 < (s.str b).length → s.charAt b 0 ≠ 0

/-- The first byte of a text. -/
theorem StringState.HasBuffer.text_cons (hb : s.HasBuffer b) (hs : ∃ bs, HeapInv lo hi s.heap bs)
    (hpos : 0 < (s.str b).length) : ∃ l, s.text b = s.charAt b 0 :: l := by
  have hfits := hb.fits hs
  obtain ⟨n, hn⟩ := Nat.exists_eq_add_of_lt hpos
  have hlen : (s.str b).length = 1 + n := by omega
  refine ⟨bytesAt s.heap.heap.mem ((s.str b).data + 1) n, ?_⟩
  unfold StringState.text StringState.charAt
  rw [hlen, bytesAt_add, add32_of_lt (by omega)]
  rfl

/-- The first byte that was appended. -/
theorem charAt_appended {v : UInt8} {l : List UInt8} (htext : t.text a = s.text a ++ v :: l)
    (ht : t.HasBuffer a) (hinv : ∃ bs, HeapInv lo hi t.heap bs) : t.charAt a (s.str a).length = v := by
  have hfits := ht.fits hinv
  have hlen : (t.str a).length = (s.str a).length + (v :: l).length := by
    simpa [StringState.text] using congrArg List.length htext
  rw [List.length_cons] at hlen
  unfold StringState.text at htext
  rw [hlen, bytesAt_add] at htext
  have hrest := (List.append_inj htext (by simp)).2
  rw [Nat.add_comm l.length 1, bytesAt_add] at hrest
  unfold StringState.charAt
  rw [add32_of_lt (by omega)]
  exact (List.cons.inj hrest).1

/-- The text after an append to a shared buffer that is left where it is. -/
theorem appended_text (hs : SharedInv lo hi s) (hop : o.appendsTo = some a) (hfits : LengthFits s o)
    (hlead : NoLeadingNul s o) (hshared : s.Shared a) (hlonger : s.resultLength o ≠ (s.str a).length)
    (hrun : s.step o = .ok t) (hkept : (t.str a).data = (s.str a).data) :
    ∃ v l, t.text a = s.text a ++ v :: l ∧ v ≠ 0 := by
  obtain ⟨ha, -⟩ := appended_cases hop hfits hrun
  obtain ⟨bs, hheap⟩ := hs.heap
  cases o with
  | plusAssignCstr x other =>
      cases hop
      obtain ⟨_, -, hrun⟩ := bind_eq_ok.mp hrun
      have htext := plusAssignCstr_text hheap (hs.owned a ha) hfits hrun
      obtain ⟨v, l, hbytes⟩ : ∃ v l, other.bytes = v :: l := by
        apply List.exists_cons_of_ne_nil
        intro hnil
        exact hlonger (by simp [StringState.resultLength, hnil])
      refine ⟨v, l, by rw [htext, hbytes], ne_of_mem_of_not_mem ?_ other.noNul⟩
      rw [hbytes]
      exact List.mem_cons_self
  | plusAssign x b =>
      cases hop
      obtain ⟨_, -, hrun⟩ := bind_eq_ok.mp hrun
      obtain ⟨_, hb, hrun⟩ := bind_eq_ok.mp hrun
      have hb := stringCheckLive_eq_ok.mp hb
      have hab : (s.str a).data ≠ (s.str b).data ∨
          ((s.str b).length = (s.str a).length ∧ (t.str a).data = (s.str a).data) := by
        by_cases hdata : (s.str b).data = (s.str a).data
        · exact Or.inr ⟨hs.oneLength b hb a ha hdata, hkept⟩
        · exact Or.inl fun heq => hdata heq.symm
      have htext := plusAssign_text hheap (hs.owned a ha) (hs.owned b hb) (Or.inr hab) hfits hrun
      have hpos : 0 < (s.str b).length := by
        simp only [StringState.resultLength] at hlonger
        omega
      obtain ⟨l, hl⟩ := (hs.owned b hb).text_cons hs.heap hpos
      exact ⟨_, l, by rw [htext, hl], hlead a b rfl hshared hpos⟩
  | _ => cases hop

/-- **An append to a shared buffer that is left where it is** writes over the NUL of the others. -/
theorem appended_first (hs : SharedInv lo hi s) (hop : o.appendsTo = some a) (hfits : LengthFits s o)
    (hlead : NoLeadingNul s o) (hshared : s.Shared a) (hlonger : s.resultLength o ≠ (s.str a).length)
    (hrun : s.step o = .ok t) (hkept : (t.str a).data = (s.str a).data) :
    t.charAt a (s.str a).length ≠ 0 := by
  have hg := (appended_resized hs.toBuffersLive hop hfits hrun).gives
  obtain ⟨p, n, hgiven, -⟩ := id hg
  obtain ⟨v, l, htext, hv⟩ := appended_text hs hop hfits hlead hshared hlonger hrun hkept
  rw [charAt_appended htext hg.hasBuffer hgiven.inv]
  exact hv

/-- The step finds or leaves a NUL wherever there has to be one. -/
structure SparesNuls (s : StringState) (o : StringOp) : Prop extends SparesShared s o where
  default : DefaultNul s o

/-- An append to a shared buffer either moves it, and frees that of the others, or writes over their NUL. -/
theorem append_alone (hs : SharedInv lo hi s) (hop : o.appendsTo = some a) (hfits : LengthFits s o)
    (hlead : NoLeadingNul s o) (hrun : s.step o = .ok t) (hterminated : ∀ b ∈ t.live, t.Terminated b)
    (hshared : s.Shared a) : s.resultLength o = (s.str a).length := by
  apply Classical.byContradiction
  intro hlonger
  obtain ⟨ha, q, h₁, f, happ⟩ := appended_cases hop hfits hrun
  obtain ⟨bs, hheap⟩ := hs.heap
  obtain ⟨r, hr, -⟩ := hs.owned a ha
  obtain ⟨hinv, -, hlive, -⟩ := hheap.realloc hr hfits happ.call
  obtain ⟨b, hb, hba, hdata⟩ := id hshared
  have hlen := hs.oneLength b hb a ha hdata
  have hself : (t.str a).data = q := by rw [happ.str, Function.update_self]
  have hother : t.str b = s.str b := by rw [happ.str, Function.update_of_ne hba]
  obtain ⟨hroom, hnul⟩ := hterminated b (by rw [happ.live]; exact hb)
  by_cases hq : q = (s.str a).data
  · have hkept := hself.trans hq
    apply appended_first hs hop hfits hlead hshared hlonger hrun hkept
    unfold StringState.HasNul StringState.charAt at hnul
    unfold StringState.charAt
    rw [hkept, ← hdata, ← hlen, ← hother]
    exact hnul
  · obtain ⟨r', hr', -⟩ := hroom
    rw [hother, hdata, happ.heap] at hr'
    dsimp only at hr'
    rw [hlive, Function.update_of_ne fun h => hq h.symm, Function.update_self] at hr'
    cases hr'

/-- The end of a string whose buffer is shared frees that of the others. -/
theorem destroy_alone (hs : BuffersLive lo hi s) (hrun : s.step (.destroy a) = .ok t)
    (hroom : ∀ b ∈ t.live, t.HasBuffer b) : ¬ s.Shared a := by
  rintro ⟨b, hb, hba, hdata⟩
  obtain ⟨_, ha, hrun⟩ := bind_eq_ok.mp hrun
  obtain ⟨h', hdestroy, -, hfreed, -⟩ := destroy_spec hs.heap (hs.owned a (stringCheckLive_eq_ok.mp ha))
  obtain rfl := Except.ok.inj (hdestroy.symm.trans hrun)
  obtain ⟨r, hr, -⟩ := hroom b (Finset.mem_erase.mpr ⟨hba, hb⟩)
  dsimp only at hr
  rw [hdata, hfreed] at hr
  cases hr

/-- **Only such steps leave strings that can be read.** -/
theorem sparesNuls_of_terminated (hs : SharedInv lo hi s) (hfits : LengthFits s o) (hlead : NoLeadingNul s o)
    (hrun : s.step o = .ok t) (hterminated : ∀ b ∈ t.live, t.Terminated b) : SparesNuls s o := by
  refine ⟨⟨hfits, ?_, ?_⟩, ?_⟩
  · exact fun a hop hshared => append_alone hs hop hfits hlead hrun hterminated hshared
  · rintro a rfl
    exact destroy_alone hs.toBuffersLive hrun fun b hb => (hterminated b hb).room
  · rintro a p h' rfl hcall
    obtain ⟨_, -, hrun⟩ := bind_eq_ok.mp hrun
    have ha : a ∈ t.live := by
      rw [(default_created hs.heap hrun).live]
      exact Finset.mem_insert_self ..
    obtain ⟨p', h'', hcall', hiff⟩ := default_nul_iff hs.heap hrun
    obtain ⟨rfl, -⟩ := Prod.mk.inj (Except.ok.inj (hcall'.symm.trans hcall))
    exact hiff.mp (hterminated a ha).nul

/-! ## Runs -/

theorem terminatedInv_start {heap : HeapState} {bs : List Block} (hh : HeapInv lo hi heap bs) :
    TerminatedInv lo hi (StringState.start heap) :=
  ⟨sharedInv_start hh, fun a ha => absurd ha (Finset.notMem_empty a)⟩

/-- **When strings can be read as C strings.** All live strings can, in every state that a run reaches, when
    shared buffers are spared and every `string()` is given a buffer that begins with a NUL; and in no other
    run, as long as no length wraps around 32 bits and nothing with a NUL in front is appended to a shared
    buffer. -/
theorem strings_terminated_iff {k : KernelHeap} {size start : Nat} (hsize : 16 ≤ size)
    (hregion : start + size < 4294967296) {heapOps : List HeapOp} {heap : HeapState}
    (hheap : (HeapState.init k size start).run heapOps = .ok heap) {ops : List StringOp}
    (hrun : StringState.run heap ops = .ok s) :
    ((∀ pre o t, pre ++ [o] <+: ops → StringState.run heap pre = .ok t → SparesNuls t o) →
        ∀ pre t, pre <+: ops → StringState.run heap pre = .ok t → ∀ a ∈ t.live, t.Terminated a) ∧
      ((∀ pre o t, pre ++ [o] <+: ops → StringState.run heap pre = .ok t →
          LengthFits t o ∧ NoLeadingNul t o) →
        ((∀ pre t, pre <+: ops → StringState.run heap pre = .ok t → ∀ a ∈ t.live, t.Terminated a) ↔
          ∀ pre o t, pre ++ [o] <+: ops → StringState.run heap pre = .ok t → SparesNuls t o)) := by
  obtain ⟨bs, hinv⟩ := HeapInv.run hsize hregion hheap
  have hstart := terminatedInv_start hinv
  have hkeep : ∀ s o t, TerminatedInv start (start + size) s → SparesNuls s o → s.step o = .ok t →
      TerminatedInv start (start + size) t := fun s o t hs hspares hstep =>
    terminatedInv_step hs hspares.toSparesShared hspares.default hstep
  constructor
  · intro hspares pre t hpre ht a ha
    exact (run_good hkeep hstart hrun hspares pre t hpre ht).terminated ha
  · refine run_holds_iff_of (I := TerminatedInv start (start + size)) (fun s hs a ha => hs.terminated ha)
      (fun s o t hs _ hspares hstep => hkeep s o t hs hspares hstep) ?_ hstart hrun
    intro s o t hs hpre hnot hstep hterminated
    exact hnot (sparesNuls_of_terminated hs.toSharedInv hpre.1 hpre.2 hstep hterminated)

/-- The empty string, in memory that is all zero, and a letter. -/
theorem strings_terminated_zero :
    ∃ s, StringState.run smallHeap [.default 0, .ofCstr 1 letterA] = .ok s ∧ s.live = {0, 1} ∧
      ∀ a ∈ s.live, s.Terminated a := by
  have hok : (StringState.run smallHeap [.default 0, .ofCstr 1 letterA]).toOption.map (·.live) =
      some {0, 1} := by
    decide +kernel
  obtain ⟨s, hs, hlive⟩ := Option.map_eq_some_iff.mp hok
  have hrun := toOption_eq_some.mp hs
  have hheap : (HeapState.init ⟨fun _ => 0, none, 0⟩ 200 64).run [] = .ok smallHeap := rfl
  have hzero : ((smallHeap.malloc 5).toOption.map fun r => smallHeap.heap.mem r.1) = some 0 := by
    decide +kernel
  refine ⟨s, hrun, hlive, ?_⟩
  refine (strings_terminated_iff (by decide) (by decide) hheap hrun).1 ?_ _ s (List.prefix_refl _) hrun
  obtain ⟨s₁, hfirst, hrest⟩ := run_cons.mp hrun
  obtain ⟨s₂, hsecond, -⟩ := run_cons.mp hrest
  refine (forall_steps_cons hfirst).mpr ⟨⟨sparesShared_of_fits ?_ rfl (by simp), ?_⟩, ?_⟩
  · simp [LengthFits, StringState.resultLength]
  · intro a p h' _ hcall
    have hcall : smallHeap.malloc 5 = .ok (p, h') := hcall
    rw [hcall] at hzero
    exact Option.some.inj hzero
  · refine (forall_steps_cons hsecond).mpr ⟨⟨sparesShared_of_fits ?_ rfl (by simp), ?_⟩, by simp⟩
    · simp [LengthFits, StringState.resultLength, letterA]
    · intro a p h' hop
      cases hop

/-- A heap of 200 bytes in memory that is not zero. -/
def dirtyHeap : HeapState := HeapState.init ⟨fun _ => 7, none, 0⟩ 200 64

def emptyText : CText := ⟨[], by decide, by decide⟩

/-- **`string()` and `string("")`, in memory that is not zero.** Both are empty. The second reads as the empty
    text, the first as ten bytes that the heap held, and their hash values differ. -/
theorem strings_terminated_dirty :
    ∃ s, StringState.run dirtyHeap [.default 0, .ofCstr 1 emptyText] = .ok s ∧ s.live = {0, 1} ∧
      s.text 0 = [] ∧ s.text 1 = [] ∧ ¬ s.HasNul 0 ∧ s.cstrLen 0 = .ok 10 ∧ s.hash 0 ≠ s.hash 1 := by
  have hok : (StringState.run dirtyHeap [.default 0, .ofCstr 1 emptyText]).toOption.map
      (fun s => (s.live, s.text 0, s.text 1, s.charAt 0 (s.str 0).length)) = some ({0, 1}, [], [], 7) := by
    decide +kernel
  have hread : (StringState.run dirtyHeap [.default 0, .ofCstr 1 emptyText]).toOption.map
      (fun s => ((s.cstrLen 0).toOption, (s.hash 0).toOption, (s.hash 1).toOption)) =
      some (some 10, some 38, some 5) := by
    decide +kernel
  obtain ⟨s, hs, hafter⟩ := Option.map_eq_some_iff.mp hok
  rw [hs] at hread
  simp only [Option.map_some, Option.some.injEq, Prod.mk.injEq, toOption_eq_some] at hafter hread
  obtain ⟨hlive, htext0, htext1, hbyte⟩ := hafter
  obtain ⟨hlen, hhash0, hhash1⟩ := hread
  refine ⟨s, toOption_eq_some.mp hs, hlive, htext0, htext1, ?_, hlen, ?_⟩
  · unfold StringState.HasNul
    rw [hbyte]
    decide
  · rw [hhash0, hhash1]
    exact fun heq => absurd (Except.ok.inj heq) (by decide)

end WeirdOs
