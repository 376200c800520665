import WeirdOs.Util.Correctness.String

/-!
# `Util.Correctness.Append` — `+=` gives what `+` gives

`+=` gets its room from `krealloc`, which leaves the buffer where it is, lets it grow into the free block
behind it, or moves it and frees the old one. In each case the new buffer begins with the old text
(`AppendedBy.text`), and the source is read from a buffer that is still there: its own, or the new one when a
string is appended to itself. `+` copies both texts to a buffer of a third string. The result is the same
(`plusAssign_appends`).
-/

namespace WeirdOs

open Lib

variable {lo hi a b c q len : Nat} {s t u : StringState} {bs : List Block} {h₁ : HeapState} {f : Mem → Mem}

/-! ## The text after an append -/

/-- **An append keeps the old text**, whichever way the room was found, and puts behind it what `f` copies. -/
theorem AppendedBy.text {l : List UInt8} (happ : AppendedBy s a ((s.str a).length + len) q h₁ f t)
    (hl : l.length = len) (hh : HeapInv lo hi s.heap bs) (ha : s.HasBuffer a)
    (hold : ∀ i < (s.str a).length, f h₁.heap.mem (q + i) = h₁.heap.mem (q + i))
    (hnew : ∀ (i : Nat) (hi : i < l.length), f h₁.heap.mem (q + (s.str a).length + i) = l[i]) :
    t.text a = s.text a ++ l := by
  subst hl
  obtain ⟨r, hr, hlen⟩ := ha
  have hfits := hh.realloc_lt hr happ.call
  obtain ⟨⟨bs', hinv⟩, -, hlive, hbytes, -⟩ := hh.realloc hr hfits happ.call
  have hlarge := hh.payloadsOk.large _ r hr
  have hend := hinv.fits (p := q) (by rw [hlive, Function.update_self])
  unfold StringState.text
  rw [happ.str, happ.heap, Function.update_self]
  dsimp only
  rw [bytesAt_add, add32_of_lt (by omega)]
  congr 1
  · apply bytesAt_congr
    intro i hi
    rw [store8_out (by omega), hold i hi]
    exact hbytes i (by omega)
  · apply List.ext_getElem (bytesAt_length ..)
    intro i hi hi'
    simp only [bytesAt, List.getElem_map, List.getElem_range]
    rw [store8_out (by omega)]
    exact hnew i hi'

/-- **The text of `a += cstr`.** -/
theorem plusAssignCstr_text (hh : HeapInv lo hi s.heap bs) (ha : s.HasBuffer a) {other : CText}
    (hfits : (s.str a).length + other.bytes.length + 1 < 4294967296)
    (hrun : s.plusAssignCstr a other = .ok t) : t.text a = s.text a ++ other.bytes := by
  obtain ⟨q, h₁, happ⟩ := plusAssignCstr_cases hfits hrun
  obtain ⟨r, hr, -⟩ := id ha
  obtain ⟨⟨bs', hinv⟩, -, hlive, -⟩ := hh.realloc hr hfits happ.call
  have hend := hinv.fits (p := q) (by rw [hlive, Function.update_self])
  have hmid : add32 q (s.str a).length = q + (s.str a).length := add32_of_lt (by omega)
  rw [hmid] at happ
  refine happ.text rfl hh ha ?_ ?_
  · intro i hi
    exact storeBytes_frame (by omega) (by omega)
  · intro i hi
    exact storeBytes_in (by omega) hi

/-! ## Appending a string -/

/-- The buffer of another string, after the call of `krealloc` for `a`. -/
theorem realloc_source (hh : HeapInv lo hi s.heap bs) (ha : s.HasBuffer a) (hb : s.HasBuffer b)
    (hab : (s.str b).data ≠ (s.str a).data) {n : Nat}
    (hcall : s.heap.realloc (s.str a).data n = .ok (q, h₁)) :
    ∃ r, (s.str b).length < r ∧ (q + n ≤ (s.str b).data ∨ (s.str b).data + r ≤ q) ∧
      (s.str b).data + r < 4294967296 ∧
      ∀ i < r, h₁.heap.mem ((s.str b).data + i) = s.heap.heap.mem ((s.str b).data + i) := by
  obtain ⟨r, hr, -⟩ := ha
  obtain ⟨rb, hrb, hblen⟩ := hb
  have hgiven := handedOut_realloc hh (hh.realloc_lt hr hcall) hr hcall
  obtain ⟨bs', hinv⟩ := hgiven.inv
  obtain ⟨hne, hlive, hbytes⟩ := hgiven.frame _ rb hrb fun heq => hab (Option.some.inj heq).symm
  exact ⟨rb, hblen, hinv.apart hgiven.live hlive hne.symm, hinv.fits hlive, hbytes⟩

/-- **The text of `a += b`**, for strings with buffers of their own, or one string, or strings that share a
    buffer that is left where it is. -/
theorem plusAssign_text (hh : HeapInv lo hi s.heap bs) (ha : s.HasBuffer a) (hb : s.HasBuffer b)
    (hab : a = b ∨ (s.str a).data ≠ (s.str b).data ∨
      ((s.str b).length = (s.str a).length ∧ (t.str a).data = (s.str a).data))
    (hfits : (s.str a).length + (s.str b).length + 1 < 4294967296) (hrun : s.plusAssign a b = .ok t) :
    t.text a = s.text a ++ s.text b := by
  obtain ⟨q, h₁, happ⟩ := plusAssign_cases hfits hrun
  have htext : (s.text b).length = (s.str b).length := bytesAt_length ..
  obtain ⟨r, hr, hlen⟩ := ha
  obtain ⟨⟨bs', hinv⟩, -, hlive, hbytes, -⟩ := hh.realloc hr hfits happ.call
  have hlarge := hh.payloadsOk.large _ r hr
  have hend := hinv.fits (p := q) (by rw [hlive, Function.update_self])
  have hmid : add32 q (s.str a).length = q + (s.str a).length := add32_of_lt (by omega)
  have hself : (t.str a).data = q := by rw [happ.str, Function.update_self]
  rw [hmid] at happ
  refine happ.text htext hh ⟨r, hr, hlen⟩ ?_ ?_
  · intro i hi
    exact memcpy_out (by omega) (by omega)
  · intro i hi
    have hget : (s.text b)[i] = s.heap.heap.mem ((s.str b).data + i) := by
      simp [StringState.text, bytesAt]
    rw [htext] at hi
    rw [hget]
    by_cases hdata : (s.str b).data = (s.str a).data
    · -- the source is the old text, at the beginning of the new buffer
      obtain ⟨hsource, hlength⟩ : (Function.update s.str a ⟨q, (s.str a).length⟩ b).data = q ∧
          (s.str b).length = (s.str a).length := by
        by_cases hba : b = a
        · rw [hba, Function.update_self]
          exact ⟨rfl, rfl⟩
        · obtain ⟨hlength, hkept⟩ := (hab.resolve_left fun h => hba h.symm).resolve_left
            (not_not_intro hdata.symm)
          rw [Function.update_of_ne hba, hdata, ← hkept, hself]
          exact ⟨rfl, hlength⟩
      rw [hsource, hdata, memcpy_in (by omega) (by omega) (by omega) hi]
      exact hbytes i (by omega)
    · have hba : b ≠ a := fun h => hdata (by rw [h])
      obtain ⟨rb, hblen, hapart, hbend, hsource⟩ :=
        realloc_source hh ⟨r, hr, hlen⟩ hb hdata happ.call
      rw [Function.update_of_ne hba, memcpy_in (by omega) (by omega) (by omega) hi]
      exact hsource i (by omega)

/-- **The text of `a + b`.** -/
theorem plus_text (hh : HeapInv lo hi s.heap bs) (ha : s.HasBuffer a) (hb : s.HasBuffer b) (hca : c ≠ a)
    (hcb : c ≠ b) (hfits : (s.str a).length + (s.str b).length + 1 < 4294967296)
    (hrun : s.plus c a b = .ok u) : u.text c = s.text a ++ s.text b := by
  obtain ⟨s₁, hof, hret⟩ := bind_eq_ok.mp hrun
  rw [add32_of_lt (by omega)] at hof
  have hc := ofLen_created ⟨bs, hh⟩ hfits hof
  have has : s₁.str a = s.str a := hc.str_of_ne hca.symm
  have hbs : s₁.str b = s.str b := hc.str_of_ne hcb.symm
  obtain ⟨p, n, hgiven, hn, hstr⟩ := hc.gives
  have hself : s₁.str c = ⟨p, (s.str a).length + (s.str b).length⟩ := by rw [hstr, Function.update_self]
  obtain ⟨bs', hinv⟩ := hgiven.inv
  have hend := hinv.fits hgiven.live
  obtain ⟨ra, hra, halen⟩ := ha
  obtain ⟨rb, hrb, hblen⟩ := hb
  obtain ⟨hane, halive, habytes⟩ := hgiven.frame _ ra hra nofun
  obtain ⟨hbne, hblive, hbbytes⟩ := hgiven.frame _ rb hrb nofun
  have haend := hinv.fits halive
  have hbend := hinv.fits hblive
  have haapart := hinv.apart halive hgiven.live hane
  have hbapart := hinv.apart hblive hgiven.live hbne
  cases hret
  unfold StringState.text
  simp only [StringState.modifyMem, hself, has, hbs]
  rw [bytesAt_add, add32_of_lt (by omega), add32_of_lt (by omega)]
  congr 1
  · apply bytesAt_congr
    intro i hi
    rw [store8_out (by omega), memcpy_out (by omega) (by omega),
      memcpy_in (by omega) (by omega) (by omega) hi]
    exact habytes i (by omega)
  · apply bytesAt_congr
    intro i hi
    rw [store8_out (by omega), memcpy_in (by omega) (by omega) (by omega) hi,
      memcpy_out (by omega) (by omega)]
    exact hbbytes i (by omega)

/-- **What `a += b` should leave**, where `b` may be `a`: in a block of the heap, the old text of `a` and that
    of `b` behind it, and a NUL; `b` as it was if it is another string. It is the text that `a + b` gives. -/
structure Appended (lo hi : Nat) (s t : StringState) (a b : Nat) : Prop where
  heap : ∃ bs, HeapInv lo hi t.heap bs
  text : t.text a = s.text a ++ s.text b
  length : (t.str a).length = (s.str a).length + (s.str b).length
  nul : t.heap.heap.mem ((t.str a).data + (t.str a).length) = 0
  buffer : t.HasBuffer a
  inside : (t.str a).length + 1 ≤ payloadSize t.heap.heap.mem (t.str a).data
  source : b ≠ a → t.str b = s.str b ∧ t.HasBuffer b ∧
    ∀ i ≤ (s.str b).length, t.heap.heap.mem ((s.str b).data + i) = s.heap.heap.mem ((s.str b).data + i)
  plus : ∀ c u, c ≠ a → c ≠ b → s.plus c a b = .ok u →
    u.text c = t.text a ∧ (u.str c).length = (t.str a).length

/-- `+=` returns when `krealloc` does. -/
theorem plusAssign_isOk (hfits : (s.str a).length + (s.str b).length + 1 < 4294967296)
    (hcall : s.heap.realloc (s.str a).data ((s.str a).length + (s.str b).length + 1) = .ok (q, h₁)) :
    ∃ t, s.plusAssign a b = .ok t := by
  have hsum : add32 (add32 (s.str a).length (s.str b).length) 1 =
      (s.str a).length + (s.str b).length + 1 := by
    rw [add32_of_lt (a := (s.str a).length) (by omega), add32_of_lt hfits]
  unfold StringState.plusAssign StringState.realloc
  dsimp only
  rw [hsum, hcall, ok_bind]
  dsimp only
  by_cases hq : q = (s.str a).data
  · rw [if_pos hq]
    exact ⟨_, rfl⟩
  · rw [if_neg hq]
    exact ⟨_, rfl⟩

/-- **`a += b` appends `b` to `a`.** For two strings with buffers of their own, or one string and itself: when
    the heap can serve the two texts and a NUL, `+=` returns, and leaves what it should. -/
theorem plusAssign_appends (hh : HeapInv lo hi s.heap bs) (ha : s.HasBuffer a) (hb : s.HasBuffer b)
    (hab : a = b ∨ (s.str a).data ≠ (s.str b).data)
    (hserve : s.heap.realloc (s.str a).data ((s.str a).length + (s.str b).length + 1) = .ok (q, h₁)) :
    ∃ t, s.plusAssign a b = .ok t ∧ Appended lo hi s t a b := by
  obtain ⟨r, hr, -⟩ := id ha
  have hfits := hh.realloc_lt hr hserve
  obtain ⟨t, ht⟩ := plusAssign_isOk hfits hserve
  have htext := plusAssign_text hh ha hb (hab.imp_right Or.inl) hfits ht
  obtain ⟨q', h₁', happ⟩ := plusAssign_cases hfits ht
  obtain ⟨hg, -, -⟩ := plusAssign_resized ⟨bs, hh⟩ ha hfits ht
  obtain ⟨p, n, hgiven, hn, hstr⟩ := id hg
  have hself : t.str a = ⟨p, (s.str a).length + (s.str b).length⟩ := by rw [hstr, Function.update_self]
  obtain ⟨bs', hinv⟩ := hgiven.inv
  have hend := hinv.fits hgiven.live
  have hnul := happ.nul
  unfold StringState.charAt at hnul
  rw [hself, add32_of_lt (by show p + ((s.str a).length + (s.str b).length) < 4294967296; omega)] at hnul
  refine ⟨t, ht, ⟨bs', hinv⟩, htext, by rw [hself], by rw [hself]; exact hnul,
    hg.hasBuffer, ?_, ?_, ?_⟩
  · rw [hself]
    exact Nat.le_trans hn (hinv.payloadsOk.large p n hgiven.live)
  · intro hba
    have hdata : (s.str a).data ≠ (s.str b).data := hab.resolve_left fun h => hba h.symm
    obtain ⟨hbstr, -, hbuffer, hbytes⟩ := hg.keeps hb hba fun h => hdata (Option.some.inj h)
    exact ⟨hbstr, hbuffer, hbytes⟩
  · intro c u hca hcb hplus
    have hptext := plus_text hh ha hb hca hcb hfits hplus
    refine ⟨hptext.trans htext.symm, ?_⟩
    rw [(plus_created ⟨bs, hh⟩ hfits hca.symm hcb.symm hplus).gives.str.1, hself]

/-- One letter, appended to itself. -/
theorem plusAssign_appends_self :
    ∃ s t, StringState.run smallHeap [.ofCstr 0 letterA] = .ok s ∧ s.plusAssign 0 0 = .ok t ∧
      t.text 0 = [97, 97] := by
  have hok : ((StringState.run smallHeap [.ofCstr 0 letterA]).toOption.bind fun s =>
      (s.heap.realloc (s.str 0).data ((s.str 0).length + (s.str 0).length + 1)).toOption.map
        fun _ => (s.live, s.text 0)) = some ({0}, [97]) := by
    decide +kernel
  obtain ⟨s, hs, hcall⟩ := Option.bind_eq_some_iff.mp hok
  obtain ⟨⟨q, h₁⟩, hcall, hbefore⟩ := Option.map_eq_some_iff.mp hcall
  obtain ⟨hlive, htext⟩ := Prod.mk.inj hbefore
  have hrun := toOption_eq_some.mp hs
  have hinv := stringInv_letterA hrun
  obtain ⟨bs, hh⟩ := hinv.heap
  have hbuffer : s.HasBuffer 0 := hinv.owned 0 (by rw [hlive]; decide)
  obtain ⟨t, ht, happended⟩ :=
    plusAssign_appends hh hbuffer hbuffer (Or.inl rfl) (toOption_eq_some.mp hcall)
  refine ⟨s, t, hrun, ht, ?_⟩
  rw [happended.text, htext]
  rfl

end WeirdOs
