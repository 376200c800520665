import WeirdOs.Lib.Split
import WeirdOs.Util.Split
import WeirdOs.Util.Correctness.List
import WeirdOs.Util.Correctness.String

/-!
# `Util.Correctness.Split` — `split` gives the pieces between the separators

The loop's two counters are a window on the text: the piece so far is what lies between `sec_start` and the
character the loop is at. A separator closes the window and opens an empty one behind itself, so the pieces
are those of `List.splitOn`, the one after the loop being the last (`Text.split_eq`).

On the heap every piece goes through three buffers. None of them is a buffer in use, so the string that is
split and the strings already in the result keep their texts (`KeepsTexts`), and the result holds what the
loop on texts gives (`splitLoop_spec`).
-/

namespace WeirdOs

open Lib

variable {lo hi a x y tmp p start len : Nat} {s t u s₁ : StringState} {out out' : ListState Nat}
  {sep c : UInt8} {data before rest : List UInt8} {pieces : List (List UInt8)} {places : List Nat}

/-! ## On texts -/

/-- The window that ends where the loop is. -/
theorem Text.substr_window (hstart : start ≤ before.length) :
    Text.substr (before ++ rest) start (before.length - start) = before.drop start := by
  rw [Text.substr, List.drop_append_of_le_length hstart]
  exact List.take_left' List.length_drop

/-- **The loop**: the first piece of what is left continues the window. -/
theorem Text.splitLoop_eq (hstart : start ≤ before.length) :
    Text.splitLoop (before ++ rest) sep rest before.length start (before.length - start) pieces =
      pieces ++ (rest.splitOn sep).modifyHead (before.drop start ++ ·) := by
  induction rest generalizing before start pieces with
  | nil =>
      rw [Text.splitLoop, Text.substr_window hstart, List.splitOn_nil, List.modifyHead_cons, List.append_nil]
  | cons c rest ih =>
      have hnext : before.length + 1 = (before ++ [c]).length := by simp
      rw [Text.splitLoop, Text.substr_window hstart, hnext, List.append_cons]
      by_cases hc : c = sep
      · -- the window behind the separator is empty
        have hempty : Text.splitLoop (before ++ [c] ++ rest) sep rest (before ++ [c]).length
            (before ++ [c]).length ((before ++ [c]).length - (before ++ [c]).length)
            (pieces ++ [before.drop start]) = _ := ih (Nat.le_refl _)
        rw [Nat.sub_self] at hempty
        rw [if_pos hc, hempty, hc, splitOn_self, List.modifyHead_cons, List.append_nil, List.drop_length,
          modifyHead_nil_append, List.append_assoc, List.singleton_append]
      · have hsize : before.length - start + 1 = (before ++ [c]).length - start := by
          rw [← hnext]
          omega
        rw [if_neg hc, hsize, ih (by rw [← hnext]; omega), modifyHead_splitOn_cons hc,
          List.drop_append_of_le_length hstart]

/-- **`split` gives the pieces between the separators.** -/
theorem Text.split_eq (data : List UInt8) (sep : UInt8) : Text.split data sep = data.splitOn sep := by
  have hloop : Text.splitLoop ([] ++ data) sep data 0 0 (0 - 0) [] = _ :=
    Text.splitLoop_eq (Nat.le_refl ([] : List UInt8).length)
  rw [List.drop_nil, List.nil_append, modifyHead_nil_append] at hloop
  exact hloop

/-! ## Texts that stay -/

/-- Every string but `a` is as live as it was and has its text. -/
def KeepsTexts (s t : StringState) (a : Nat) : Prop :=
  ∀ y ∈ s.live, y ≠ a → y ∈ t.live ∧ t.text y = s.text y

theorem KeepsTexts.trans (h : KeepsTexts s t a) (h' : KeepsTexts t u a) : KeepsTexts s u a := by
  intro y hy hne
  obtain ⟨hyt, htext⟩ := h y hy hne
  obtain ⟨hyu, htext'⟩ := h' y hyt hne
  exact ⟨hyu, htext'.trans htext⟩

/-- A string that was not there is no exception. -/
theorem KeepsTexts.all (h : KeepsTexts s t a) (ha : a ∉ s.live) :
    ∀ y ∈ s.live, y ∈ t.live ∧ t.text y = s.text y := by
  intro y hy
  refine h y hy ?_
  rintro rfl
  exact ha hy

/-- A new buffer for one variable leaves the bytes of the others alone. -/
theorem Gives.text_of_ne (hg : Gives lo hi s none a len t) (hs : StringInv lo hi s) (hy : y ∈ s.live)
    (hne : y ≠ a) : t.text y = s.text y := by
  obtain ⟨hstr, -, -, hbytes⟩ := hg.keeps (hs.owned y hy) hne nofun
  unfold StringState.text
  rw [hstr]
  exact bytesAt_congr fun i hi => hbytes i (by omega)

theorem Created.keeps (hc : Created lo hi s a len t) (hs : StringInv lo hi s) : KeepsTexts s t a := by
  intro y hy hne
  rw [hc.live]
  exact ⟨Finset.mem_insert_of_mem hy, hc.gives.text_of_ne hs hy hne⟩

theorem Replaced.keeps (hr : Replaced lo hi s a len t) (hs : StringInv lo hi s) : KeepsTexts s t a := by
  intro y hy hne
  rw [hr.live]
  exact ⟨hy, hr.gives.text_of_ne hs hy hne⟩

/-- To destroy a string leaves the others alone. -/
theorem destroy_keeps (hs : StringInv lo hi s) (ha : a ∈ s.live) (hrun : s.destroy a = .ok t) :
    KeepsTexts s t a := by
  obtain ⟨h', hdestroy, -, -, hframe⟩ := destroy_spec hs.heap (hs.owned a ha)
  obtain rfl := Except.ok.inj (hdestroy.symm.trans hrun)
  intro y hy hne
  refine ⟨Finset.mem_erase.mpr ⟨hne, hy⟩, ?_⟩
  obtain ⟨ry, hry, hlen⟩ := hs.owned y hy
  have hdata : (s.str y).data ≠ (s.str a).data := fun heq => hne (hs.distinct y hy a ha heq)
  apply bytesAt_congr
  intro i hi
  have hi : i < (s.str y).length := hi
  exact (hframe _ ry hry hdata).2 i (by omega)

/-! ## A piece -/

/-- A part of a range of memory. -/
theorem substr_bytesAt {m : Mem} {q n : Nat} (h : start + len ≤ n) :
    Text.substr (bytesAt m q n) start len = bytesAt m (q + start) len := by
  obtain ⟨k, rfl⟩ := Nat.exists_eq_add_of_le h
  rw [Text.substr, Nat.add_assoc, bytesAt_add, List.drop_left' (bytesAt_length ..), bytesAt_add,
    List.take_left' (bytesAt_length ..)]

/-- **`substr`** of a string gives that part of its text. -/
theorem substr_text (hs : StringInv lo hi s) (hx : x ∈ s.live) (ha : a ∉ s.live)
    (hlen : start + len ≤ (s.str x).length) (hrun : s.substr a x start len = .ok t) :
    t.text a = Text.substr (s.text x) start len := by
  have hfits := hs.length_lt hx
  obtain ⟨s₁, hof, hret⟩ := bind_eq_ok.mp hrun
  have hc := ofLen_created hs.heap (by omega) hof
  have hxs : s₁.str x = s.str x := hc.str_of_ne fun h => ha (h ▸ hx)
  have htext : s₁.text x = s.text x := (hc.keeps hs x hx fun h => ha (h ▸ hx)).2
  obtain ⟨q, n, hgiven, hq, hstr⟩ := hc.gives
  have hself : s₁.str a = ⟨q, len⟩ := by rw [hstr, Function.update_self]
  obtain ⟨bs, hinv⟩ := hgiven.inv
  obtain ⟨r, hr, hxlen⟩ := hs.owned x hx
  obtain ⟨hne, hlive, -⟩ := hgiven.frame _ r hr nofun
  have hend := hinv.fits hgiven.live
  have hxend := hinv.fits hlive
  have hapart := hinv.apart hlive hgiven.live hne
  rw [← htext]
  cases hret
  unfold StringState.text
  simp only [StringState.modifyMem, hself, hxs]
  rw [substr_bytesAt hlen, add32_of_lt (by omega), add32_of_lt (by omega)]
  apply bytesAt_congr
  intro i hi
  rw [store8_out (by omega), memcpy_in (by omega) (by omega) (by omega) hi]

/-- A character of a string is that of its text. -/
theorem read_text (hs : StringInv lo hi s) (hx : x ∈ s.live) (htext : s.text x = before ++ c :: rest) :
    s.heap.heap.mem (add32 (s.str x).data before.length) = c := by
  obtain ⟨bs, hheap⟩ := hs.heap
  obtain ⟨r, hr, hlen⟩ := hs.owned x hx
  have hend := hheap.fits hr
  have hlength : (s.str x).length = (before ++ c :: rest).length := by
    rw [← htext, StringState.text, bytesAt_length]
  have hin : before.length < (s.str x).length := by
    rw [hlength]
    simp
  have hget : (s.text x)[before.length]? = some c := by simp [htext]
  rw [add32_of_lt (by omega)]
  simpa [StringState.text, bytesAt, hin] using hget

/-- **While `x` is split**: it is a live string with the text `data`, and `out` has the pieces so far in
    strings of their own. -/
structure Splitting (lo hi x : Nat) (data : List UInt8) (s : StringState) (out : ListState Nat)
    (pieces : List (List UInt8)) : Prop where
  inv : StringInv lo hi s
  source : x ∈ s.live
  text : s.text x = data
  list : ∃ es, Holds out es ∧ (∀ e ∈ es, e.2 ∈ s.live) ∧ es.map (fun e => s.text e.2) = pieces

/-- The temporary string. -/
theorem substr_spec (hs : StringInv lo hi s) (hx : x ∈ s.live) (ha : a ∉ s.live)
    (hlen : start + len ≤ (s.str x).length) (hrun : s.substr a x start len = .ok t) :
    StringInv lo hi t ∧ a ∈ t.live ∧ t.text a = Text.substr (s.text x) start len ∧ KeepsTexts s t a := by
  have hfits := hs.length_lt hx
  have hc := substr_created hs.heap (by omega) hrun
  refine ⟨(StringStep.created (o := .default a) nofun nofun ha hc).inv hs nofun, ?_,
    substr_text hs hx ha hlen hrun, hc.keeps hs⟩
  rw [hc.live]
  exact Finset.mem_insert_self ..

/-- The string in the node, and the copy of `y` to it. -/
theorem copy_spec (hs : StringInv lo hi s) (hy : y ∈ s.live) (hp : p ∉ s.live)
    (hdefault : s.default p = .ok s₁) (hassign : s₁.assign p y = .ok t) :
    StringInv lo hi t ∧ p ∈ t.live ∧ t.text p = s.text y ∧ KeepsTexts s t p := by
  have hne : y ≠ p := by
    rintro rfl
    exact hp hy
  have hc := default_created hs.heap hdefault
  have hinv₁ : StringInv lo hi s₁ :=
    (StringStep.created (o := .default p) nofun nofun hp hc).inv hs nofun
  have hkeeps₁ := hc.keeps hs
  obtain ⟨hy₁, htext₁⟩ := hkeeps₁ y hy hne
  have hp₁ : p ∈ s₁.live := by
    rw [hc.live]
    exact Finset.mem_insert_self ..
  have hr := assign_replaced hinv₁.heap (hinv₁.owned y hy₁) hassign
  have hp₂ : p ∈ t.live := by
    rw [hr.live]
    exact hp₁
  exact ⟨(StringStep.assigned (b := y) hp₁ hr).inv hinv₁ nofun, hp₂,
    (assign_text hinv₁ hy₁ hne.symm hassign).trans htext₁, hkeeps₁.trans (hr.keeps hinv₁)⟩

/-- A node that is pushed is there. -/
theorem pushBack_holds {es : List (Nat × Nat)} (hes : Holds out es) (hpush : out.pushBack p p = .ok out') :
    Holds out' (es ++ [(p, p)]) := by
  rcases pushBack_spec (p := p) (v := p) hes with ⟨out₂, hpush', hes', -⟩ | hfault
  · obtain rfl : out₂ = out' := Except.ok.inj (hpush'.symm.trans hpush)
    exact hes'
  · rw [hfault] at hpush
    cases hpush

/-- **One piece more**: the temporary string, the string in the node, and the copy. -/
theorem pushPiece_spec (h : Splitting lo hi x data s out pieces) (hlen : start + len ≤ data.length)
    (hrun : s.pushPiece out x tmp p start len = .ok (t, out')) :
    Splitting lo hi x data t out' (pieces ++ [Text.substr data start len]) := by
  obtain ⟨es, hes, hlive, htexts⟩ := h.list
  have hlength : (s.str x).length = data.length := by
    rw [← h.text, StringState.text, bytesAt_length]
  obtain ⟨_, htmp, hrun⟩ := bind_eq_ok.mp hrun
  obtain ⟨s₁, hsubstr, hrun⟩ := bind_eq_ok.mp hrun
  obtain ⟨_, hp, hrun⟩ := bind_eq_ok.mp hrun
  obtain ⟨s₂, hdefault, hrun⟩ := bind_eq_ok.mp hrun
  obtain ⟨s₃, hassign, hrun⟩ := bind_eq_ok.mp hrun
  obtain ⟨out₁, hpush, hrun⟩ := bind_eq_ok.mp hrun
  obtain ⟨s₄, hdestroy, hrun⟩ := bind_eq_ok.mp hrun
  cases hrun
  have htmp := stringCheckFree_eq_ok.mp htmp
  have hp := stringCheckFree_eq_ok.mp hp
  obtain ⟨hinv₁, hmem₁, hpiece, hkeeps₁⟩ := substr_spec h.inv h.source htmp (by omega) hsubstr
  obtain ⟨hinv₃, hp₃, hcopy, hkeeps₃⟩ := copy_spec hinv₁ hmem₁ hp hdefault hassign
  have hall₃ := hkeeps₃.all hp
  have hmem₃ := (hall₃ tmp hmem₁).1
  have hne : p ≠ tmp := by
    rintro rfl
    exact hp hmem₁
  -- the temporary string goes
  obtain ⟨s₅, hdestroy', hstep⟩ := destroy_destroyed hinv₃ hmem₃
  obtain rfl : s₅ = t := Except.ok.inj (hdestroy'.symm.trans hdestroy)
  have hkeeps₅ := destroy_keeps hinv₃ hmem₃ hdestroy
  have hkeeps : KeepsTexts s s₅ tmp := (hkeeps₁.trans fun y hy _ => hall₃ y hy).trans hkeeps₅
  have hkeep := hkeeps.all htmp
  obtain ⟨hp₅, htextp⟩ := hkeeps₅ p hp₃ hne
  refine ⟨hstep.inv hinv₃ nofun, (hkeep x h.source).1, (hkeep x h.source).2.trans h.text,
    es ++ [(p, p)], pushBack_holds hes hpush, ?_, ?_⟩
  · intro e he
    rcases List.mem_append.mp he with he | he
    · exact (hkeep e.2 (hlive e he)).1
    · rw [List.mem_singleton.mp he]
      exact hp₅
  · rw [List.map_append, List.map_singleton, htextp, hcopy, hpiece, h.text, ← htexts]
    congr 1
    exact List.map_congr_left fun e he => (hkeep e.2 (hlive e he)).2

/-! ## The loop -/

/-- **The loop on the heap does what the loop on the text does.** -/
theorem splitLoop_spec (h : Splitting lo hi x data s out pieces) (hdata : data = before ++ rest)
    (hstart : start ≤ before.length)
    (hrun : StringState.splitLoop x tmp sep rest.length before.length start (before.length - start) places s
      out = .ok (t, out')) :
    Splitting lo hi x data t out'
      (Text.splitLoop data sep rest before.length start (before.length - start) pieces) := by
  have hlength : data.length = before.length + rest.length := by rw [hdata, List.length_append]
  have hfits : data.length + 1 < 4294967296 := by
    rw [← h.text, StringState.text, bytesAt_length]
    exact h.inv.length_lt h.source
  induction rest generalizing before start pieces places s out with
  | nil =>
      cases places with
      | nil => cases hrun
      | cons p places => exact pushPiece_spec h (by omega) hrun
  | cons c rest ih =>
      have hnext : before.length + 1 = (before ++ [c]).length := by simp
      have hnext32 : add32 before.length 1 = (before ++ [c]).length := by
        rw [add32_of_lt (by omega), hnext]
      have hdata' : data = before ++ [c] ++ rest := by rw [hdata, List.append_cons]
      have hlength' : data.length = (before ++ [c]).length + rest.length := by
        rw [hdata', List.length_append]
      cases places with
      | nil => cases hrun
      | cons p places =>
          rw [List.length_cons, StringState.splitLoop, read_text h.inv h.source (h.text.trans hdata),
            hnext32] at hrun
          rw [Text.splitLoop, hnext]
          by_cases hc : c = sep
          · rw [if_pos hc] at hrun ⊢
            obtain ⟨⟨s₁, out₁⟩, hpiece, hrun⟩ := bind_eq_ok.mp hrun
            have hstep := pushPiece_spec h (by omega) hpiece
            rw [← Nat.sub_self (before ++ [c]).length] at hrun
            have hrest := ih hstep hdata' (Nat.le_refl _) hrun hlength'
            rw [Nat.sub_self] at hrest
            exact hrest
          · have hsize : before.length - start + 1 = (before ++ [c]).length - start := by
              rw [← hnext]
              omega
            rw [if_neg hc] at hrun ⊢
            rw [add32_of_lt (by omega), hsize] at hrun
            rw [hsize]
            exact ih h hdata' (by rw [← hnext]; omega) hrun hlength'

/-- **`split`** on the heap gives the pieces that `split` on the text gives. -/
theorem split_refines (hs : StringInv lo hi s) (hx : x ∈ s.live)
    (hrun : s.split x tmp sep places = .ok (t, out)) :
    Splitting lo hi x (s.text x) t out (Text.split (s.text x) sep) := by
  have hstart : Splitting lo hi x (s.text x) s .empty [] :=
    ⟨hs, hx, rfl, [], holds_empty, by simp, rfl⟩
  have hlength : (s.str x).length = (s.text x).length := by rw [StringState.text, bytesAt_length]
  rw [StringState.split, hlength] at hrun
  exact splitLoop_spec hstart rfl (Nat.le_refl ([] : List UInt8).length) hrun

/-- **What `split` gives**, for every text and every separator: one piece more than there are separators,
    none with a separator in it, and joined they are the text. On the heap, a `split` that returns has put
    these pieces into the strings of its list, and the string it was given is as before. -/
theorem split_isSplit (data : List UInt8) (sep : UInt8) :
    IsSplit sep data (Text.split data sep) ∧
      ∀ (lo hi x tmp : Nat) (places : List Nat) (s t : StringState) (out : ListState Nat),
        StringInv lo hi s → x ∈ s.live → s.text x = data → s.split x tmp sep places = .ok (t, out) →
          ∃ es, Holds out es ∧ (∀ e ∈ es, e.2 ∈ t.live) ∧
            es.map (fun e => t.text e.2) = Text.split data sep ∧ t.text x = data := by
  constructor
  · rw [Text.split_eq]
    exact isSplit_splitOn sep data
  · rintro lo hi x tmp places s t out hs hx rfl hrun
    have h := split_refines hs hx hrun
    obtain ⟨es, hes, hlive, htexts⟩ := h.list
    exact ⟨es, hes, hlive, htexts, h.text⟩

/-- The text `a` split at `a`, into two empty pieces. -/
theorem split_isSplit_letterA :
    ∃ s t out es, StringState.run smallHeap [.ofCstr 0 letterA] = .ok s ∧
      s.split 0 1 97 [16, 32] = .ok (t, out) ∧ Holds out es ∧ es.map (fun e => t.text e.2) = [[], []] := by
  have hok : ((StringState.run smallHeap [.ofCstr 0 letterA]).toOption.bind fun s =>
      (s.split 0 1 97 [16, 32]).toOption.map fun t => (s.live, s.text 0)) = some ({0}, [97]) := by
    decide +kernel
  obtain ⟨s, hs, ht⟩ := Option.bind_eq_some_iff.mp hok
  obtain ⟨⟨t, out⟩, ht, hbefore⟩ := Option.map_eq_some_iff.mp ht
  obtain ⟨hlive, htext⟩ := Prod.mk.inj hbefore
  have hrun := toOption_eq_some.mp hs
  have hsplit := toOption_eq_some.mp ht
  have hinv := stringInv_letterA hrun
  have hmem : 0 ∈ s.live := by
    rw [hlive]
    decide
  obtain ⟨es, hes, -, htexts, -⟩ :=
    (split_isSplit [97] 97).2 64 (64 + 200) 0 1 [16, 32] s t out hinv hmem htext hsplit
  exact ⟨s, t, out, es, hrun, hsplit, hes, htexts⟩

end WeirdOs
