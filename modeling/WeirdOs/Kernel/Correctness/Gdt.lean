import WeirdOs.Kernel.Gdt
import Mathlib.Algebra.Group.Nat.Defs

/-!
# `Kernel.Correctness.Gdt` — the segments that `gdt_install` sets up

`gdt_set_gate` takes base and limit apart and the processor puts them together again: the base comes out
as it went in, of the limit the low 20 bits (`gate_decode`). The segments of code and data are all of
memory (`gdtInstall_spec`).

`write_tss` hands over the end of `tss_entry` where the limit is expected, which is its size less one. The
task state segment is right at one in `2^20` addresses (`writeTss_iff`).
-/

namespace WeirdOs

open Lib

variable {s t : Gdt} {base limit access : UInt32} {gran : UInt8} {i : Fin 6}

/-! ## One entry -/

/-- The entry that `gdt_set_gate` writes. -/
def gate (base limit access : UInt32) (gran : UInt8) : GdtEntry where
  limitLow := (limit &&& 0xFFFF).toUInt16
  baseLow := (base &&& 0xFFFF).toUInt16
  baseMiddle := ((base >>> 16) &&& 0xFF).toUInt8
  access := access.toUInt8
  granularity := ((limit >>> 16) &&& 0x0F).toUInt8 ||| (gran &&& 0xF0)
  baseHigh := ((base >>> 24) &&& 0xFF).toUInt8

/-- The low 16 bits of a word. -/
theorem lowHalf_toNat (x : UInt32) : (x &&& 0xFFFF).toUInt16.toNat = x.toNat % 65536 := by
  have hmask : x.toNat &&& 65535 = x.toNat % 65536 := Nat.and_two_pow_sub_one_eq_mod x.toNat 16
  rw [UInt32.toNat_toUInt16, UInt32.toNat_and]
  show (x.toNat &&& 65535) % 65536 = x.toNat % 65536
  rw [hmask, Nat.mod_mod]

/-- Up to 8 bits of a word, from bit `j` on. -/
theorem bits_toNat (x : UInt32) {j n : Nat} (hj : j < 32) (hn : n ≤ 8) :
    ((x >>> UInt32.ofNat j) &&& UInt32.ofNat (2 ^ n - 1)).toUInt8.toNat = x.toNat / 2 ^ j % 2 ^ n := by
  have hpow : 2 ^ n ≤ 2 ^ 8 := Nat.pow_le_pow_right (by decide) hn
  have hmod : x.toNat / 2 ^ j % 2 ^ n < 2 ^ n := Nat.mod_lt _ (Nat.two_pow_pos n)
  rw [UInt32.toNat_toUInt8, UInt32.toNat_and, UInt32.toNat_shiftRight, UInt32.toNat_ofNat',
    UInt32.toNat_ofNat', Nat.mod_eq_of_lt (a := j) (by omega), Nat.mod_eq_of_lt (a := j) (by omega),
    Nat.mod_eq_of_lt (a := 2 ^ n - 1) (by omega), Nat.and_two_pow_sub_one_eq_mod,
    Nat.shiftRight_eq_div_pow, Nat.mod_eq_of_lt (by omega)]

/-- The high half of a byte. -/
theorem highHalf_toNat (b : UInt8) : (b &&& 0xF0).toNat = b.toNat / 16 * 16 := by
  have hb := b.toNat_lt
  have hhigh : (b.toNat &&& 0xF0) / 16 = b.toNat / 16 &&& 15 := Nat.and_div_two_pow (n := 4)
  have hlow : (b.toNat &&& 0xF0) % 16 = b.toNat % 16 &&& 0 := Nat.and_mod_two_pow (n := 4)
  have hmask : b.toNat / 16 &&& 15 = b.toNat / 16 % 16 := Nat.and_two_pow_sub_one_eq_mod _ 4
  rw [Nat.and_zero] at hlow
  rw [UInt8.toNat_and]
  show b.toNat &&& 0xF0 = b.toNat / 16 * 16
  omega

/-- The byte that holds the high bits of the limit, and the flags. -/
theorem granularity_toNat :
    (gate base limit access gran).granularity.toNat = limit.toNat / 65536 % 16 + gran.toNat / 16 * 16 := by
  have hlow : ((limit >>> 16) &&& 0x0F).toUInt8.toNat = limit.toNat / 65536 % 16 :=
    bits_toNat limit (j := 16) (n := 4) (by decide) (by decide)
  have hlt : limit.toNat / 65536 % 16 < 2 ^ 4 := Nat.mod_lt _ (by decide)
  have hor := Nat.shiftLeft_add_eq_or_of_lt hlt (gran.toNat / 16)
  show (((limit >>> 16) &&& 0x0F).toUInt8 ||| (gran &&& 0xF0)).toNat = _
  rw [UInt8.toNat_or, hlow, highHalf_toNat, Nat.or_comm, Nat.add_comm]
  rw [Nat.shiftLeft_eq] at hor
  exact hor.symm

/-- The processor finds the fields of an entry. -/
theorem decode_bits (e : GdtEntry) : decode e.bits =
    { base := e.baseLow.toNat + e.baseMiddle.toNat * 65536 + e.baseHigh.toNat * 16777216
      limit :=
        if e.granularity.toNat / 128 = 1 then
          (e.limitLow.toNat + e.granularity.toNat % 16 * 65536) * 4096 + 4095
        else e.limitLow.toNat + e.granularity.toNat % 16 * 65536
      access := e.access.toNat
      pages := decide (e.granularity.toNat / 128 = 1) } := by
  have hlimit := e.limitLow.toNat_lt
  have hlow := e.baseLow.toNat_lt
  have hmiddle := e.baseMiddle.toNat_lt
  have haccess := e.access.toNat_lt
  have hgran := e.granularity.toNat_lt
  have hhigh := e.baseHigh.toNat_lt
  have hpages : e.bits / 0x80000000000000 % 2 = 1 ↔ e.granularity.toNat / 128 = 1 := by
    unfold GdtEntry.bits
    omega
  have hraw : e.bits % 0x10000 + e.bits / 0x1000000000000 % 0x10 * 0x10000 =
      e.limitLow.toNat + e.granularity.toNat % 16 * 65536 := by
    unfold GdtEntry.bits
    omega
  unfold decode
  simp only [hpages, hraw, decide_eq_true_eq, Segment.mk.injEq, true_and, and_true]
  unfold GdtEntry.bits
  constructor <;> omega

/-- **What an entry means**: the segment that was asked for, as far as 20 bits hold its limit. -/
theorem gate_decode : decode (gate base limit access gran).bits =
    { base := base.toNat
      limit := if gran.toNat / 128 = 1 then limit.toNat % 1048576 * 4096 + 4095 else limit.toNat % 1048576
      access := access.toNat % 256
      pages := decide (gran.toNat / 128 = 1) } := by
  have hlimit : (gate base limit access gran).limitLow.toNat = limit.toNat % 65536 := lowHalf_toNat limit
  have hlow : (gate base limit access gran).baseLow.toNat = base.toNat % 65536 := lowHalf_toNat base
  have hmiddle : (gate base limit access gran).baseMiddle.toNat = base.toNat / 65536 % 256 :=
    bits_toNat base (j := 16) (n := 8) (by decide) (by decide)
  have hhigh : (gate base limit access gran).baseHigh.toNat = base.toNat / 16777216 % 256 :=
    bits_toNat base (j := 24) (n := 8) (by decide) (by decide)
  have haccess : (gate base limit access gran).access.toNat = access.toNat % 256 := rfl
  have hflags : (limit.toNat / 65536 % 16 + gran.toNat / 16 * 16) / 128 = gran.toNat / 128 := by omega
  have hraw : limit.toNat % 65536 + (limit.toNat / 65536 % 16 + gran.toNat / 16 * 16) % 16 * 65536 =
      limit.toNat % 1048576 := by omega
  have hbase : base.toNat % 65536 + base.toNat / 65536 % 256 * 65536 +
      base.toNat / 16777216 % 256 * 16777216 = base.toNat := by
    have := base.toNat_lt
    omega
  rw [decode_bits, granularity_toNat, hflags, hlimit, hlow, hmiddle, hhigh, haccess, hraw, hbase]

/-- `t` is `s` but for the entry `i`. -/
structure EntrySet (s t : Gdt) (i : Fin 6) (e : GdtEntry) : Prop where
  entry : ∀ j : Fin 6, t.gdt.get j = if j = i then e else s.gdt.get j
  gp : t.gp = s.gp
  tssEntry : t.tssEntry = s.tssEntry
  gdtAddr : t.gdtAddr = s.gdtAddr
  tssAddr : t.tssAddr = s.tssAddr

theorem EntrySet.segment {e : GdtEntry} (h : EntrySet s t i e) (j : Fin 6) :
    t.segment j = if j = i then decode e.bits else s.segment j := by
  show decode (t.gdt.get j).bits = _
  rw [h.entry]
  split <;> rfl

/-- **`gdt_set_gate`** writes one entry, all of it, and leaves the rest alone. -/
theorem gdtSetGate_spec (s : Gdt) (num : Int) (i : Fin 6) (hnum : num = (i : Nat))
    (base limit access : UInt32) (gran : UInt8) :
    ∃ t, s.gdtSetGate num base limit access gran = .ok t ∧ EntrySet s t i (gate base limit access gran) := by
  subst hnum
  have hi : 0 ≤ ((i : Nat) : Int) ∧ ((i : Nat) : Int) < 6 := by omega
  refine ⟨_, dif_pos hi, ?_, rfl, rfl, rfl, rfl⟩
  intro j
  show (s.gdt.set i (gate base limit access gran))[(j : Nat)] = _
  by_cases hij : j = i
  · rw [if_pos hij, hij, Vector.getElem_set_self]
  · rw [if_neg hij, Vector.getElem_set_ne _ _ fun h => hij (Fin.ext h.symm)]
    rfl

/-! ## The task state segment -/

/-- The task state segment that `write_tss` leaves: a kernel stack, and segments for the kernel. -/
def taskState (ss0 : UInt16) (esp0 : UInt32) : TssEntry :=
  { TssEntry.zero with
    ss0 := ss0.toUInt32
    esp0
    cs := 0x0b
    ss := 0x13
    ds := 0x13
    es := 0x13
    fs := 0x13
    gs := 0x13
    iomapBase := 108 }

/-- The segment that `write_tss` describes. Its base is right; its limit is the end of `tss_entry`, as far as
    20 bits hold it. -/
def tssSegment (addr : UInt32) : Segment :=
  ⟨addr.toNat, (addr.toNat + sizeofTssEntry) % 1048576, 0xE9, false⟩

theorem tss_decode (addr : UInt32) :
    decode (gate addr (addr + UInt32.ofNat sizeofTssEntry) 0xE9 0x00).bits = tssSegment addr := by
  have hend : (addr + UInt32.ofNat sizeofTssEntry).toNat % 1048576 =
      (addr.toNat + sizeofTssEntry) % 1048576 := by
    rw [UInt32.toNat_add, Nat.mod_mod_of_dvd _ (by decide)]
    rfl
  rw [gate_decode, hend]
  rfl

/-- **What `write_tss` does**: one entry, and the task state segment. -/
theorem writeTss_spec (s : Gdt) (num : Int) (i : Fin 6) (hnum : num = (i : Nat)) (ss0 : UInt16)
    (esp0 : UInt32) :
    ∃ t, s.writeTss num ss0 esp0 = .ok t ∧ t.segment i = tssSegment s.tssAddr ∧
      (∀ j, j ≠ i → t.gdt.get j = s.gdt.get j) ∧ t.gp = s.gp ∧ t.tssEntry = taskState ss0 esp0 := by
  obtain ⟨u, hu, hset⟩ :=
    gdtSetGate_spec s num i hnum s.tssAddr (s.tssAddr + UInt32.ofNat sizeofTssEntry) 0xE9 0x00
  have hseg := hset.segment i
  rw [if_pos rfl, tss_decode] at hseg
  unfold Gdt.writeTss
  simp only [hu, ok_bind]
  refine ⟨_, rfl, hseg, ?_, hset.gp, rfl⟩
  intro j hj
  exact (hset.entry j).trans (if_neg hj)

/-- The descriptor of the task state segment is right: the segment is `tss_entry`, no more and no less, and
    every other entry is as it was. -/
structure TssDescribed (s t : Gdt) (i : Fin 6) : Prop where
  base : (t.segment i).base = s.tssAddr.toNat
  bytes : (t.segment i).pages = false
  limit : (t.segment i).limit = sizeofTssEntry - 1
  covers : ∀ a, (t.segment i).Covers a ↔ ∃ off < sizeofTssEntry, a = add32 s.tssAddr.toNat off
  others : ∀ j, j ≠ i → t.gdt.get j = s.gdt.get j

/-- **When the task state segment is right**: exactly when the low 20 bits of the address of `tss_entry` are
    all ones, so that the end of it, cut to 20 bits, happens to be its size less one. -/
theorem writeTss_iff {num : Int} (hnum : num = (i : Nat)) (ss0 : UInt16) (esp0 : UInt32) :
    (∃ t, s.writeTss num ss0 esp0 = .ok t ∧ TssDescribed s t i) ↔
      s.tssAddr.toNat % 1048576 = 1048575 := by
  obtain ⟨t, ht, hseg, hothers, -, -⟩ := writeTss_spec s num i hnum ss0 esp0
  rw [ht]
  constructor
  · rintro ⟨t', ht', hdescribed⟩
    cases ht'
    have hlimit := (congrArg Segment.limit hseg).symm.trans hdescribed.limit
    dsimp only [tssSegment, sizeofTssEntry] at hlimit
    omega
  · intro haddr
    have hlimit : (s.tssAddr.toNat + sizeofTssEntry) % 1048576 = sizeofTssEntry - 1 := by
      dsimp only [sizeofTssEntry]
      omega
    rw [tssSegment, hlimit] at hseg
    refine ⟨t, rfl, congrArg Segment.base hseg, congrArg Segment.pages hseg, congrArg Segment.limit hseg, ?_,
      hothers⟩
    intro a
    show (t.segment i).Covers a ↔ _
    rw [hseg]
    refine exists_congr fun off => and_congr_left' ?_
    dsimp only [sizeofTssEntry]
    omega

/-- Tables that hold nothing yet. -/
def emptyGdt (gdtAddr tssAddr : UInt32) : Gdt where
  gdt := Vector.replicate 6 ⟨0, 0, 0, 0, 0, 0⟩
  gp := ⟨0, 0⟩
  tssEntry := .zero
  gdtAddr
  tssAddr

/-- At this address the end happens to be right. -/
theorem writeTss_iff_ones : ∃ t, (emptyGdt 0xc0105100 0xc01fffff).writeTss 5 0x10 0 = .ok t ∧
    TssDescribed (emptyGdt 0xc0105100 0xc01fffff) t 5 :=
  (writeTss_iff (show (5 : Int) = ((5 : Fin 6) : Nat) from rfl) 0x10 0).mpr (by decide)

/-- At a page of the kernel, the segment goes on for more than 20 KB behind `tss_entry`. -/
theorem writeTss_page : ¬ ∃ t, (emptyGdt 0xc0104000 0xc0105000).writeTss 5 0x10 0 = .ok t ∧
    TssDescribed (emptyGdt 0xc0104000 0xc0105000) t 5 := by
  rintro ⟨t, ht, hdescribed⟩
  obtain ⟨t', ht', hseg, -⟩ := writeTss_spec (emptyGdt 0xc0104000 0xc0105000) 5 5 rfl 0x10 0
  cases ht.symm.trans ht'
  have hlimit := (congrArg Segment.limit hseg).symm.trans hdescribed.limit
  revert hlimit
  decide

/-! ## The table of `gdt_install` -/

/-- A segment that is all of memory. -/
def Segment.flat (access : Nat) : Segment := ⟨0, 0xffffffff, access, true⟩

/-- **What `gdt_install` sets up**, whatever was in memory before: a null entry, code and data that are all
    of memory for the kernel and for programs, and the task state segment. The processor is told where the
    table is and how long it is. -/
theorem gdtInstall_spec (s : Gdt) : ∃ t, s.gdtInstall = .ok t ∧
    t.gp.base = s.gdtAddr ∧ t.gp.limit.toNat + 1 = 6 * sizeofGdtEntry ∧
    t.segment 0 = ⟨0, 0, 0, false⟩ ∧ t.segment 1 = .flat 0x9a ∧ t.segment 2 = .flat 0x92 ∧
    t.segment 3 = .flat 0xfa ∧ t.segment 4 = .flat 0xf2 ∧ t.segment 5 = tssSegment s.tssAddr ∧
    t.tssEntry = taskState 0x10 0 := by
  obtain ⟨s0, h0, set0⟩ := gdtSetGate_spec
    { s with gp := ⟨UInt16.ofNat (sizeofGdtEntry * 6 - 1), s.gdtAddr⟩ } 0 0 rfl 0 0 0 0
  obtain ⟨s1, h1, set1⟩ := gdtSetGate_spec s0 1 1 rfl 0 0xFFFFFFFF
    (Gdt.PRESENT ||| Gdt.PRVL_0 ||| Gdt.NOT_SYS ||| Gdt.RW ||| Gdt.EXECUTABLE) 0xCF
  obtain ⟨s2, h2, set2⟩ := gdtSetGate_spec s1 2 2 rfl 0 0xFFFFFFFF
    (Gdt.PRESENT ||| Gdt.PRVL_0 ||| Gdt.NOT_SYS ||| Gdt.RW) 0xCF
  obtain ⟨s3, h3, set3⟩ := gdtSetGate_spec s2 3 3 rfl 0 0xFFFFFFFF
    (Gdt.PRESENT ||| Gdt.PRVL_3 ||| Gdt.NOT_SYS ||| Gdt.RW ||| Gdt.EXECUTABLE) 0xCF
  obtain ⟨s4, h4, set4⟩ := gdtSetGate_spec s3 4 4 rfl 0 0xFFFFFFFF
    (Gdt.PRESENT ||| Gdt.PRVL_3 ||| Gdt.NOT_SYS ||| Gdt.RW) 0xCF
  obtain ⟨t, ht, hseg, hothers, hgp, htss⟩ := writeTss_spec s4 5 5 rfl 0x10 0
  have hgp' : t.gp = ⟨UInt16.ofNat (sizeofGdtEntry * 6 - 1), s.gdtAddr⟩ := by
    rw [hgp, set4.gp, set3.gp, set2.gp, set1.gp, set0.gp]
  have haddr : s4.tssAddr = s.tssAddr := by
    rw [set4.tssAddr, set3.tssAddr, set2.tssAddr, set1.tssAddr, set0.tssAddr]
  have hsegment : ∀ j, j ≠ 5 → t.segment j = s4.segment j := fun j hj =>
    congrArg (fun e : GdtEntry => decode e.bits) (hothers j hj)
  refine ⟨t, ?_, by rw [hgp'], by rw [hgp']; rfl, ?_, ?_, ?_, ?_, ?_, haddr ▸ hseg, htss⟩
  · unfold Gdt.gdtInstall
    simp only [h0, h1, h2, h3, h4, ht, ok_bind]
  all_goals
    rw [hsegment _ (by decide)]
    simp only [set4.segment, set3.segment, set2.segment, set1.segment, set0.segment, gate_decode]
    rfl

end WeirdOs
