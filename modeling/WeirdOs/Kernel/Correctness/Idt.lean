import WeirdOs.Kernel.Correctness.Gdt
import WeirdOs.Kernel.Idt
import Mathlib.Data.List.FinRange

/-!
# `Kernel.Correctness.Idt` — where the vectors lead

`init_idt_entry` takes the address of a stub apart and the processor puts it together again
(`initIdtEntry_decode`). A loop that writes entries at different places writes what it is to write at each of
them and nothing else (`foldl_setEntry`), so the table can be read off vector by vector (`vectors_lead`).

The loop that disables the gates leaves out the last one. It keeps what was in memory before, which is zero
when the kernel starts, and that is a gate that is not present too.
-/

namespace WeirdOs

open Lib

variable {s : Idt} {l : Stubs}

/-! ## One entry -/

/-- The processor finds the fields of an entry. -/
theorem decodeGate_bits (e : IdtEntry) : decodeGate e.bits =
    { offset := e.offset1.toNat + e.offset2.toNat * 65536
      selector := e.selector.toNat
      type := e.typeAttr.toNat % 32
      dpl := e.typeAttr.toNat / 32 % 4
      present := decide (e.typeAttr.toNat / 128 = 1) } := by
  have hlow := e.offset1.toNat_lt
  have hselector := e.selector.toNat_lt
  have hzero := e.zero.toNat_lt
  have htype := e.typeAttr.toNat_lt
  have hhigh := e.offset2.toNat_lt
  have hpresent : e.bits / 0x800000000000 % 2 = 1 ↔ e.typeAttr.toNat / 128 = 1 := by
    unfold IdtEntry.bits
    omega
  unfold decodeGate
  simp only [hpresent, Gate.mk.injEq, and_true]
  unfold IdtEntry.bits
  refine ⟨?_, ?_, ?_, ?_⟩ <;> omega

/-- **What an entry means**: the gate that was asked for. -/
theorem initIdtEntry_decode (offset : UInt32) (selector : UInt16) (type : UInt8) :
    decodeGate (initIdtEntry offset selector type).bits =
      { offset := offset.toNat
        selector := selector.toNat
        type := type.toNat % 32
        dpl := type.toNat / 32 % 4
        present := decide (type.toNat / 128 = 1) } := by
  have hlow : (initIdtEntry offset selector type).offset1.toNat = offset.toNat % 65536 :=
    lowHalf_toNat offset
  have hshift : (offset >>> 16).toNat = offset.toNat / 65536 := by
    rw [UInt32.toNat_shiftRight]
    exact Nat.shiftRight_eq_div_pow _ 16
  have hhigh : (initIdtEntry offset selector type).offset2.toNat = offset.toNat / 65536 % 65536 :=
    hshift ▸ lowHalf_toNat (offset >>> 16)
  have hoffset : offset.toNat % 65536 + offset.toNat / 65536 % 65536 * 65536 = offset.toNat := by
    have := offset.toNat_lt
    omega
  rw [decodeGate_bits, hlow, hhigh, hoffset]
  rfl

/-! ## The table -/

/-- The entry of a vector. -/
def Idt.entry (s : Idt) (v : Fin 256) : IdtEntry := s.idt.get v

theorem entry_setEntry (s : Idt) (i v : Fin 256) (e : IdtEntry) :
    (s.setEntry i e).entry v = if v = i then e else s.entry v := by
  show (s.idt.set i e)[(v : Nat)] = _
  by_cases h : v = i
  · rw [if_pos h, h, Vector.getElem_set_self]
  · rw [if_neg h, Vector.getElem_set_ne _ _ fun he => h (Fin.ext he.symm)]
    rfl

/-- `t` is `s` but for the entries. -/
structure EntriesOnly (s t : Idt) : Prop where
  idtDescriptor : t.idtDescriptor = s.idtDescriptor
  idtAddr : t.idtAddr = s.idtAddr
  idtr : t.idtr = s.idtr

/-- **A loop over entries.** Each of its places gets its entry, and the others keep theirs. -/
theorem foldl_setEntry {n : Nat} (place : Fin n → Fin 256) (e : Fin n → IdtEntry)
    (hplace : Function.Injective place) (s : Idt) :
    EntriesOnly s ((List.finRange n).foldl (fun s i => s.setEntry (place i) (e i)) s) ∧
      (∀ i, ((List.finRange n).foldl (fun s i => s.setEntry (place i) (e i)) s).entry (place i) = e i) ∧
      ∀ v, (∀ i, place i ≠ v) →
        ((List.finRange n).foldl (fun s i => s.setEntry (place i) (e i)) s).entry v = s.entry v := by
  -- the invariant: the places that have been passed are done
  have hinv : ∀ (is : List (Fin n)) (s : Idt), is.Nodup →
      EntriesOnly s (is.foldl (fun s i => s.setEntry (place i) (e i)) s) ∧
        ∀ v, (is.foldl (fun s i => s.setEntry (place i) (e i)) s).entry v =
          match is.find? fun i => place i = v with
          | some i => e i
          | none   => s.entry v := by
    intro is
    induction is with
    | nil => exact fun s _ => ⟨⟨rfl, rfl, rfl⟩, fun _ => rfl⟩
    | cons i is ih =>
        intro s hnodup
        obtain ⟨hi, hnodup⟩ := List.nodup_cons.mp hnodup
        obtain ⟨hrest, hentry⟩ := ih (s.setEntry (place i) (e i)) hnodup
        refine ⟨⟨hrest.idtDescriptor, hrest.idtAddr, hrest.idtr⟩, ?_⟩
        intro v
        rw [List.foldl_cons, hentry, List.find?_cons]
        by_cases hv : place i = v
        · have hnone : is.find? (fun j => place j = v) = none := by
            refine List.find?_eq_none.mpr fun j hj hjv => hi ?_
            rw [hplace (hv.trans (of_decide_eq_true hjv).symm)]
            exact hj
          rw [hnone]
          simp only [hv, decide_true]
          rw [entry_setEntry, if_pos rfl]
        · have hne : v ≠ place i := fun h => hv h.symm
          simp only [hv, decide_false]
          cases is.find? fun j => place j = v with
          | some j => rfl
          | none =>
              dsimp only
              rw [entry_setEntry, if_neg hne]
  obtain ⟨honly, hentry⟩ := hinv (List.finRange n) s (List.nodup_finRange n)
  refine ⟨honly, ?_, ?_⟩
  · intro i
    rw [hentry]
    cases hfind : (List.finRange n).find? fun j => place j = place i with
    | none => exact absurd (by simp) (List.find?_eq_none.mp hfind i (List.mem_finRange i))
    | some j =>
        have hj := List.find?_some hfind
        rw [hplace (of_decide_eq_true hj)]
  · intro v hv
    have hnone : (List.finRange n).find? (fun j => place j = v) = none :=
      List.find?_eq_none.mpr fun j _ hj => hv j (of_decide_eq_true hj)
    rw [hentry, hnone]

/-! ## All vectors -/

/-- The gate that a vector has after `init_idt` and `irq_install`, when `other` is the last entry. -/
def vectorGate (l : Stubs) (other : IdtEntry) (v : Fin 256) : Gate :=
  if h : v.val < 32 then ⟨(l.isr ⟨v, h⟩).toNat, 8, 15, 0, true⟩
  else if h : v.val - 32 < 16 then ⟨(l.irq ⟨v - 32, h⟩).toNat, 8, 14, 0, true⟩
  else if v.val = 0x80 then ⟨l.isr80.toNat, 8, 14, 0, true⟩
  else if v.val = 0xff then decodeGate other.bits
  else ⟨0, 8, 14, 0, false⟩

/-- The two loops of `init_idt`, and what comes after them. -/
theorem initIdt_stages (s : Idt) (l : Stubs) : ∃ s₁ s₂ : Idt,
    EntriesOnly s s₁ ∧ EntriesOnly { s₁ with idtDescriptor := ⟨2047, s₁.idtAddr⟩ } s₂ ∧
    (∀ v : Fin 256, s₁.entry v = if v.val < 255 then initIdtEntry 0 0x08 INT_GATE else s.entry v) ∧
    (∀ v : Fin 256, s₂.entry v =
      if h : v.val < 32 then initIdtEntry (l.isr ⟨v, h⟩) 0x08 (ENABLED ||| TRAP_GATE) else s₁.entry v) ∧
    s.initIdt l = (s₂.setEntry 0x80 (initIdtEntry l.isr80 0x08 (ENABLED ||| INT_GATE))).asmIdtLoad := by
  obtain ⟨honly, hdisabled, hlast⟩ := foldl_setEntry (fun i : Fin 0xff => i.castLE (by decide))
    (fun _ => initIdtEntry 0 0x08 INT_GATE) (Fin.castLE_injective (by decide)) s
  unfold Idt.initIdt
  generalize (List.finRange 0xff).foldl _ s = s₁ at *
  have hsize : UInt16.ofNat (sizeofIdtEntry * 256 - 1) = 2047 := rfl
  rw [hsize]
  obtain ⟨honly₂, hisr, hrest⟩ := foldl_setEntry (fun i : Fin 32 => i.castLE (by decide))
    (fun i => initIdtEntry (l.isr i) 0x08 (ENABLED ||| TRAP_GATE)) (Fin.castLE_injective (by decide))
    { s₁ with idtDescriptor := ⟨2047, s₁.idtAddr⟩ }
  refine ⟨s₁, _, honly, honly₂, ?_, ?_, rfl⟩
  · intro v
    split
    · rename_i h
      exact hdisabled ⟨v, h⟩
    · rename_i h
      refine hlast v fun i hi => h ?_
      rw [← hi]
      exact i.isLt
  · intro v
    split
    · rename_i h
      exact hisr ⟨v, h⟩
    · rename_i h
      refine hrest v fun i hi => h ?_
      rw [← hi]
      exact i.isLt

/-- The entries that `init_idt` leaves. -/
theorem initIdt_spec (s : Idt) (l : Stubs) :
    (s.initIdt l).idtAddr = s.idtAddr ∧ (s.initIdt l).idtr = ⟨2047, s.idtAddr⟩ ∧
    ∀ v : Fin 256, (s.initIdt l).entry v =
      if h : v.val < 32 then initIdtEntry (l.isr ⟨v, h⟩) 0x08 (ENABLED ||| TRAP_GATE)
      else if v.val = 0x80 then initIdtEntry l.isr80 0x08 (ENABLED ||| INT_GATE)
      else if v.val = 0xff then s.entry 0xff
      else initIdtEntry 0 0x08 INT_GATE := by
  obtain ⟨s₁, s₂, honly, honly₂, hfirst, hsecond, hinit⟩ := initIdt_stages s l
  rw [hinit]
  refine ⟨honly₂.idtAddr.trans honly.idtAddr, ?_, ?_⟩
  · show s₂.idtDescriptor = _
    rw [honly₂.idtDescriptor]
    exact congrArg (IdtDesc.mk 2047) honly.idtAddr
  · intro v
    have hentry : (s₂.setEntry 0x80 (initIdtEntry l.isr80 0x08 (ENABLED ||| INT_GATE))).asmIdtLoad.entry v =
        if v = 0x80 then initIdtEntry l.isr80 0x08 (ENABLED ||| INT_GATE) else s₂.entry v :=
      entry_setEntry s₂ 0x80 v _
    rw [hentry, hsecond, hfirst]
    by_cases hsyscall : v.val = 0x80
    · obtain rfl : v = 0x80 := Fin.ext hsyscall
      rfl
    · rw [if_neg fun h : v = 0x80 => hsyscall (congrArg Fin.val h), if_neg hsyscall]
      refine dite_congr rfl (fun _ => rfl) fun _ => ?_
      by_cases hlast : v.val = 0xff
      · obtain rfl : v = 0xff := Fin.ext hlast
        rfl
      · have hlt : v.val < 255 := by omega
        rw [if_pos hlt, if_neg hlast]

/-- The gates of the lines go to the vectors from 32 on. -/
theorem irqGates_spec (s : Idt) (l : Stubs) : EntriesOnly s (s.irqGates l) ∧
    (∀ v : Fin 256, 32 ≤ v.val → (h : v.val - 32 < 16) →
      (s.irqGates l).entry v = initIdtEntry (l.irq ⟨v - 32, h⟩) 0x08 0x8e) ∧
    ∀ v : Fin 256, (v.val < 32 ∨ 48 ≤ v.val) → (s.irqGates l).entry v = s.entry v := by
  have hplace : ∀ i : Fin 16, ((UInt8.ofNat (32 + i)).toFin : Fin 256).val = 32 + i := by decide
  have hinj : Function.Injective fun i : Fin 16 => ((UInt8.ofNat (32 + i)).toFin : Fin 256) := by
    intro i j h
    have hval := congrArg Fin.val h
    rw [hplace, hplace] at hval
    exact Fin.ext (Nat.add_left_cancel hval)
  obtain ⟨honly, hirq, hrest⟩ := foldl_setEntry (fun i : Fin 16 => (UInt8.ofNat (32 + i)).toFin)
    (fun i => initIdtEntry (l.irq i) 0x08 0x8e) hinj s
  refine ⟨honly, ?_, ?_⟩
  · intro v hv h
    have hv' : (UInt8.ofNat (32 + (v.val - 32))).toFin = v :=
      Fin.ext ((hplace ⟨v - 32, h⟩).trans (Nat.add_sub_cancel' hv))
    rw [← hirq ⟨v - 32, h⟩]
    exact congrArg _ hv'.symm
  · intro v hv
    refine hrest v fun i hi => ?_
    have hval := congrArg Fin.val hi
    rw [hplace] at hval
    omega

/-- The gate that the processor finds for a vector. -/
theorem gate_boot (s : Idt) (l : Stubs) (v : Fin 256) :
    ((s.initIdt l).irqGates l).gate v = some (vectorGate l (s.entry 0xff) v) := by
  obtain ⟨haddr, hidtr, hinit⟩ := initIdt_spec s l
  obtain ⟨honly, hirq, hrest⟩ := irqGates_spec (s.initIdt l) l
  have hfound : ((s.initIdt l).irqGates l).gate v =
      some (decodeGate (((s.initIdt l).irqGates l).entry v).bits) := by
    refine if_pos ⟨?_, ?_⟩
    · rw [honly.idtr, honly.idtAddr, hidtr, haddr]
    · rw [honly.idtr, hidtr]
      show 8 * v.val + 7 ≤ 2047
      omega
  rw [hfound, Option.some.injEq]
  unfold vectorGate
  by_cases h32 : v.val < 32
  · rw [dif_pos h32, hrest v (Or.inl h32), hinit, dif_pos h32, initIdtEntry_decode]
    rfl
  rw [dif_neg h32]
  by_cases h48 : v.val - 32 < 16
  · rw [dif_pos h48, hirq v (Nat.le_of_not_lt h32) h48, initIdtEntry_decode]
    rfl
  rw [dif_neg h48, hrest v (Or.inr (by omega)), hinit, dif_neg h32]
  split
  · rw [initIdtEntry_decode]
    rfl
  split
  · rfl
  · rw [initIdtEntry_decode]
    rfl

/-- **Where the vectors lead**, whatever was in memory before: the exceptions, the lines and the system call
    each to the stub of their own, in the code segment of the kernel and for the kernel only. No other vector
    leads anywhere, but that the loop does not get to the last entry. -/
theorem vectors_lead (s : Idt) (l : Stubs) (v : Fin 256) :
    ∃ g, ((s.initIdt l).irqGates l).gate v = some g ∧ g = vectorGate l (s.entry 0xff) v ∧
      (v.val = 0xff ∨ g.selector = 8 ∧ g.dpl = 0 ∧ (g.present = true ↔ v.val < 48 ∨ v.val = 0x80)) := by
  refine ⟨_, gate_boot s l v, rfl, ?_⟩
  by_cases hlast : v.val = 0xff
  · exact Or.inl hlast
  refine Or.inr ?_
  unfold vectorGate
  split
  · rename_i h
    exact ⟨rfl, rfl, iff_of_true rfl (Or.inl (by omega))⟩
  split
  · exact ⟨rfl, rfl, iff_of_true rfl (Or.inl (by omega))⟩
  split
  · rename_i h
    exact ⟨rfl, rfl, iff_of_true rfl (Or.inr h)⟩
  · rename_i h
    refine ⟨rfl, rfl, iff_of_false (fun hp => by cases hp) ?_⟩
    rintro (hlt | he)
    · omega
    · exact h he

end WeirdOs
