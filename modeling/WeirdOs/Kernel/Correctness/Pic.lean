import WeirdOs.Kernel.Irq
import Mathlib.Data.List.FinRange

/-!
# `Kernel.Correctness.Pic` — what the controllers hand over

After `irq_remap` the controllers are set up the same way, whatever they were before (`irqRemap_eq`), and no
later write of the kernel changes that: all that varies are the requests and what is in service (`Pics.at`).

When nothing is in service, the processor is given the first line of `lineOrder` that has a request, with the
vector of its gate (`acknowledge_at`); the two controllers are then one. The end of interrupt takes back what
was put in service (`endOfInterrupt_only`).
-/

namespace WeirdOs

open Lib

variable {pending : Fin 16 → Bool} {isrMaster isrSlave : Fin 8 → Bool} {line : Fin 16} {j : Fin 8}

/-! ## After `irq_remap` -/

/-- The line of the master with the number `j`. -/
def masterLine (j : Fin 8) : Fin 16 := j.castLE (by decide)

/-- The line of the slave with the number `j`. -/
def slaveLineOf (j : Fin 8) : Fin 16 := Fin.natAdd 8 j

/-- The controllers as `irq_remap` sets them up, with requests and lines in service. -/
def Pics.at (pending : Fin 16 → Bool) (isrMaster isrSlave : Fin 8 → Bool) : Pics where
  master := ⟨.ready, true, false, 0x20, 0x04, false, fun _ => false, pending ∘ masterLine, isrMaster⟩
  slave := ⟨.ready, true, false, 0x28, 0x02, false, fun _ => false, pending ∘ slaveLineOf, isrSlave⟩

/-- No line of a controller. -/
def noLine : Fin 8 → Bool := fun _ => false

/-- One line of a controller. -/
def onlyLine (j : Fin 8) : Fin 8 → Bool := fun i => decide (i = j)

/-- **What `irq_remap` does**, from any state: vectors from 32 on, the slave on line 2, nothing masked,
    nothing waiting, nothing in service. -/
theorem irqRemap_eq (p : Pics) : p.irqRemap = .ok (.at (fun _ => false) noLine noLine) := by
  have hmask : (fun j : Fin 8 => (0x0 : UInt8).toNat.testBit j) = fun _ => false := by
    funext j
    exact Nat.zero_testBit j
  have hremap : p.irqRemap = .ok
      ⟨⟨.ready, true, false, 0x20, 0x04, false, fun j => (0x0 : UInt8).toNat.testBit j, noLine, noLine⟩,
        ⟨.ready, true, false, 0x28, 0x02, false, fun j => (0x0 : UInt8).toNat.testBit j, noLine, noLine⟩⟩ :=
    rfl
  rw [hremap, hmask]
  rfl

/-! ## Requests -/

/-- A line of the master, or of the slave. -/
theorem line_cases (line : Fin 16) : (∃ j, line = masterLine j) ∨ ∃ j, line = slaveLineOf j := by
  by_cases h : line.val < 8
  · exact Or.inl ⟨⟨line, h⟩, rfl⟩
  · exact Or.inr ⟨⟨line - 8, by omega⟩, Fin.ext (by show _ = 8 + (line.val - 8); omega)⟩

theorem masterLine_injective : Function.Injective masterLine := Fin.castLE_injective (by decide)

theorem slaveLineOf_injective : Function.Injective slaveLineOf := by
  intro i j h
  have hval : 8 + i.val = 8 + j.val := congrArg Fin.val h
  exact Fin.ext (Nat.add_left_cancel hval)

theorem masterLine_ne_slaveLineOf (i j : Fin 8) : masterLine i ≠ slaveLineOf j := by
  intro h
  have hval : i.val = 8 + j.val := congrArg Fin.val h
  omega

/-- A change of a line of the master. -/
theorem at_update_masterLine (b : Bool) :
    Pics.at (Function.update pending (masterLine j) b) isrMaster isrSlave =
      { Pics.at pending isrMaster isrSlave with
        master := { (Pics.at pending isrMaster isrSlave).master with
          irr := Function.update (pending ∘ masterLine) j b } } := by
  have hmaster : Function.update pending (masterLine j) b ∘ masterLine =
      Function.update (pending ∘ masterLine) j b :=
    Function.update_comp_eq_of_injective _ masterLine_injective _ _
  have hslave : Function.update pending (masterLine j) b ∘ slaveLineOf = pending ∘ slaveLineOf :=
    Function.update_comp_eq_of_forall_ne _ _ fun i => (masterLine_ne_slaveLineOf j i).symm
  unfold Pics.at
  rw [hmaster, hslave]

/-- A change of a line of the slave. -/
theorem at_update_slaveLineOf (b : Bool) :
    Pics.at (Function.update pending (slaveLineOf j) b) isrMaster isrSlave =
      { Pics.at pending isrMaster isrSlave with
        slave := { (Pics.at pending isrMaster isrSlave).slave with
          irr := Function.update (pending ∘ slaveLineOf) j b } } := by
  have hmaster : Function.update pending (slaveLineOf j) b ∘ masterLine = pending ∘ masterLine :=
    Function.update_comp_eq_of_forall_ne _ _ fun i => masterLine_ne_slaveLineOf i j
  have hslave : Function.update pending (slaveLineOf j) b ∘ slaveLineOf =
      Function.update (pending ∘ slaveLineOf) j b :=
    Function.update_comp_eq_of_injective _ slaveLineOf_injective _ _
  unfold Pics.at
  rw [hmaster, hslave]

/-- **A device raises a line.** -/
theorem raise_at : (Pics.at pending isrMaster isrSlave).raise line =
    .at (Function.update pending line true) isrMaster isrSlave := by
  rcases line_cases line with ⟨j, rfl⟩ | ⟨j, rfl⟩
  · have hlt : masterLine j < 8 := j.isLt
    rw [at_update_masterLine]
    exact dif_pos hlt
  · have hnot : ¬ slaveLineOf j < 8 := by
      show ¬ 8 + j.val < 8
      omega
    have hback : (slaveLineOf j).val - 8 = j := Nat.add_sub_cancel_left 8 j
    rw [at_update_slaveLineOf]
    unfold Pics.raise
    rw [dif_neg hnot]
    simp only [hback]
    rfl

/-! ## What the processor is given -/

/-- A controller with nothing in service has the first request that there is. -/
theorem request_noLine {p : Pic} {slave : Fin 8 → Bool} (hready : p.phase = .ready)
    (himr : p.imr = fun _ => false) (hisr : p.isr = noLine) :
    p.request slave = Pic.lines.find? fun j => p.irr j || slave j := by
  unfold Pic.request
  rw [if_pos hready, himr, hisr]
  congr 1
  funext j
  simp [noLine]

/-- The first line of `lineOrder` that waits: one of the first two of the master, else one of the slave, else
    one of the others of the master. -/
theorem find_lineOrder (pending : Fin 16 → Bool) : lineOrder.find? pending =
    (([0, 1].find? (pending ∘ masterLine)).map masterLine).or
      (((Pic.lines.find? (pending ∘ slaveLineOf)).map slaveLineOf).or
        (([3, 4, 5, 6, 7].find? (pending ∘ masterLine)).map masterLine)) := by
  have horder : lineOrder =
      [0, 1].map masterLine ++ (Pic.lines.map slaveLineOf ++ [3, 4, 5, 6, 7].map masterLine) := by decide
  rw [horder, List.find?_append, List.find?_append, List.find?_map, List.find?_map, List.find?_map]

/-- What the master has: the slave comes at its line. -/
theorem find_master {slave : Bool} (h2 : pending 2 = false) :
    (Pic.lines.find? fun j => pending (masterLine j) || (decide (j = 2) && slave)) =
      ([0, 1].find? (pending ∘ masterLine)).or
        ((if slave then some 2 else none).or ([3, 4, 5, 6, 7].find? (pending ∘ masterLine))) := by
  have hlines : Pic.lines = [0, 1] ++ ([2] ++ [3, 4, 5, 6, 7]) := by decide
  have hother : ∀ js : List (Fin 8), 2 ∉ js →
      (js.find? fun j => pending (masterLine j) || (decide (j = 2) && slave)) =
        js.find? (pending ∘ masterLine) := by
    intro js hjs
    refine List.find?_congr fun j hj => ?_
    have hne : j ≠ 2 := fun h => hjs (h ▸ hj)
    simp [hne]
  have hmiddle : ([2].find? fun j => pending (masterLine j) || (decide (j = 2) && slave)) =
      if slave then some 2 else none := by
    have h2' : pending (masterLine 2) = false := h2
    cases slave <;> simp [h2']
  rw [hlines, List.find?_append, List.find?_append, hmiddle, hother [0, 1] (by decide),
    hother [3, 4, 5, 6, 7] (by decide)]

/-- The line of the master that is in service while `line` is served. -/
def masterService (line : Fin 16) : Fin 8 → Bool :=
  fun j => if line.val < 8 then decide (line.val = j.val) else decide (j.val = 2)

/-- The line of the slave. -/
def slaveService (line : Fin 16) : Fin 8 → Bool := fun j => decide (line = slaveLineOf j)

theorem service_masterLine (j : Fin 8) :
    masterService (masterLine j) = onlyLine j ∧ slaveService (masterLine j) = noLine := by
  have h : ∀ j i : Fin 8, masterService (masterLine j) i = onlyLine j i ∧
      slaveService (masterLine j) i = noLine i := by decide
  exact ⟨funext fun i => (h j i).1, funext fun i => (h j i).2⟩

theorem service_slaveLineOf (j : Fin 8) :
    masterService (slaveLineOf j) = onlyLine 2 ∧ slaveService (slaveLineOf j) = onlyLine j := by
  have h : ∀ j i : Fin 8, masterService (slaveLineOf j) i = onlyLine 2 i ∧
      slaveService (slaveLineOf j) i = onlyLine j i := by decide
  exact ⟨funext fun i => (h j i).1, funext fun i => (h j i).2⟩

theorem update_noLine (j : Fin 8) : Function.update noLine j true = onlyLine j := by
  funext i
  rw [Function.update_apply]
  by_cases h : i = j
  · simp [onlyLine, h]
  · simp [onlyLine, noLine, h]

/-- A line of the master is taken. -/
theorem acknowledge_masterLine (hj : j ≠ 2)
    (hrequest : (Pics.at pending noLine noLine).master.request
      (Pics.at pending noLine noLine).slaveRequest = some j) :
    (Pics.at pending noLine noLine).acknowledge = some (UInt8.ofNat (32 + (masterLine j).val),
      .at (Function.update pending (masterLine j) false) (masterService (masterLine j))
        (slaveService (masterLine j))) := by
  have hbit : ∀ j : Fin 8, j ≠ 2 → (0x04 : UInt8).toNat.testBit j = false := by decide
  have hvector : ∀ j : Fin 8, (0x20 : UInt8) + UInt8.ofNat j.val = UInt8.ofNat (32 + (masterLine j).val) := by
    decide
  have hcascade : (Pics.at pending noLine noLine).master.cascade.toNat.testBit j = false := hbit j hj
  unfold Pics.acknowledge
  rw [hrequest, (service_masterLine j).1, (service_masterLine j).2, at_update_masterLine, ← hvector,
    ← update_noLine]
  simp only [hcascade, Bool.false_and, Bool.false_eq_true, if_false]
  rfl

/-- A line of the slave is taken: the master has line 2 in service, and the slave gives the vector. -/
theorem acknowledge_slaveLineOf (h2 : pending 2 = false)
    (hrequest : (Pics.at pending noLine noLine).master.request
      (Pics.at pending noLine noLine).slaveRequest = some 2)
    (hslave : (Pics.at pending noLine noLine).slave.request (fun _ => false) = some j) :
    (Pics.at pending noLine noLine).acknowledge = some (UInt8.ofNat (32 + (slaveLineOf j).val),
      .at (Function.update pending (slaveLineOf j) false) (masterService (slaveLineOf j))
        (slaveService (slaveLineOf j))) := by
  have hvector : ∀ j : Fin 8, (0x28 : UInt8) + UInt8.ofNat j.val = UInt8.ofNat (32 + (slaveLineOf j).val) := by
    decide
  have hirr : Function.update (pending ∘ masterLine) 2 false = pending ∘ masterLine := by
    rw [Function.update_eq_self_iff]
    exact h2.symm
  have hanswers : ((0x04 : UInt8).toNat.testBit (2 : Fin 8) &&
      decide ((0x02 : UInt8).toNat % 8 = (2 : Fin 8))) = true := by decide
  have hcascade : ((Pics.at pending noLine noLine).master.cascade.toNat.testBit (2 : Fin 8) &&
      decide ((Pics.at pending noLine noLine).slave.cascade.toNat % 8 = (2 : Fin 8))) = true := hanswers
  unfold Pics.acknowledge
  rw [hrequest, (service_slaveLineOf j).1, (service_slaveLineOf j).2, at_update_slaveLineOf, ← hvector,
    ← update_noLine, ← update_noLine]
  simp only [hcascade, if_true, hslave, Pic.take]
  rw [show (Pics.at pending noLine noLine).master.irr = pending ∘ masterLine from rfl, hirr]
  rfl

/-- **What the processor is given**: the first line that waits, with its vector. The line is in service. -/
theorem acknowledge_at (h2 : pending 2 = false) : (Pics.at pending noLine noLine).acknowledge =
    (lineOrder.find? pending).map fun line : Fin 16 => (UInt8.ofNat (32 + line.val),
      .at (Function.update pending line false) (masterService line) (slaveService line)) := by
  have hslave : (Pics.at pending noLine noLine).slave.request (fun _ => false) =
      Pic.lines.find? (pending ∘ slaveLineOf) := by
    rw [request_noLine rfl rfl rfl]
    simp only [Bool.or_false]
    rfl
  have hmaster : (Pics.at pending noLine noLine).master.request (Pics.at pending noLine noLine).slaveRequest =
      ([0, 1].find? (pending ∘ masterLine)).or
        ((if (Pic.lines.find? (pending ∘ slaveLineOf)).isSome then some 2 else none).or
          ([3, 4, 5, 6, 7].find? (pending ∘ masterLine))) := by
    rw [request_noLine rfl rfl rfl, ← find_master h2, ← hslave]
    rfl
  rw [find_lineOrder]
  -- the first two lines of the master, then the slave, then the others
  cases hfirst : [0, 1].find? (pending ∘ masterLine) with
  | some j =>
      rw [hfirst] at hmaster
      have hmem := List.mem_of_find?_eq_some hfirst
      exact acknowledge_masterLine (by rintro rfl; revert hmem; decide) hmaster
  | none =>
      rw [hfirst] at hmaster
      cases hmiddle : Pic.lines.find? (pending ∘ slaveLineOf) with
      | some j =>
          rw [hmiddle] at hmaster hslave
          exact acknowledge_slaveLineOf h2 hmaster hslave
      | none =>
          rw [hmiddle] at hmaster
          cases hlast : [3, 4, 5, 6, 7].find? (pending ∘ masterLine) with
          | some j =>
              rw [hlast] at hmaster
              have hmem := List.mem_of_find?_eq_some hlast
              exact acknowledge_masterLine (by rintro rfl; revert hmem; decide) hmaster
          | none =>
              rw [hlast] at hmaster
              unfold Pics.acknowledge
              rw [hmaster]
              rfl

/-! ## The end of interrupt -/

/-- It takes back the line in service. -/
theorem endOfInterrupt_only {p : Pic} (hisr : p.isr = onlyLine j) :
    p.endOfInterrupt = { p with isr := noLine } := by
  have hfind : p.inService = some j := by
    have h : ∀ j : Fin 8, Pic.lines.find? (onlyLine j) = some j := by decide
    unfold Pic.inService
    rw [hisr]
    exact h j
  have hupdate : Function.update (onlyLine j) j false = noLine := by
    rw [← update_noLine, Function.update_idem]
    exact Function.update_eq_self j noLine
  unfold Pic.endOfInterrupt
  rw [hfind]
  dsimp only
  rw [hisr, hupdate]

theorem command_endOfInterrupt (p : Pic) : p.command 0x20 = .ok p.endOfInterrupt := rfl

/-- **The command to the slave** while a line of its own is served. -/
theorem slaveEoi_at : (Pics.at pending isrMaster (onlyLine j)).outb 0xA0 0x20 =
    .ok (.at pending isrMaster noLine) := by
  have heoi : (Pics.at pending isrMaster (onlyLine j)).slave.endOfInterrupt =
      (Pics.at pending isrMaster noLine).slave := endOfInterrupt_only rfl
  unfold Pics.outb
  rw [if_neg (by decide), if_neg (by decide), if_pos rfl, command_endOfInterrupt, heoi]
  rfl

/-- **The command to the master** while one of its lines is in service. -/
theorem masterEoi_at : (Pics.at pending (onlyLine j) isrSlave).outb 0x20 0x20 =
    .ok (.at pending noLine isrSlave) := by
  have heoi : (Pics.at pending (onlyLine j) isrSlave).master.endOfInterrupt =
      (Pics.at pending noLine isrSlave).master := endOfInterrupt_only rfl
  unfold Pics.outb
  rw [if_pos rfl, command_endOfInterrupt, heoi]
  rfl

end WeirdOs
