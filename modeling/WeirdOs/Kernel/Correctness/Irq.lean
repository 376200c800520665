import WeirdOs.Kernel.Correctness.Idt
import WeirdOs.Kernel.Correctness.Interrupt
import WeirdOs.Kernel.Correctness.Pic

/-!
# `Kernel.Correctness.Irq` — programs and devices under interrupts

A run of the machine is compared with two things at once, step by step (`Along`):

* **the program alone** — the same steps of the program, with no interrupts in between. While `irq_handler`
  runs, the processor is where the stub has put it, and the registers of the program are on its stack;
* **the reference** — `Lib.Arbiter`, with the lines in the order of `lineOrder`. The controllers hold what
  waits there, and have the line that is served in service until it has been told that it is done.

From this follows that the program does not notice (`program_undisturbed`), that every request leads to one
call of the routine of its line (`requests_served`), and that no line is blocked (`accept_iff`).
-/

namespace WeirdOs

open Lib

variable {ρ : Type} {l : IrqLinked} {left : Scratch} {c c' : Computer ρ} {p : Cpu} {a : Arbiter (Fin 16)}
  {line : Fin 16}

/-! ## The stub -/

/-- The `struct regs` that the stub of a line builds. -/
def Cpu.irqFrame (p : Cpu) (line : Fin 16) : List UInt32 := [
  (p.seg .gs).toUInt32, (p.seg .fs).toUInt32, (p.seg .es).toUInt32, (p.seg .ds).toUInt32,
  p.edi, p.esi, p.ebp, p.esp - 20, p.ebx, p.edx, p.ecx, p.eax,
  UInt32.ofNat (line + 32), 0, p.eip, p.cs.toUInt32, p.eflags]

/-- The gate of a line. -/
def lineGate (l : IrqLinked) (line : Fin 16) : Gate := ⟨(l.irq line).toNat, 8, 14, 0, true⟩

/-- The processor before the call of `irq_handler`. -/
def Cpu.interrupted (l : IrqLinked) (p : Cpu) (line : Fin 16) : Cpu :=
  { p with
    eax := l.irqHandler, esp := p.esp - 72, seg := fun _ => 0x10, cs := 0x08, eip := l.irq line,
    eflags := p.eflags &&& ~~~0x34300 &&& ~~~0x200, stack := (p.esp - 68) :: p.irqFrame line ++ p.stack }

/-- The registers are saved. -/
theorem irqStub_enters (p : Cpu) (line : Fin 16) :
    (beforeCall (irqStub line)).foldlM (Cpu.exec l.irqHandler) (p.trap (lineGate l line)) =
      .ok (p.interrupted l line) := by
  have hcode : beforeCall (irqStub line) = [.cli, .instr (.pushImm 0),
      .instr (.pushImm (UInt32.ofNat (line + 32)))] ++ beforeCall irqCommonStub := rfl
  have hcommon : beforeCall irqCommonStub = irqCommonStub.take 13 := by decide
  have hsegs := update_segs p.seg fun _ => 0x10
  have hsaved : p.esp - 4 - 4 - 4 - 4 - 4 = p.esp - 20 := by grind
  have hframe : p.esp - 20 - 4 - 4 - 4 - 4 - 4 - 4 - 4 - 4 - 4 - 4 - 4 - 4 = p.esp - 68 := by grind
  have hesp : p.esp - 68 - 4 = p.esp - 72 := by grind
  have heip : UInt32.ofNat (l.irq line).toNat = l.irq line := UInt32.ofNat_toNat
  rw [hcode, hcommon]
  simp only [irqCommonStub, List.take, List.cons_append, List.nil_append, List.foldlM_cons,
    List.foldlM_nil, Cpu.exec, ok_bind, Cpu.trap, lineGate, Cpu.pusha, Cpu.push, toUInt16_movAx, hsegs,
    hsaved, hframe, hesp, heip]
  rfl

/-- `irq_handler` finds the number of the interrupt where `struct regs` has it. -/
theorem interrupted_intNo (p : Cpu) (line : Fin 16) :
    ((p.interrupted l line).push l.afterCall).word
        (((p.interrupted l line).push l.afterCall).esp + 4) = .ok (p.esp - 68) ∧
      ((p.interrupted l line).push l.afterCall).word (p.esp - 68 + 48) = .ok (UInt32.ofNat (line + 32)) := by
  constructor
  · refine Cpu.word_eq_ok (d := 4) ?_ rfl
    grind
  · refine Cpu.word_eq_ok (d := 56) ?_ rfl
    show p.esp - 68 + 48 - (p.esp - 72 - 4) = 56
    grind

/-- The registers are restored, whatever the handler left in them. -/
theorem irqStub_leaves (p : Cpu) (line : Fin 16) :
    (afterCall irqCommonStub).foldlM (Cpu.exec l.irqHandler)
      { p.interrupted l line with
        eax := left.eax, ecx := left.ecx, edx := left.edx, eflags := left.eflags,
        stack := left.argument :: p.irqFrame line ++ p.stack } = .ok p := by
  have hcode : afterCall irqCommonStub = irqCommonStub.drop 14 := by decide
  have hsegs := update_segs_reverse (fun _ => 0x10) p.seg
  have hesp : p.esp - 72 + 4 + 4 + 4 + 4 + 4 + 4 + 4 + 4 + 4 + 4 + 4 + 4 + 4 + 8 + 4 + 4 + 4 = p.esp := by
    grind
  have hdrop : ((8 : UInt32) / 4).toNat = 2 := rfl
  rw [hcode]
  simp only [irqCommonStub, List.drop, List.foldlM_cons, List.foldlM_nil, Cpu.exec, ok_bind,
    Cpu.interrupted, Cpu.irqFrame, Cpu.popa, Cpu.pop, List.cons_append, List.nil_append, pure_bind,
    UInt16.toUInt16_toUInt32, hsegs, hdrop, List.drop_succ_cons, hesp]
  rfl

/-! ## Where the machine is -/

/-- The line of the master in service at a statement of `irq_handler`. -/
def IrqPc.master (line : Fin 16) : IrqPc → Fin 8 → Bool
  | .leave => noLine
  | _      => masterService line

/-- The line of the slave. -/
def IrqPc.slave (line : Fin 16) : IrqPc → Fin 8 → Bool
  | .routine  => slaveService line
  | .slaveEoi => slaveService line
  | _         => noLine

/-- The line whose routine has yet to be called. -/
def IrqPc.waiting (line : Fin 16) : IrqPc → List (Fin 16)
  | .routine => [line]
  | _        => []

/-- **The machine against the program alone**, whose processor is `p`, **and the reference** `a`. -/
inductive Along (l : IrqLinked) (p : Cpu) (a : Arbiter (Fin 16)) (c : Computer ρ) : Prop where
  /-- The program runs. -/
  | program (hhandler : c.handler = none) (hserving : a.serving = none) (hcpu : c.cpu = p)
      (hpics : c.pics = .at a.pending noLine noLine) (hserved : c.served = a.taken)
  /-- `irq_handler` runs. -/
  | serving (line : Fin 16) (pc : IrqPc) (hhandler : c.handler = some (pc, UInt32.ofNat (line + 32)))
      (hserving : a.serving = some line) (hcpu : c.cpu = (p.interrupted l line).push l.afterCall)
      (hpics : c.pics = .at a.pending (pc.master line) (pc.slave line))
      (hserved : c.served ++ pc.waiting line = a.taken)

/-- The gates of the lines lead to their stubs. -/
def GatesSet (l : IrqLinked) (idt : Idt) : Prop :=
  ∀ line : Fin 16, idt.gate (UInt8.ofNat (32 + line.val)).toFin = some (lineGate l line)

theorem vectorGate_line (l : IrqLinked) (other : IdtEntry) (line : Fin 16) :
    vectorGate l.toStubs other (UInt8.ofNat (32 + line.val)).toFin = lineGate l line := by
  have hvector : (UInt8.ofNat (32 + line.val)).toFin.val = line.val + 32 := by
    show (32 + line.val) % 256 = _
    omega
  have hlt : (UInt8.ofNat (32 + line.val)).toFin.val - 32 < 16 := by omega
  have hline : (⟨(UInt8.ofNat (32 + line.val)).toFin.val - 32, hlt⟩ : Fin 16) = line :=
    Fin.ext ((congrArg (· - 32) hvector).trans (Nat.add_sub_cancel line.val 32))
  unfold vectorGate
  rw [dif_neg (by omega), dif_pos hlt, hline]
  rfl

/-- Where no two stubs are at one place, the place names the stub. -/
theorem find_stub {n : Nat} {stub : Fin n → UInt32} (hstub : Function.Injective stub) (i : Fin n) :
    ((List.finRange n).find? fun j => stub j = stub i) = some i := by
  cases hfind : (List.finRange n).find? fun j => stub j = stub i with
  | none => exact absurd (by simp) (List.find?_eq_none.mp hfind i (List.mem_finRange i))
  | some j =>
      have hj := List.find?_some hfind
      rw [hstub (of_decide_eq_true hj)]

/-- The line whose stub is at an address. -/
theorem line?_irq (l : IrqLinked) (line : Fin 16) : l.line? (l.irq line) = some line :=
  find_stub l.irq_injective line

/-- Interrupts are disabled in the stub and in `irq_handler`. -/
theorem Along.disabled (h : Along l p a c) (hhandler : c.handler ≠ none) : c.interruptsEnabled = false := by
  cases h with
  | program hnone hserving hcpu hpics hserved => exact absurd hnone hhandler
  | serving line pc hsome hserving hcpu hpics hserved =>
      have hmask : (~~~0x200 : UInt32) &&& 0x200 = 0 := by decide
      have heflags : p.eflags &&& ~~~0x34300 &&& ~~~0x200 &&& 0x200 = 0 := by
        rw [UInt32.and_assoc, hmask, UInt32.and_zero]
      unfold Computer.interruptsEnabled
      rw [hcpu]
      show decide (p.eflags &&& ~~~0x34300 &&& ~~~0x200 &&& 0x200 ≠ 0) = false
      rw [heflags]
      rfl

/-- **An interrupt is taken** by the program that runs with interrupts enabled, for the first line that
    waits. -/
theorem accept_eq (hgates : GatesSet l c.idt) (h2 : a.pending 2 = false) (hcpu : c.cpu = p)
    (hpics : c.pics = .at a.pending noLine noLine) :
    c.accept l =
      if c.interruptsEnabled then
        match lineOrder.find? a.pending with
        | none      => .error (.misuse "no interrupt")
        | some line => .ok { c with
            cpu := (p.interrupted l line).push l.afterCall
            pics := .at (Function.update a.pending line false) (masterService line) (slaveService line)
            handler := some (.routine, UInt32.ofNat (line + 32)) }
      else .error (.misuse "interrupts are disabled") := by
  unfold Computer.accept
  rw [hpics, acknowledge_at h2]
  refine if_congr Iff.rfl ?_ rfl
  cases lineOrder.find? a.pending with
  | none => rfl
  | some line =>
      have heip : (c.cpu.trap (lineGate l line)).eip = l.irq line := UInt32.ofNat_toNat
      have hpresent : (lineGate l line).present = true := rfl
      obtain ⟨hargument, hintNo⟩ := interrupted_intNo (l := l) p line
      dsimp only [Option.map_some]
      rw [hgates line]
      dsimp only
      rw [if_pos hpresent, heip, line?_irq, hcpu]
      dsimp only
      rw [irqStub_enters, ok_bind, hargument, ok_bind, hintNo]
      rfl

/-! ## The statements of `irq_handler` -/

/-- The number of a line as `irq_handler` has it. -/
theorem intNo_toNat (line : Fin 16) : (UInt32.ofNat (line + 32)).toNat = line + 32 := by
  rw [UInt32.toNat_ofNat']
  omega

theorem intNo_sub (line : Fin 16) : (UInt32.ofNat (line + 32) - 32).toNat = line := by
  have h : (32 : UInt32) ≤ UInt32.ofNat (line + 32) := by
    rw [UInt32.le_iff_toNat_le, intNo_toNat]
    exact Nat.le_add_left 32 line
  rw [UInt32.toNat_sub_of_le _ _ h, intNo_toNat]
  exact Nat.add_sub_cancel line.val 32

/-- The command for the slave is given while one of its lines is served, and takes that out of service. -/
theorem slaveEoi_eq (pending : Fin 16 → Bool) (line : Fin 16) :
    (if 40 ≤ UInt32.ofNat (line + 32) then
        (Pics.at pending (masterService line) (slaveService line)).outb 0xA0 0x20
      else .ok (.at pending (masterService line) (slaveService line))) =
      .ok (.at pending (masterService line) noLine) := by
  have hintNo : (40 : UInt32) ≤ UInt32.ofNat (line + 32) ↔ 40 ≤ line.val + 32 := by
    rw [UInt32.le_iff_toNat_le, intNo_toNat]
    rfl
  simp only [hintNo]
  rcases line_cases line with ⟨j, rfl⟩ | ⟨j, rfl⟩
  · have hmaster : ¬ 40 ≤ (masterLine j).val + 32 := by
      show ¬ 40 ≤ j.val + 32
      omega
    rw [if_neg hmaster, (service_masterLine j).2]
  · have hslave : 40 ≤ (slaveLineOf j).val + 32 := by
      show 40 ≤ 8 + j.val + 32
      omega
    rw [if_pos hslave, (service_slaveLineOf j).2]
    exact slaveEoi_at

/-- The command for the master takes the line, or that of the slave, out of service. -/
theorem masterEoi_eq (pending : Fin 16 → Bool) (line : Fin 16) :
    (Pics.at pending (masterService line) noLine).outb 0x20 0x20 = .ok (.at pending noLine noLine) := by
  rcases line_cases line with ⟨j, rfl⟩ | ⟨j, rfl⟩
  · rw [(service_masterLine j).1]
    exact masterEoi_at
  · rw [(service_slaveLineOf j).1]
    exact masterEoi_at

/-- What the routines have made of the drivers. -/
def driversAfter (irqRoutines : Fin 16 → Option (ρ → ρ)) (drivers : ρ) (served : List (Fin 16)) : ρ :=
  served.foldl (fun d line =>
    match irqRoutines line with
    | none         => d
    | some handler => handler d) drivers

/-- The routine of the line is called. -/
theorem irqHandler_routine (hhandler : c.handler = some (.routine, UInt32.ofNat (line + 32))) :
    c.irqHandler = .ok { c with
      drivers := driversAfter c.irqRoutines c.drivers [line]
      handler := some (.slaveEoi, UInt32.ofNat (line + 32))
      served := c.served ++ [line] } := by
  have hlt : (UInt32.ofNat (line + 32) - 32).toNat < 16 := by
    rw [intNo_sub]
    exact line.isLt
  have hline : (⟨(UInt32.ofNat (line + 32) - 32).toNat, hlt⟩ : Fin 16) = line := Fin.ext (intNo_sub line)
  unfold Computer.irqHandler
  rw [hhandler]
  dsimp only
  rw [dif_pos hlt, hline]
  rfl

theorem irqHandler_slaveEoi {pending : Fin 16 → Bool}
    (hhandler : c.handler = some (.slaveEoi, UInt32.ofNat (line + 32)))
    (hpics : c.pics = .at pending (masterService line) (slaveService line)) :
    c.irqHandler = .ok { c with
      pics := .at pending (masterService line) noLine
      handler := some (.masterEoi, UInt32.ofNat (line + 32)) } := by
  unfold Computer.irqHandler
  rw [hhandler]
  dsimp only
  rw [hpics, slaveEoi_eq]
  rfl

theorem irqHandler_masterEoi {pending : Fin 16 → Bool}
    (hhandler : c.handler = some (.masterEoi, UInt32.ofNat (line + 32)))
    (hpics : c.pics = .at pending (masterService line) noLine) :
    c.irqHandler = .ok { c with
      pics := .at pending noLine noLine
      handler := some (.leave, UInt32.ofNat (line + 32)) } := by
  unfold Computer.irqHandler
  rw [hhandler]
  dsimp only
  rw [hpics, masterEoi_eq]
  rfl

/-- The stub comes to its end, and the program goes on where it was. -/
theorem leave_eq (hhandler : c.handler = some (.leave, UInt32.ofNat (line + 32)))
    (hcpu : c.cpu = (p.interrupted l line).push l.afterCall) (left : Scratch) :
    c.leave l left = .ok { c with cpu := p, handler := none } := by
  unfold Computer.leave
  rw [hhandler]
  dsimp only
  rw [hcpu, Cpu.pop_push, ok_bind]
  exact bind_eq_ok.mpr ⟨p, irqStub_leaves p line, rfl⟩

/-! ## Events -/

/-- What no event changes, and what `irq_handler` changes only by calling routines. -/
structure Continues (c c' : Computer ρ) : Prop where
  idt : c'.idt = c.idt
  irqRoutines : c'.irqRoutines = c.irqRoutines
  served : ∃ more, c'.served = c.served ++ more ∧ c'.drivers = driversAfter c.irqRoutines c.drivers more

theorem Continues.of_eq (hidt : c'.idt = c.idt) (hroutines : c'.irqRoutines = c.irqRoutines)
    (hserved : c'.served = c.served) (hdrivers : c'.drivers = c.drivers) : Continues c c' :=
  ⟨hidt, hroutines, [], by rw [hserved, List.append_nil], hdrivers⟩

theorem Continues.trans {c'' : Computer ρ} (h : Continues c c') (h' : Continues c' c'') : Continues c c'' := by
  obtain ⟨more, hserved, hdrivers⟩ := h.served
  obtain ⟨more', hserved', hdrivers'⟩ := h'.served
  refine ⟨h'.idt.trans h.idt, h'.irqRoutines.trans h.irqRoutines, more ++ more', ?_, ?_⟩
  · rw [hserved', hserved, List.append_assoc]
  · rw [hdrivers', hdrivers, h.irqRoutines]
    exact (List.foldl_append ..).symm

/-- **A statement of `irq_handler`.** -/
theorem Along.irqHandler (h : Along l p a c) (hstep : c.irqHandler = .ok c') : Along l p a c' ∧ Continues c c' := by
  cases h with
  | program hhandler hserving hcpu hpics hserved =>
      unfold Computer.irqHandler at hstep
      rw [hhandler] at hstep
      cases hstep
  | serving line pc hhandler hserving hcpu hpics hserved =>
      cases pc with
      | routine =>
          obtain rfl := Except.ok.inj ((irqHandler_routine hhandler).symm.trans hstep)
          refine ⟨.serving line .slaveEoi rfl hserving hcpu hpics ?_, rfl, rfl, [line], rfl, rfl⟩
          rw [← hserved]
          exact List.append_nil _
      | slaveEoi =>
          obtain rfl := Except.ok.inj ((irqHandler_slaveEoi hhandler hpics).symm.trans hstep)
          exact ⟨.serving line .masterEoi rfl hserving hcpu rfl hserved, .of_eq rfl rfl rfl rfl⟩
      | masterEoi =>
          obtain rfl := Except.ok.inj ((irqHandler_masterEoi hhandler hpics).symm.trans hstep)
          exact ⟨.serving line .leave rfl hserving hcpu rfl hserved, .of_eq rfl rfl rfl rfl⟩
      | leave =>
          unfold Computer.irqHandler at hstep
          rw [hhandler] at hstep
          cases hstep

/-- **The end of the stub.** -/
theorem Along.leave (h : Along l p a c) (hstep : c.leave l left = .ok c') :
    a.serving.isSome ∧ Along l p { a with serving := none } c' ∧ Continues c c' := by
  have hleave : ∀ pc, c.handler = pc → (∀ n, pc ≠ some (.leave, n)) → False := by
    intro pc hhandler hpc
    unfold Computer.leave at hstep
    split at hstep
    · rename_i n hn
      exact hpc n (hhandler.symm.trans hn)
    · cases hstep
  cases h with
  | program hhandler hserving hcpu hpics hserved => exact (hleave _ hhandler fun _ h => by cases h).elim
  | serving line pc hhandler hserving hcpu hpics hserved =>
      cases pc with
      | leave =>
          obtain rfl := Except.ok.inj ((leave_eq hhandler hcpu left).symm.trans hstep)
          have hserved' : c.served = a.taken := by
            rw [← hserved]
            exact (List.append_nil _).symm
          exact ⟨by rw [hserving]; rfl, .program rfl rfl rfl hpics hserved', .of_eq rfl rfl rfl rfl⟩
      | _ => exact (hleave _ hhandler fun _ h => by cases h).elim

/-- **A device raises a line**, at any time. -/
theorem Along.raise (h : Along l p a c) (line : Fin 16) (raised : List (Fin 16)) :
    Along l p { a with pending := Function.update a.pending line true, raised }
      { c with pics := c.pics.raise line } := by
  cases h with
  | program hhandler hserving hcpu hpics hserved =>
      refine .program hhandler hserving hcpu ?_ hserved
      rw [hpics]
      exact raise_at
  | serving line' pc hhandler hserving hcpu hpics hserved =>
      refine .serving line' pc hhandler hserving hcpu ?_ hserved
      rw [hpics]
      exact raise_at

/-- **An interrupt is taken** only while the program runs. -/
theorem Along.accept (hgates : GatesSet l c.idt) (h2 : a.pending 2 = false) (h : Along l p a c)
    (hstep : c.accept l = .ok c') : ∃ line, a.serving = none ∧ lineOrder.find? a.pending = some line ∧
      Along l p { a with
        pending := Function.update a.pending line false, serving := some line, taken := a.taken ++ [line] } c' ∧
      Continues c c' := by
  by_cases hhandler : c.handler = none
  · cases h with
    | program _ hserving hcpu hpics hserved =>
        rw [accept_eq hgates h2 hcpu hpics] at hstep
        split at hstep
        · cases hfind : lineOrder.find? a.pending with
          | none =>
              rw [hfind] at hstep
              cases hstep
          | some line =>
              rw [hfind] at hstep
              cases hstep
              refine ⟨line, hserving, rfl, ?_, .of_eq rfl rfl rfl rfl⟩
              exact .serving line .routine rfl rfl rfl rfl (congrArg (· ++ [line]) hserved)
        · cases hstep
    | serving line pc hsome _ _ _ _ =>
        rw [hsome] at hhandler
        cases hhandler
  · unfold Computer.accept at hstep
    rw [h.disabled hhandler] at hstep
    cases hstep

/-- A device may raise every line but line 2. -/
theorem step_raise {pending : Fin 16 → Bool} {isrMaster isrSlave : Fin 8 → Bool} (hline : line.val ≠ 2)
    (hpics : c.pics = .at pending isrMaster isrSlave) :
    c.step l (.raise line) =
      .ok { c with pics := .at (Function.update pending line true) isrMaster isrSlave } := by
  unfold Computer.step
  dsimp only
  rw [if_neg hline, hpics, raise_at]

/-- **Every event** is a step of the program, or of the reference, or of neither. -/
theorem Along.step {e : ComputerEvent} (hgates : GatesSet l c.idt) (h2 : a.pending 2 = false)
    (h : Along l p a c) (hstep : c.step l e = .ok c') :
    ∃ a', run (Arbiter.step lineOrder) a e.arbiterOp.toList = .ok a' ∧ a'.pending 2 = false ∧
      Along l (e.programStep.toList.foldl (fun p f => f p) p) a' c' ∧ Continues c c' := by
  cases e with
  | raise line =>
      unfold Computer.step at hstep
      dsimp only at hstep
      by_cases hline : line.val = 2
      · rw [if_pos hline] at hstep
        cases hstep
      rw [if_neg hline] at hstep
      cases hstep
      by_cases hpending : a.pending line = true
      · -- the line waits already
        have hupdate : Function.update a.pending line true = a.pending := by
          rw [Function.update_eq_self_iff]
          exact hpending.symm
        have halong := h.raise line a.raised
        rw [hupdate] at halong
        exact ⟨a, run_cons.mpr ⟨a, if_pos hpending, rfl⟩, h2, halong, .of_eq rfl rfl rfl rfl⟩
      · have h2' : Function.update a.pending line true 2 = false := by
          rw [Function.update_of_ne fun he : 2 = line => hline (congrArg Fin.val he.symm)]
          exact h2
        exact ⟨_, run_cons.mpr ⟨_, if_neg hpending, rfl⟩, h2', h.raise line (a.raised ++ [line]),
          .of_eq rfl rfl rfl rfl⟩
  | program f =>
      unfold Computer.step at hstep
      cases h with
      | program hhandler hserving hcpu hpics hserved =>
          rw [hhandler] at hstep
          cases hstep
          refine ⟨a, rfl, h2, ?_, .of_eq rfl rfl rfl rfl⟩
          exact .program rfl hserving (congrArg f hcpu) hpics hserved
      | serving line pc hhandler hserving hcpu hpics hserved =>
          rw [hhandler] at hstep
          cases hstep
  | accept =>
      obtain ⟨line, hserving, hfind, halong, hkept⟩ := h.accept hgates h2 hstep
      have h2' : Function.update a.pending line false 2 = false := by
        rw [Function.update_apply]
        split
        · rfl
        · exact h2
      refine ⟨_, run_cons.mpr ⟨_, ?_, rfl⟩, h2', halong, hkept⟩
      unfold Arbiter.step
      rw [hserving, hfind]
  | handler =>
      obtain ⟨halong, hkept⟩ := h.irqHandler hstep
      exact ⟨a, rfl, h2, halong, hkept⟩
  | leave left =>
      obtain ⟨hserving, halong, hkept⟩ := h.leave hstep
      exact ⟨_, run_cons.mpr ⟨_, if_pos hserving, rfl⟩, h2, halong, hkept⟩

/-! ## Serving what waits -/

/-- The events that serve one line. -/
def serveOne (left : Scratch) : List ComputerEvent := [.accept, .handler, .handler, .handler, .leave left]

/-- **One line is served**: the program is where it was, and nothing is in service. -/
theorem serveOne_eq {pending : Fin 16 → Bool} (hgates : GatesSet l c.idt) (h2 : pending 2 = false)
    (hhandler : c.handler = none) (hpics : c.pics = .at pending noLine noLine)
    (henabled : c.interruptsEnabled = true) (hfind : lineOrder.find? pending = some line) (left : Scratch) :
    Lib.run (Computer.step l) c (serveOne left) = .ok { c with
      pics := .at (Function.update pending line false) noLine noLine
      drivers := driversAfter c.irqRoutines c.drivers [line]
      served := c.served ++ [line] } := by
  let rest := Function.update pending line false
  let intNo := UInt32.ofNat (line + 32)
  let c₁ : Computer ρ := { c with
    cpu := (c.cpu.interrupted l line).push l.afterCall
    pics := .at rest (masterService line) (slaveService line)
    handler := some (.routine, intNo) }
  let c₂ : Computer ρ := { c₁ with
    drivers := driversAfter c.irqRoutines c.drivers [line]
    handler := some (.slaveEoi, intNo)
    served := c.served ++ [line] }
  let c₃ : Computer ρ := { c₂ with
    pics := .at rest (masterService line) noLine
    handler := some (.masterEoi, intNo) }
  let c₄ : Computer ρ := { c₃ with pics := .at rest noLine noLine, handler := some (.leave, intNo) }
  have haccept : c.accept l = .ok c₁ := by
    rw [accept_eq (a := { Arbiter.start with pending }) hgates h2 rfl hpics, if_pos henabled, hfind]
  have hroutine : c₁.irqHandler = .ok c₂ := irqHandler_routine rfl
  have hslave : c₂.irqHandler = .ok c₃ := irqHandler_slaveEoi rfl rfl
  have hmaster : c₃.irqHandler = .ok c₄ := irqHandler_masterEoi rfl rfl
  have hleave : c₄.leave l left = .ok { c₄ with cpu := c.cpu, handler := none } := leave_eq rfl rfl left
  refine run_cons.mpr ⟨c₁, haccept, run_cons.mpr ⟨c₂, hroutine, run_cons.mpr ⟨c₃, hslave, ?_⟩⟩⟩
  refine run_cons.mpr ⟨c₄, hmaster, run_cons.mpr ⟨_, hleave, ?_⟩⟩
  rw [← hhandler]
  rfl

/-- The lines behind the first one that waits. -/
theorem filter_of_find {L : Type} [DecidableEq L] {pending : L → Bool} {order : List L} {line : L}
    (hnodup : order.Nodup) (hfind : order.find? pending = some line) :
    order.filter pending = line :: order.filter (Function.update pending line false) := by
  obtain ⟨hline, front, back, rfl, hfront⟩ := List.find?_eq_some_iff_append.mp hfind
  have hsame : ∀ ls : List L, line ∉ ls → ls.filter (Function.update pending line false) = ls.filter pending := by
    intro ls hls
    refine List.filter_congr fun x hx => ?_
    rw [Function.update_of_ne fun h : x = line => hls (h ▸ hx)]
  have hnone : front.filter pending = [] := List.filter_eq_nil_iff.mpr fun x hx => by simpa using hfront x hx
  have hnotFront : line ∉ front := fun h => by
    have := hfront line h
    simp [hline] at this
  have hnotBack : line ∉ back := (List.nodup_cons.mp (List.nodup_append.mp hnodup).2.1).1
  rw [List.filter_append, List.filter_append, hsame front hnotFront, hnone, List.filter_cons_of_pos hline,
    List.filter_cons_of_neg (by simp), hsame back hnotBack]
  rfl

/-- **All that waits is served**, in order, when the devices are quiet. -/
theorem serveAll_eq (n : Nat) {pending : Fin 16 → Bool} {c : Computer ρ} (hgates : GatesSet l c.idt)
    (h2 : pending 2 = false) (hhandler : c.handler = none) (hpics : c.pics = .at pending noLine noLine)
    (henabled : c.interruptsEnabled = true) (hn : (lineOrder.filter pending).length = n) (left : Scratch) :
    Lib.run (Computer.step l) c (List.replicate n (serveOne left)).flatten = .ok { c with
      pics := .at (fun _ => false) noLine noLine
      drivers := driversAfter c.irqRoutines c.drivers (lineOrder.filter pending)
      served := c.served ++ lineOrder.filter pending } := by
  induction n generalizing pending c with
  | zero =>
      have hnone := List.length_eq_zero_iff.mp hn
      have hpending : pending = fun _ => false := by
        funext line
        by_cases hline : line = 2
        · rw [hline, h2]
        · have hmem : line ∈ lineOrder := by
            revert line
            decide
          exact Bool.eq_false_iff.mpr (List.filter_eq_nil_iff.mp hnone line hmem)
      rw [hnone, List.append_nil, ← hpending, ← hpics]
      rfl
  | succ n ih =>
      cases hfind : lineOrder.find? pending with
      | none =>
          have hnone : lineOrder.filter pending = [] :=
            List.filter_eq_nil_iff.mpr (List.find?_eq_none.mp hfind)
          rw [hnone] at hn
          cases hn
      | some line =>
          have hfilter := filter_of_find (by decide) hfind
          rw [hfilter, List.length_cons, Nat.add_right_cancel_iff] at hn
          have h2' : Function.update pending line false 2 = false := by
            rw [Function.update_apply]
            split
            · rfl
            · exact h2
          rw [List.replicate_succ, List.flatten_cons]
          have hrest := ih (c := { c with
            pics := .at (Function.update pending line false) noLine noLine
            drivers := driversAfter c.irqRoutines c.drivers [line]
            served := c.served ++ [line] }) hgates h2' hhandler rfl henabled hn
          refine run_append.mpr ⟨_, serveOne_eq hgates h2 hhandler hpics henabled hfind left, hrest.trans ?_⟩
          rw [hfilter]
          simp only [driversAfter, List.append_assoc, List.singleton_append, List.foldl_cons, List.foldl_nil]

/-! ## Runs -/

/-- What a program has come to by itself. -/
def Cpu.runs (p : Cpu) (es : List ComputerEvent) : Cpu :=
  (es.filterMap ComputerEvent.programStep).foldl (fun p f => f p) p

/-- **Every run** is a run of the program alone, and a run of the reference. -/
theorem Along.run {es : List ComputerEvent} (hgates : GatesSet l c.idt) (h2 : a.pending 2 = false)
    (h : Along l p a c) (hrun : Lib.run (Computer.step l) c es = .ok c') :
    ∃ a', Lib.run (Arbiter.step lineOrder) a (es.filterMap ComputerEvent.arbiterOp) = .ok a' ∧
      a'.pending 2 = false ∧ Along l (p.runs es) a' c' ∧ Continues c c' := by
  unfold Cpu.runs
  simp only [List.filterMap_eq_flatMap_toList]
  induction es generalizing c p a with
  | nil =>
      cases hrun
      exact ⟨a, rfl, h2, h, .of_eq rfl rfl rfl rfl⟩
  | cons e es ih =>
      obtain ⟨c₁, hstep, hrest⟩ := run_cons.mp hrun
      obtain ⟨a₁, ha₁, h2₁, halong, hkept⟩ := h.step hgates h2 hstep
      obtain ⟨a', ha', h2', halong', hkept'⟩ := ih (hkept.idt ▸ hgates) h2₁ halong hrest
      refine ⟨a', ?_, h2', ?_, hkept.trans hkept'⟩
      · exact run_append.mpr ⟨a₁, ha₁, ha'⟩
      · rwa [List.flatMap_cons, List.foldl_append]

section Boot

variable {cpu : Cpu} {pics : Pics} {idt : Idt} {irqRoutines : Fin 16 → Option (ρ → ρ)} {drivers : ρ}
  {es : List ComputerEvent}

/-- What the kernel sets up. -/
def Computer.booted (l : IrqLinked) (cpu : Cpu) (idt : Idt) (irqRoutines : Fin 16 → Option (ρ → ρ))
    (drivers : ρ) : Computer ρ where
  cpu
  pics := .at (fun _ => false) noLine noLine
  idt := (idt.initIdt l.toStubs).irqGates l.toStubs
  irqRoutines
  drivers
  handler := none
  served := []

theorem boot_eq : Computer.boot l.toStubs cpu pics idt irqRoutines drivers =
    .ok (.booted l cpu idt irqRoutines drivers) := by
  unfold Computer.boot Computer.irqInstall
  dsimp only
  rw [irqRemap_eq]
  rfl

theorem gatesSet_booted (l : IrqLinked) (cpu : Cpu) (idt : Idt) (irqRoutines : Fin 16 → Option (ρ → ρ))
    (drivers : ρ) : GatesSet l (Computer.booted l cpu idt irqRoutines drivers).idt := fun line =>
  (gate_boot idt l.toStubs _).trans (congrArg some (vectorGate_line l _ line))

/-- A run from there. -/
theorem boot_run
    (hrun : (Computer.boot l.toStubs cpu pics idt irqRoutines drivers >>= fun c₀ =>
      Lib.run (Computer.step l) c₀ es) = .ok c) :
    ∃ a, Lib.run (Arbiter.step lineOrder) .start (es.filterMap ComputerEvent.arbiterOp) = .ok a ∧
      GatesSet l c.idt ∧ a.pending 2 = false ∧ Along l (cpu.runs es) a c ∧ c.irqRoutines = irqRoutines ∧
      c.drivers = driversAfter irqRoutines drivers c.served := by
  rw [boot_eq, ok_bind] at hrun
  have halong : Along l cpu .start (Computer.booted l cpu idt irqRoutines drivers) :=
    .program rfl rfl rfl rfl rfl
  have hgates := gatesSet_booted l cpu idt irqRoutines drivers
  obtain ⟨a, ha, h2, halong', hkept⟩ := halong.run hgates rfl hrun
  obtain ⟨more, hmore, hdrivers⟩ := hkept.served
  have hgates' : GatesSet l c.idt := by
    rw [hkept.idt]
    exact hgates
  refine ⟨a, ha, hgates', h2, halong', hkept.irqRoutines, ?_⟩
  rw [hdrivers, hmore]
  rfl

/-- What the controllers hold is what waits. -/
theorem pending_at (pending : Fin 16 → Bool) (isrMaster isrSlave : Fin 8 → Bool) (line : Fin 16) :
    (Pics.at pending isrMaster isrSlave).pending line = pending line := by
  rcases line_cases line with ⟨j, rfl⟩ | ⟨j, rfl⟩
  · exact dif_pos j.isLt
  · have hnot : ¬ (slaveLineOf j).val < 8 := by
      show ¬ 8 + j.val < 8
      omega
    have hback : Fin.subNat 8 (slaveLineOf j) (Nat.le_of_not_lt hnot) = j :=
      Fin.ext (Nat.add_sub_cancel_left 8 j.val)
    unfold Pics.pending
    rw [dif_neg hnot, hback]
    rfl

/-- What has been taken: the routine has been called, or is about to be. -/
theorem Along.taken (h : Along l p a c) : c.served ++ c.current = a.taken := by
  unfold Computer.current
  cases h with
  | program hhandler hserving hcpu hpics hserved =>
      rw [hhandler, List.append_nil]
      exact hserved
  | serving line pc hhandler hserving hcpu hpics hserved =>
      rw [hhandler, ← hserved]
      cases pc with
      | routine =>
          have hlt : (UInt32.ofNat (line + 32) - 32).toNat < 16 := by
            rw [intNo_sub]
            exact line.isLt
          have hline : (⟨(UInt32.ofNat (line + 32) - 32).toNat, hlt⟩ : Fin 16) = line :=
            Fin.ext (intNo_sub line)
          dsimp only
          rw [dif_pos hlt, hline]
          rfl
      | _ => rfl

theorem Along.pending (h : Along l p a c) (line : Fin 16) : c.pics.pending line = a.pending line := by
  cases h with
  | program hhandler hserving hcpu hpics hserved =>
      rw [hpics]
      exact pending_at _ _ _ _
  | serving line' pc hhandler hserving hcpu hpics hserved =>
      rw [hpics]
      exact pending_at _ _ _ _

/-- Code somewhere. -/
def someLinked : IrqLinked where
  isr i := 0x100000 + 16 * UInt32.ofNat i
  isr80 := 0x100200
  irq i := 0x100300 + 16 * UInt32.ofNat i
  irqHandler := 0x100400
  afterCall := 0x100420
  irq_injective := by
    have h : ∀ i j : Fin 16, (0x100300 : UInt32) + 16 * UInt32.ofNat i = 0x100300 + 16 * UInt32.ofNat j →
        i = j := by decide
    exact h

/-- An empty table. -/
def someIdt : Idt := ⟨Vector.replicate 256 ⟨0, 0, 0, 0, 0⟩, ⟨0, 0⟩, 0xc0104000, ⟨0, 0⟩⟩

/-- Controllers that nobody has set up. -/
def somePics : Pics :=
  ⟨⟨.ready, false, true, 0, 0, false, noLine, noLine, noLine⟩,
    ⟨.ready, false, true, 0, 0, false, noLine, noLine, noLine⟩⟩

/-- Line 0 is raised, and line 9 while its routine runs. -/
theorem someRun (left : Scratch) : ∃ c : Computer Nat,
    (Computer.boot someLinked.toStubs { (default : Cpu) with eflags := 0x202 } somePics someIdt
        (fun _ => some (· + 1)) 0 >>= fun c₀ =>
      Lib.run (Computer.step someLinked) c₀ ([.raise 0] ++ serveOne left ++ [.raise 9])) = .ok c ∧
      c.handler = none ∧ c.interruptsEnabled = true ∧ c.served = [0] ∧
      lineOrder.find? c.pics.pending = some 9 := by
  let cpu : Cpu := { (default : Cpu) with eflags := 0x202 }
  let c₀ : Computer Nat := .booted someLinked cpu someIdt (fun _ => some (· + 1)) 0
  let timer : Fin 16 → Bool := Function.update (fun _ => false) 0 true
  let c₁ : Computer Nat := { c₀ with pics := .at timer noLine noLine }
  have hraise : c₀.step someLinked (.raise 0) = .ok c₁ := step_raise (by decide) rfl
  have hgates : GatesSet someLinked c₁.idt := gatesSet_booted someLinked cpu someIdt (fun _ => some (· + 1)) 0
  let c₂ : Computer Nat := { c₁ with
    pics := .at (Function.update timer 0 false) noLine noLine
    drivers := 1
    served := [0] }
  have hserve : Lib.run (Computer.step someLinked) c₁ (serveOne left) = .ok c₂ :=
    serveOne_eq hgates rfl rfl rfl (by decide) (by decide) left
  let c₃ : Computer Nat := { c₂ with
    pics := .at (Function.update (Function.update timer 0 false) 9 true) noLine noLine }
  have hraise' : c₂.step someLinked (.raise 9) = .ok c₃ := step_raise (by decide) rfl
  rw [boot_eq, ok_bind]
  refine ⟨c₃, ?_, rfl, by decide, rfl, by decide⟩
  exact run_append.mpr ⟨c₂, run_append.mpr ⟨c₁, run_cons.mpr ⟨c₁, hraise, rfl⟩, hserve⟩,
    run_cons.mpr ⟨c₃, hraise', rfl⟩⟩

/-- **Every request is served once**, in every order of events: the lines are taken as the reference takes
    them, each of them leads to one call of its routine, and what has been asked for and not called is waiting
    or about to be called. -/
theorem requests_served
    (hrun : (Computer.boot l.toStubs cpu pics idt irqRoutines drivers >>= fun c₀ =>
      Lib.run (Computer.step l) c₀ es) = .ok c) :
    ∃ a, Lib.run (Arbiter.step lineOrder) .start (es.filterMap ComputerEvent.arbiterOp) = .ok a ∧
      c.served ++ c.current = a.taken ∧ (∀ line, c.pics.pending line = a.pending line) ∧
      (∀ line, a.raised.count line =
        c.served.count line + c.current.count line + (c.pics.pending line).toNat) ∧
      c.drivers = driversAfter irqRoutines drivers c.served := by
  obtain ⟨a, ha, -, -, halong, -, hdrivers⟩ := boot_run hrun
  refine ⟨a, ha, halong.taken, halong.pending, ?_, hdrivers⟩
  intro line
  rw [halong.pending, ← List.count_append, halong.taken]
  exact Arbiter.conserved_run Arbiter.conserved_start ha line

/-- The timer has been served, and line 9 waits. -/
theorem requests_served_timer : ∃ (c : Computer Nat) (a : Arbiter (Fin 16)),
    c.served ++ c.current = a.taken ∧ c.served = [0] ∧ a.raised.count 9 = 1 ∧
      c.drivers = driversAfter (fun _ => some (· + 1)) 0 [0] := by
  obtain ⟨c, hrun, hhandler, -, hserved, hfind⟩ := someRun ⟨0, 0, 0, 0, 0⟩
  obtain ⟨a, -, htaken, -, hcount, hdrivers⟩ := requests_served hrun
  have hcurrent : c.current = [] := by
    unfold Computer.current
    rw [hhandler]
  have hpending := List.find?_some hfind
  have h9 := hcount 9
  rw [hcurrent, hserved, hpending] at h9
  rw [hserved] at hdrivers
  exact ⟨c, a, htaken, hserved, h9, hdrivers⟩

/-- **The program is not disturbed**, in every order of events: whenever it runs, all registers, the flags and
    the stack are what its own steps have made of them. While `irq_handler` runs, they are on the stack, and
    interrupts are disabled. -/
theorem program_undisturbed
    (hrun : (Computer.boot l.toStubs cpu pics idt irqRoutines drivers >>= fun c₀ =>
      Lib.run (Computer.step l) c₀ es) = .ok c) :
    (c.handler = none → c.cpu = cpu.runs es) ∧
      (c.handler ≠ none → c.interruptsEnabled = false ∧
        ∃ line, c.cpu.stack.drop 2 = (cpu.runs es).irqFrame line ++ (cpu.runs es).stack) := by
  obtain ⟨a, -, -, -, halong, -⟩ := boot_run hrun
  refine ⟨?_, fun hhandler => ⟨halong.disabled hhandler, ?_⟩⟩
  · intro hhandler
    cases halong with
    | program _ _ hcpu _ _ => exact hcpu
    | serving line pc hsome _ _ _ _ =>
        rw [hsome] at hhandler
        cases hhandler
  · cases halong with
    | program hnone _ _ _ _ => exact absurd hnone hhandler
    | serving line pc _ _ hcpu _ _ =>
        rw [hcpu]
        exact ⟨line, rfl⟩

/-- It has not been by the timer. -/
theorem program_undisturbed_timer : ∃ c : Computer Nat, c.served = [0] ∧
    c.cpu = { (default : Cpu) with eflags := 0x202 } := by
  obtain ⟨c, hrun, hhandler, -, hserved, -⟩ := someRun ⟨0, 0, 0, 0, 0⟩
  exact ⟨c, hserved, (program_undisturbed hrun).1 hhandler⟩

/-- **Which interrupt is taken when**, in every order of events: exactly when the program runs with interrupts
    enabled and some line waits, and then it is the first one. No line is ever blocked by one that has been
    served. -/
theorem accept_iff
    (hrun : (Computer.boot l.toStubs cpu pics idt irqRoutines drivers >>= fun c₀ =>
      Lib.run (Computer.step l) c₀ es) = .ok c) (line : Fin 16) :
    (∃ c', c.accept l = .ok c' ∧ c'.handler = some (.routine, UInt32.ofNat (line + 32))) ↔
      c.handler = none ∧ c.interruptsEnabled = true ∧ lineOrder.find? c.pics.pending = some line := by
  obtain ⟨a, -, hgates, h2, halong, -⟩ := boot_run hrun
  have hpending : c.pics.pending = a.pending := funext halong.pending
  rw [hpending]
  by_cases hhandler : c.handler = none
  · cases halong with
    | serving line pc hsome _ _ _ _ =>
        rw [hsome] at hhandler
        cases hhandler
    | program _ hserving hcpu hpics hserved =>
        rw [accept_eq hgates h2 hcpu hpics]
        by_cases henabled : c.interruptsEnabled = true
        · rw [if_pos henabled]
          cases hfind : lineOrder.find? a.pending with
          | none =>
              refine iff_of_false (fun ⟨_, h, _⟩ => ?_) fun h => ?_
              · cases h
              · cases h.2.2
          | some line' =>
              constructor
              · rintro ⟨c', hc', hline⟩
                cases hc'
                refine ⟨hhandler, henabled, congrArg some (Fin.ext ?_)⟩
                have hnumber := congrArg UInt32.toNat (Prod.mk.inj (Option.some.inj hline)).2
                rw [intNo_toNat, intNo_toNat] at hnumber
                exact Nat.add_right_cancel hnumber
              · rintro ⟨-, -, hline⟩
                obtain rfl := Option.some.inj hline
                exact ⟨_, rfl, rfl⟩
        · rw [if_neg henabled]
          refine iff_of_false (fun ⟨_, h, _⟩ => ?_) fun h => henabled h.2.1
          cases h
  · refine iff_of_false (fun ⟨_, h, _⟩ => ?_) fun h => hhandler h.1
    unfold Computer.accept at h
    rw [halong.disabled hhandler] at h
    cases h

/-- Line 9 can be taken. -/
theorem accept_iff_slave : ∃ c c' : Computer Nat, c.served = [0] ∧ c.accept someLinked = .ok c' ∧
    c'.handler = some (.routine, 41) := by
  obtain ⟨c, hrun, hhandler, henabled, hserved, hfind⟩ := someRun ⟨0, 0, 0, 0, 0⟩
  obtain ⟨c', haccept, hline⟩ := (accept_iff hrun 9).mpr ⟨hhandler, henabled, hfind⟩
  exact ⟨c, c', hserved, haccept, hline⟩

/-- **All that waits is served** when the devices are quiet: once for each line that waits, the program is
    interrupted, the routine of the line is called, and the program goes on where it was. -/
theorem all_served
    (hrun : (Computer.boot l.toStubs cpu pics idt irqRoutines drivers >>= fun c₀ =>
      Lib.run (Computer.step l) c₀ es) = .ok c)
    (hhandler : c.handler = none) (henabled : c.interruptsEnabled = true) (left : Scratch) :
    ∃ c', Lib.run (Computer.step l) c
        (List.replicate (lineOrder.filter c.pics.pending).length (serveOne left)).flatten = .ok c' ∧
      c'.served = c.served ++ lineOrder.filter c.pics.pending ∧ (∀ line, c'.pics.pending line = false) ∧
      c'.cpu = c.cpu ∧ c'.handler = none := by
  obtain ⟨a, -, hgates, h2, halong, -⟩ := boot_run hrun
  have hpending : c.pics.pending = a.pending := funext halong.pending
  rw [hpending]
  cases halong with
  | serving line pc hsome _ _ _ _ =>
      rw [hsome] at hhandler
      cases hhandler
  | program _ hserving hcpu hpics hserved =>
      exact ⟨_, serveAll_eq _ hgates h2 hhandler hpics henabled rfl left, rfl, fun line => pending_at _ _ _ _,
        rfl, hhandler⟩

/-- Line 9 is. -/
theorem all_served_slave : ∃ (c c' : Computer Nat) (rest : List (Fin 16)), c.served = [0] ∧
    c'.served = 0 :: 9 :: rest ∧ (∀ line, c'.pics.pending line = false) ∧ c'.handler = none := by
  obtain ⟨c, hrun, hhandler, henabled, hserved, hfind⟩ := someRun ⟨0, 0, 0, 0, 0⟩
  obtain ⟨c', -, hserved', hnone, -, hhandler'⟩ := all_served hrun hhandler henabled ⟨0, 0, 0, 0, 0⟩
  rw [hserved, filter_of_find (by decide) hfind] at hserved'
  exact ⟨c, c', _, hserved, hserved', hnone, hhandler'⟩

/-- **No line is overtaken** by one behind it, in every order of events: from when a line waits, every line
    that is taken before it comes before it in the order, and until it is taken it waits. -/
theorem line_not_overtaken {es' : List ComputerEvent}
    (hrun : (Computer.boot l.toStubs cpu pics idt irqRoutines drivers >>= fun c₀ =>
      Lib.run (Computer.step l) c₀ es) = .ok c)
    (hpending : c.pics.pending line = true) (hrun' : Lib.run (Computer.step l) c es' = .ok c') :
    ∃ more, c'.served ++ c'.current = c.served ++ c.current ++ more ∧
      (line ∈ more ∨ c'.pics.pending line = true ∧
        ∀ other ∈ more, lineOrder.idxOf other < lineOrder.idxOf line) := by
  obtain ⟨a, -, hgates, h2, halong, -⟩ := boot_run hrun
  obtain ⟨a', ha', -, halong', -⟩ := halong.run hgates h2 hrun'
  rw [halong.pending] at hpending
  rw [halong.taken, halong'.taken, halong'.pending]
  exact Arbiter.not_overtaken hpending ha'

/-- Line 9 waits: the timer may be served before it, and line 10 may not. -/
theorem line_not_overtaken_slave : ∃ c : Computer Nat, c.pics.pending 9 = true ∧
    ∀ es' c', Lib.run (Computer.step someLinked) c es' = .ok c' → ∀ more,
      c'.served ++ c'.current = c.served ++ c.current ++ more → 9 ∉ more → 10 ∉ more := by
  obtain ⟨c, hrun, -, -, -, hfind⟩ := someRun ⟨0, 0, 0, 0, 0⟩
  have hpending := List.find?_some hfind
  refine ⟨c, hpending, ?_⟩
  intro es' c' hrun' more hmore hnot h10
  obtain ⟨more', hmore', hover⟩ := line_not_overtaken hrun hpending hrun'
  obtain rfl := List.append_cancel_left (hmore.symm.trans hmore')
  exact absurd ((hover.resolve_left hnot).2 10 h10) (by decide)

end Boot

end WeirdOs
