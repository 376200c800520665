import WeirdOs.Kernel.Correctness.Syscall
import WeirdOs.Kernel.Interrupt

/-!
# `Kernel.Correctness.Interrupt` — what a program gets back from `read` and `write`

`isr80` does its part: the handler reads the registers of the caller, and all of them are restored
(`int80_eq`). That includes `eax`, in which the library looks for the result. The handler drops what a call
returns and never writes to `struct regs`, so the program gets the number of the system call back. And the
fourth argument, the offset, comes from `esi`, which the library does not set.
-/

namespace WeirdOs

open Lib

variable {l : Linked} {left : Scratch} {m : Machine} {c : Cpu} {k : Kernel} {fildes : Int} {inode : Nat}
  {buf size : UInt32}

/-! ## Into the handler and out of it -/

/-- The registers of the caller that the handler looks at. -/
def Cpu.regs (c : Cpu) : Regs := ⟨c.eax, c.ebx, c.ecx, c.edx, c.esi, c.edi, c.ebp⟩

/-- The `struct regs` that `isr80` builds. -/
def Cpu.frame (c : Cpu) : List UInt32 := [
  (c.seg .gs).toUInt32, (c.seg .fs).toUInt32, (c.seg .es).toUInt32, (c.seg .ds).toUInt32,
  c.edi, c.esi, c.ebp, c.esp - 20, c.ebx, c.edx, c.ecx, c.eax,
  0x80, 0, c.eip, c.cs.toUInt32, c.eflags]

/-- The processor before `call eax`. -/
def Cpu.entered (l : Linked) (c : Cpu) : Cpu :=
  { c with
    eax := l.syscallHandler, esp := c.esp - 72, seg := fun _ => 0x10, cs := 0x08, eip := l.isr80,
    eflags := c.eflags &&& ~~~0x34300 &&& ~~~0x400, stack := (c.esp - 68) :: c.frame ++ c.stack }

/-- The processor after it. -/
def Cpu.called (l : Linked) (left : Scratch) (c : Cpu) : Cpu :=
  { c.entered l with
    eax := left.eax, ecx := left.ecx, edx := left.edx, eflags := left.eflags,
    stack := left.argument :: c.frame ++ c.stack }

/-- What `mov ax, n` leaves in `ax`. -/
theorem toUInt16_movAx (a : UInt32) (n : UInt16) : ((a &&& 0xffff0000) ||| n.toUInt32).toUInt16 = n := by
  have hlow : (0xffff0000 : UInt32).toUInt16 = 0 := rfl
  simp only [UInt32.toUInt16_or, UInt32.toUInt16_and, hlow, UInt16.toUInt16_toUInt32, UInt16.and_zero,
    UInt16.zero_or]

/-- All segment registers are loaded. -/
theorem update_segs (f g : Seg → UInt16) :
    Function.update (Function.update (Function.update (Function.update f .ds (g .ds)) .es (g .es))
      .fs (g .fs)) .gs (g .gs) = g := by
  funext s
  cases s <;> rfl

/-- They are restored in the other order. -/
theorem update_segs_reverse (f g : Seg → UInt16) :
    Function.update (Function.update (Function.update (Function.update f .gs (g .gs)) .fs (g .fs))
      .es (g .es)) .ds (g .ds) = g := by
  funext s
  cases s <;> rfl

/-- The registers are saved. -/
theorem isr80_enters :
    Lib.run (Machine.exec l left) ⟨c.interrupt l, k⟩ (isr80.take 16) = .ok ⟨c.entered l, k⟩ := by
  have hsegs := update_segs c.seg fun _ => 0x10
  have hsaved : c.esp - 4 - 4 - 4 - 4 - 4 = c.esp - 20 := by grind
  have hframe : c.esp - 20 - 4 - 4 - 4 - 4 - 4 - 4 - 4 - 4 - 4 - 4 - 4 - 4 = c.esp - 68 := by grind
  have hesp : c.esp - 68 - 4 = c.esp - 72 := by grind
  simp only [isr80, List.take, Lib.run, Machine.exec, ok_bind, Cpu.interrupt, Cpu.pusha, Cpu.push,
    toUInt16_movAx, hsegs, hsaved, hframe, hesp]
  rfl

/-- The word that many bytes above `esp`. -/
theorem Cpu.word_eq_ok {a d w : UInt32} (ha : a - c.esp = d) (hw : c.stack[(d / 4).toNat]? = some w) :
    c.word a = .ok w := by
  unfold Cpu.word
  rw [ha, hw]

/-- The handler finds them where `struct regs` has them. -/
theorem structRegs_entered :
    ((c.entered l).push l.afterCall).structRegs (c.esp - 68) = .ok c.regs := by
  have hword : ∀ d w, (((c.entered l).push l.afterCall).stack[((d + 8) / 4).toNat]? = some w) →
      ((c.entered l).push l.afterCall).word (c.esp - 68 + d) = .ok w := by
    intro d w hw
    refine Cpu.word_eq_ok ?_ hw
    show c.esp - 68 + d - (c.esp - 72 - 4) = d + 8
    grind
  unfold Cpu.structRegs
  rw [hword 44 c.eax rfl, ok_bind, hword 32 c.ebx rfl, ok_bind, hword 40 c.ecx rfl, ok_bind,
    hword 36 c.edx rfl, ok_bind, hword 20 c.esi rfl, ok_bind, hword 16 c.edi rfl, ok_bind,
    hword 24 c.ebp rfl, ok_bind]
  rfl

theorem Cpu.pop_push (c : Cpu) (w : UInt32) : (c.push w).pop = .ok (w, c) := by
  unfold Cpu.push Cpu.pop
  rw [UInt32.sub_add_cancel]

/-- The handler reads them. -/
theorem handlerRegs_entered : Machine.handlerRegs l ⟨c.entered l, k⟩ = .ok c.regs := by
  have hargument : ((c.entered l).push l.afterCall).word (((c.entered l).push l.afterCall).esp + 4) =
      .ok (c.esp - 68) := by
    refine Cpu.word_eq_ok (d := 4) ?_ rfl
    grind
  have heax : (c.entered l).eax = l.syscallHandler := rfl
  unfold Machine.handlerRegs
  rw [if_pos heax]
  dsimp only
  rw [hargument, ok_bind, structRegs_entered]

/-- It runs on them. -/
theorem isr80_calls : Machine.exec l left ⟨c.entered l, k⟩ .callEax = do
    let kernel ← k.syscallHandler c.regs
    return ⟨c.called l left, kernel⟩ := by
  show Machine.callEax l left _ = _
  unfold Machine.callEax
  rw [handlerRegs_entered, ok_bind]
  simp only [Cpu.pop_push, ok_bind]
  rfl

/-- They are restored, whatever the handler left in them. -/
theorem isr80_leaves :
    Lib.run (Machine.exec l left) ⟨c.called l left, k⟩ (isr80.drop 17) = .ok ⟨c, k⟩ := by
  have hsegs := update_segs_reverse (fun _ => 0x10) c.seg
  have hesp : c.esp - 72 + 4 + 4 + 4 + 4 + 4 + 4 + 4 + 4 + 4 + 4 + 4 + 4 + 4 + 8 + 4 + 4 + 4 = c.esp := by
    grind
  have hdrop : ((8 : UInt32) / 4).toNat = 2 := rfl
  simp only [isr80, List.drop, Lib.run, Machine.exec, ok_bind, Cpu.called, Cpu.entered, Cpu.frame, Cpu.popa,
    Cpu.pop, List.cons_append, List.nil_append, pure_bind, UInt16.toUInt16_toUInt32, hsegs, hdrop,
    List.drop_succ_cons, hesp]

/-- **What `int $0x80` does**: the handler runs on the registers of the caller, and no register is changed. -/
theorem int80_eq (m : Machine) : m.int80 l left = do
    let kernel ← m.kernel.syscallHandler m.cpu.regs
    return ⟨m.cpu, kernel⟩ := by
  obtain ⟨c, k⟩ := m
  have hcode : isr80 = isr80.take 16 ++ .callEax :: isr80.drop 17 := rfl
  unfold Machine.int80
  rw [hcode, run_append_eq, isr80_enters, ok_bind, Lib.run, isr80_calls]
  dsimp only
  cases k.syscallHandler c.regs with
  | error e => rfl
  | ok kernel =>
      simp only [ok_bind, pure_bind]
      exact isr80_leaves

/-- The methods that are called are those that the handler calls. -/
theorem int80Calls_eq (m : Machine) : m.int80Calls l left = m.kernel.inodeCalls m.cpu.regs := by
  obtain ⟨c, k⟩ := m
  have hcode : isr80 = isr80.take 16 ++ [.callEax] ++ isr80.drop 17 := rfl
  have hnone : ∀ instrs : List Instr, .callEax ∉ instrs → ∀ m,
      Lib.trace (Machine.inodeCalls l) (Machine.exec l left) m instrs = [] := by
    intro instrs hnot m
    refine trace_eq_nil fun instr hinstr m => ?_
    cases instr with
    | callEax => exact absurd hinstr hnot
    | _ => rfl
  have hcall : Machine.inodeCalls l ⟨c.entered l, k⟩ .callEax = k.inodeCalls c.regs := by
    unfold Machine.inodeCalls
    rw [handlerRegs_entered]
  unfold Machine.int80Calls
  rw [hcode, List.append_assoc, trace_append isr80_enters, hnone _ (by decide), List.nil_append,
    List.singleton_append, Lib.trace, hcall]
  dsimp only
  split
  · rw [hnone _ (by decide), List.append_nil]
  · rw [List.append_nil]

/-! ## The calls of the library -/

/-- **A system call of a program** has its number for a result. -/
theorem syscall_eq (m : Machine) (num arg₀ arg₁ arg₂ : UInt32) : m.syscall l left num arg₀ arg₁ arg₂ = do
    let kernel ← m.kernel.syscallHandler ⟨num, arg₀, arg₁, arg₂, m.cpu.esi, m.cpu.edi, m.cpu.ebp⟩
    return (⟨(m.arguments num arg₀ arg₁ arg₂).cpu, kernel⟩, toInt32 num.toNat) := by
  unfold Machine.syscall
  rw [int80_eq]
  simp only [bind_assoc, pure_bind]
  rfl

/-- A descriptor survives its way through `ebx`. -/
theorem toInt32_fildes (hopen : k.fileInode fildes = .ok inode) :
    toInt32 (UInt32.ofInt fildes).toNat = fildes := by
  obtain ⟨place, hplace, _⟩ := bind_eq_ok.mp hopen
  obtain ⟨rfl, hlt⟩ := checkFildes_eq_ok.mp hplace
  unfold FD_MAX at hlt
  have hnat : (UInt32.ofInt place).toNat = place := by
    unfold UInt32.ofInt
    rw [UInt32.toNat_ofNat']
    omega
  rw [hnat]
  exact toInt32_of_lt (by omega)

/-- A method that reads returns at most the length. -/
theorem inodeRead_le {k' : Kernel} {inode buf nbyte offset count : Nat}
    (hmethod : k.inodeRead inode buf nbyte offset = .ok (k', count)) : count ≤ nbyte := by
  unfold Kernel.inodeRead at hmethod
  cases hkind : (k.files.fs.inodes inode).kind with
  | directoryLike =>
      rw [hkind] at hmethod
      cases hmethod
      exact Nat.zero_le _
  | rdfs data =>
      rw [hkind] at hmethod
      obtain ⟨_, -, hmethod⟩ := bind_eq_ok.mp hmethod
      obtain ⟨_, -, hmethod⟩ := bind_eq_ok.mp hmethod
      cases hmethod
      exact Nat.min_le_right _ _
  | fifo =>
      rw [hkind] at hmethod
      obtain ⟨_, -, hmethod⟩ := bind_eq_ok.mp hmethod
      obtain ⟨-, rfl⟩ := Prod.mk.inj (Except.ok.inj hmethod)
      by_cases hle : nbyte ≤ (k.fifos inode).bufferIndex
      · exact Nat.le_of_eq (congrArg (·.2.2) (read_served hle))
      · have hshort := read_short (s := ⟨k.mem, k.fifos inode⟩) buf (Nat.not_le.mp hle)
        exact Nat.le_trans (Nat.le_of_eq (congrArg (·.2.2) hshort)) (Nat.zero_le _)
  | other =>
      rw [hkind] at hmethod
      cases hmethod
      exact Nat.zero_le _

theorem inodeWrite_le {k' : Kernel} {inode buf n count : Nat}
    (hmethod : k.inodeWrite inode buf n = .ok (k', count)) : count ≤ n := by
  unfold Kernel.inodeWrite at hmethod
  cases hkind : (k.files.fs.inodes inode).kind with
  | directoryLike =>
      rw [hkind] at hmethod
      cases hmethod
      exact Nat.zero_le _
  | rdfs data =>
      rw [hkind] at hmethod
      cases hmethod
      exact Nat.zero_le _
  | fifo =>
      rw [hkind] at hmethod
      obtain ⟨_, -, hmethod⟩ := bind_eq_ok.mp hmethod
      obtain ⟨-, rfl⟩ := Prod.mk.inj (Except.ok.inj hmethod)
      exact Nat.le_refl _
  | other =>
      rw [hkind] at hmethod
      obtain ⟨_, -, hmethod⟩ := bind_eq_ok.mp hmethod
      obtain ⟨screen, -, hrest⟩ := bind_eq_ok.mp hmethod
      cases hrest
      exact Nat.le_refl _

/-- System call 2 on an open file calls `read` of its inode. -/
theorem inodeCalls_read {r : Regs} (heax : r.eax.toNat = 2)
    (hopen : k.fileInode (toInt32 r.ebx.toNat) = .ok inode) :
    k.inodeCalls r = [⟨inode, r.ecx.toNat, r.edx.toNat, r.esi.toNat,
      (k.inodeRead inode r.ecx.toNat r.edx.toNat r.esi.toNat).toOption.map (·.2)⟩] := by
  unfold Kernel.inodeCalls
  rw [heax, hopen]
  rfl

/-- System call 3 calls `write`. -/
theorem inodeCalls_write {r : Regs} (heax : r.eax.toNat = 3)
    (hopen : k.fileInode (toInt32 r.ebx.toNat) = .ok inode) :
    k.inodeCalls r = [⟨inode, r.ecx.toNat, r.edx.toNat, r.esi.toNat,
      (k.inodeWrite inode r.ecx.toNat r.edx.toNat).toOption.map (·.2)⟩] := by
  unfold Kernel.inodeCalls
  rw [heax, hopen]
  rfl

/-- **`read`** of an open file calls the method of the inode with `esi` for the offset. -/
theorem readCalls_eq (hopen : k.fileInode fildes = .ok inode) (cpu : Cpu) :
    Machine.readCalls l left ⟨cpu, k⟩ fildes buf size = [⟨inode, buf.toNat, size.toNat, cpu.esi.toNat,
      (k.inodeRead inode buf.toNat size.toNat cpu.esi.toNat).toOption.map (·.2)⟩] := by
  unfold Machine.readCalls
  rw [int80Calls_eq]
  refine inodeCalls_read rfl ?_
  exact (congrArg k.fileInode (toInt32_fildes hopen)).trans hopen

/-- **`write`** does the same. -/
theorem writeCalls_eq (hopen : k.fileInode fildes = .ok inode) (cpu : Cpu) :
    Machine.writeCalls l left ⟨cpu, k⟩ fildes buf size = [⟨inode, buf.toNat, size.toNat, cpu.esi.toNat,
      (k.inodeWrite inode buf.toNat size.toNat).toOption.map (·.2)⟩] := by
  unfold Machine.writeCalls
  rw [int80Calls_eq]
  refine inodeCalls_write rfl ?_
  exact (congrArg k.fileInode (toInt32_fildes hopen)).trans hopen

/-- `read` returns if the method does, and always 2. -/
theorem read_eq (hopen : k.fileInode fildes = .ok inode) (cpu : Cpu) :
    Machine.read l left ⟨cpu, k⟩ fildes buf size = do
      let (kernel, _) ← k.inodeRead inode buf.toNat size.toNat cpu.esi.toNat
      return (⟨(Machine.arguments ⟨cpu, k⟩ 2 (UInt32.ofInt fildes) buf size).cpu, kernel⟩, 2) := by
  have hhandler : k.syscallHandler ⟨2, UInt32.ofInt fildes, buf, size, cpu.esi, cpu.edi, cpu.ebp⟩ = do
      let (k, _) ← k.inodeRead inode buf.toNat size.toNat cpu.esi.toNat
      return k := by
    show k.syscallRead _ _ _ _ >>= _ = _
    unfold Kernel.syscallRead
    rw [toInt32_fildes hopen, hopen]
    simp only [ok_bind, bind_assoc, pure_bind]
  unfold Machine.read
  rw [syscall_eq, hhandler]
  simp only [bind_assoc, pure_bind]
  rfl

/-- `write` too, and 3. -/
theorem write_eq (hopen : k.fileInode fildes = .ok inode) (cpu : Cpu) :
    Machine.write l left ⟨cpu, k⟩ fildes buf size = do
      let (kernel, _) ← k.inodeWrite inode buf.toNat size.toNat
      return (⟨(Machine.arguments ⟨cpu, k⟩ 3 (UInt32.ofInt fildes) buf size).cpu, kernel⟩, 3) := by
  have hhandler : k.syscallHandler ⟨3, UInt32.ofInt fildes, buf, size, cpu.esi, cpu.edi, cpu.ebp⟩ = do
      let (k, _) ← k.inodeWrite inode buf.toNat size.toNat
      return k := by
    show k.syscallWrite _ _ _ _ >>= _ = _
    unfold Kernel.syscallWrite
    rw [toInt32_fildes hopen, hopen]
    simp only [ok_bind, bind_assoc, pure_bind]
  unfold Machine.write
  rw [syscall_eq, hhandler]
  simp only [bind_assoc, pure_bind]
  rfl

/-! ## What is passed on -/

/-- The result of a call that returns is what the method of the inode returned. -/
def ResultPassed (k : Kernel) (call : Machine → Exec (Machine × Int)) (made : Machine → List InodeCall) : Prop :=
  ∀ cpu m ret, call ⟨cpu, k⟩ = .ok (m, ret) → ∀ method ∈ made ⟨cpu, k⟩, method.result.map toInt32 = some ret

/-- The offset that the method gets is the same whatever is in the registers before the call. -/
def OffsetFixed (k : Kernel) (made : Machine → List InodeCall) : Prop :=
  ∀ cpu cpu', (made ⟨cpu, k⟩).map (·.offset) = (made ⟨cpu', k⟩).map (·.offset)

/-- **Both**: what a call of the library is to pass on to the kernel and back. -/
structure CallRight (k : Kernel) (call : Machine → Exec (Machine × Int)) (made : Machine → List InodeCall) :
    Prop where
  result : ResultPassed k call made
  offset : OffsetFixed k made

section Passed

variable {call : Machine → Exec (Machine × Int)} {made : Machine → List InodeCall} {buf n : Nat}

/-- A call that has one result passes it on iff the method, with any offset, returns just that. -/
theorem resultPassed_iff (ret : Nat) (method : Nat → Exec (Kernel × Nat)) (hret : ret < 2147483648)
    (hn : n < 4294967296)
    (hle : ∀ offset k' count, method offset = .ok (k', count) → count ≤ n) {out : Cpu → Cpu}
    (hcall : ∀ cpu, call ⟨cpu, k⟩ = do
      let (kernel, _) ← method cpu.esi.toNat
      return (⟨out cpu, kernel⟩, (ret : Int)))
    (hmade : ∀ cpu, made ⟨cpu, k⟩ =
      [⟨inode, buf, n, cpu.esi.toNat, (method cpu.esi.toNat).toOption.map (·.2)⟩]) :
    ResultPassed k call made ↔
      ∀ (offset : UInt32) k' count, method offset.toNat = .ok (k', count) → count = ret := by
  have hcount : ∀ offset k' count, method offset = .ok (k', count) → (toInt32 count = ret ↔ count = ret) := by
    intro offset k' count hmethod
    have := hle offset k' count hmethod
    unfold toInt32
    split <;> omega
  constructor
  · intro hpassed offset k' count hmethod
    let cpu : Cpu := { (default : Cpu) with esi := offset }
    have hrun : call ⟨cpu, k⟩ = .ok (⟨out cpu, k'⟩, (ret : Int)) := by
      rw [hcall]
      exact bind_eq_ok.mpr ⟨_, hmethod, rfl⟩
    have hres := hpassed cpu _ _ hrun _ (by rw [hmade]; exact List.mem_singleton_self _)
    rw [show method cpu.esi.toNat = .ok (k', count) from hmethod] at hres
    exact (hcount _ k' count hmethod).mp (Option.some.inj hres)
  · intro hright cpu m res hrun call hmem
    rw [hcall] at hrun
    obtain ⟨⟨k', count⟩, hmethod, hret⟩ := bind_eq_ok.mp hrun
    obtain ⟨-, rfl⟩ := Prod.mk.inj (Except.ok.inj hret)
    rw [hmade, List.mem_singleton] at hmem
    rw [hmem, hmethod]
    exact congrArg some ((hcount _ k' count hmethod).mpr (hright cpu.esi k' count hmethod))

/-- A call that takes the offset from `esi` does not fix it. -/
theorem not_offsetFixed {result : Cpu → Option Nat}
    (hmade : ∀ cpu, made ⟨cpu, k⟩ = [⟨inode, buf, n, cpu.esi.toNat, result cpu⟩]) : ¬ OffsetFixed k made := by
  intro hfixed
  have heq := hfixed { (default : Cpu) with esi := 0 } { (default : Cpu) with esi := 1 }
  rw [hmade, hmade] at heq
  cases heq

end Passed

/-- **What the library passes on**: for every open descriptor, buffer and length, neither call is right. The
    offset is never fixed, and the result is passed on only where the method, whenever it returns, happens to
    return the number of the system call. -/
theorem not_callRight (hopen : k.fileInode fildes = .ok inode) (l : Linked) (left : Scratch)
    (buf size : UInt32) :
    (¬ CallRight k (fun m => m.read l left fildes buf size) fun m => m.readCalls l left fildes buf size) ∧
      (¬ CallRight k (fun m => m.write l left fildes buf size) fun m => m.writeCalls l left fildes buf size) ∧
      ((ResultPassed k (fun m => m.read l left fildes buf size) fun m => m.readCalls l left fildes buf size) ↔
        ∀ (offset : UInt32) k' count,
          k.inodeRead inode buf.toNat size.toNat offset.toNat = .ok (k', count) → count = 2) ∧
      ((ResultPassed k (fun m => m.write l left fildes buf size) fun m => m.writeCalls l left fildes buf size) ↔
        ∀ k' count, k.inodeWrite inode buf.toNat size.toNat = .ok (k', count) → count = 3) := by
  have hsize := size.toNat_lt
  refine ⟨fun h => not_offsetFixed (readCalls_eq hopen) h.offset,
    fun h => not_offsetFixed (writeCalls_eq hopen) h.offset, ?_, ?_⟩
  · exact resultPassed_iff 2 (k.inodeRead inode buf.toNat size.toNat) (by decide) hsize
      (fun _ _ _ h => inodeRead_le h) (read_eq hopen) (readCalls_eq hopen)
  · have hiff : (ResultPassed k (fun m => m.write l left fildes buf size)
        fun m => m.writeCalls l left fildes buf size) ↔ ∀ (_ : UInt32) k' count,
          k.inodeWrite inode buf.toNat size.toNat = .ok (k', count) → count = 3 :=
      resultPassed_iff 3 (fun _ => k.inodeWrite inode buf.toNat size.toNat) (by decide) hsize
        (fun _ _ _ h => inodeWrite_le h) (write_eq hopen) (writeCalls_eq hopen)
    exact hiff.trans ⟨fun h => h 0, fun h _ => h⟩

/-- After boot the console is open. -/
theorem boot_open : ∃ (k : Kernel) (inode : Nat), k.Reachable ∧ k.fileInode 0 = .ok inode ∧
    (k.files.fs.inodes inode).kind = .other := by
  obtain ⟨k, _, h⟩ := boot_reachable
  obtain ⟨f, inode, hf, hinode, hkind⟩ := h.console
  have hopen : k.fileInode (toInt32 (0 : UInt32).toNat) = .ok inode :=
    Kernel.fileInode_iff.mpr ⟨by decide, f, hf, hinode⟩
  exact ⟨k, inode, h.reachable, hopen, hkind⟩

/-- Writing three bytes to it. -/
theorem not_callRight_console : ∃ (k : Kernel) (inode : Nat), k.Reachable ∧ k.fileInode 0 = .ok inode ∧
    ¬ CallRight k (fun m => m.write ⟨0x100000, 0x100100, 0x100120⟩ ⟨0, 0, 0, 2, 0⟩ 0 0x8000 3)
      fun m => m.writeCalls ⟨0x100000, 0x100100, 0x100120⟩ ⟨0, 0, 0, 2, 0⟩ 0 0x8000 3 := by
  obtain ⟨k, inode, hreach, hopen, -⟩ := boot_open
  exact ⟨k, inode, hreach, hopen, (not_callRight hopen _ _ _ _).2.1⟩

/-- **Reading one byte** from the console: the method returns 0, the program gets 2, and the offset is whatever
    is in `esi`. -/
theorem read_console : ∃ (k : Kernel) (inode : Nat), k.Reachable ∧ k.fileInode 0 = .ok inode ∧
    (∀ cpu : Cpu,
      (∃ m, Machine.read ⟨0x100000, 0x100100, 0x100120⟩ ⟨0, 0, 0, 2, 0⟩ ⟨cpu, k⟩ 0 0x8000 1 = .ok (m, 2)) ∧
      Machine.readCalls ⟨0x100000, 0x100100, 0x100120⟩ ⟨0, 0, 0, 2, 0⟩ ⟨cpu, k⟩ 0 0x8000 1 =
        [⟨inode, 0x8000, 1, cpu.esi.toNat, some 0⟩]) ∧
    ¬ CallRight k (fun m => m.read ⟨0x100000, 0x100100, 0x100120⟩ ⟨0, 0, 0, 2, 0⟩ 0 0x8000 1)
      fun m => m.readCalls ⟨0x100000, 0x100100, 0x100120⟩ ⟨0, 0, 0, 2, 0⟩ 0 0x8000 1 := by
  obtain ⟨k, inode, hreach, hopen, hkind⟩ := boot_open
  have hmethod : ∀ offset, k.inodeRead inode 0x8000 1 offset = .ok (k, 0) := by
    intro offset
    unfold Kernel.inodeRead
    rw [hkind]
  refine ⟨k, inode, hreach, hopen, fun cpu => ⟨?_, ?_⟩, fun h => not_offsetFixed (readCalls_eq hopen) h.offset⟩
  · exact ⟨_, (read_eq hopen cpu).trans (bind_eq_ok.mpr ⟨_, hmethod _, rfl⟩)⟩
  · refine (readCalls_eq hopen cpu).trans ?_
    rw [show k.inodeRead inode (0x8000 : UInt32).toNat (1 : UInt32).toNat cpu.esi.toNat = .ok (k, 0) from hmethod _]
    rfl

end WeirdOs
