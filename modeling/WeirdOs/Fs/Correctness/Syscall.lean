import WeirdOs.Fs.Correctness.Runs
import WeirdOs.Fs.Syscall
import Mathlib.Data.List.Infix

/-!
# `Fs.Correctness.Syscall` — which descriptors `syscall_open` returns

The `k`-th call of `syscall_open` returns `k`, whatever else has been opened or closed. That number is new
iff it is in the table, and nobody has opened it with `syscall_open_at` without closing it since
(`syscall_open_iff`). The console was opened like that, as number 0.
-/

namespace WeirdOs

open Lib

variable {fs : Fs} {vfs : Vfs} {s t : FdState} {op : FdOp} {ops pre : List FdOp} {path : List UInt8}
  {oflag : Int}

/-! ## Counting calls -/

/-- The calls of `syscall_open`. -/
def opens : List FdOp → Nat
  | []              => 0
  | .open _ _ :: ops => opens ops + 1
  | _ :: ops        => opens ops

/-- Whether `d` is held: of the calls of `syscall_open_at` and `syscall_close` with that number, the last
    one opens it. Without any, it is held if it was before. -/
def held (d : Int) : Bool → List FdOp → Bool
  | b, []                     => b
  | b, .openAt n _ _ :: ops => held d (if n = d then true else b) ops
  | b, .open _ _ :: ops       => held d b ops
  | b, .close n :: ops        => held d (if n = d then false else b) ops

/-- The numbers given to `syscall_open_at` are in the table. -/
def InTable (ops : List FdOp) : Prop :=
  ∀ (n : Int) path oflag, .openAt n path oflag ∈ ops → 0 ≤ n ∧ n < FD_MAX

theorem inTable_cons : InTable (op :: ops) ↔ InTable [op] ∧ InTable ops := by
  constructor
  · intro h
    refine ⟨fun n path oflag hmem => h n path oflag ?_, fun n path oflag hmem => h n path oflag ?_⟩
    · rw [List.mem_singleton.mp hmem]
      exact List.mem_cons_self
    · exact List.mem_cons_of_mem _ hmem
  · rintro ⟨hop, hops⟩ n path oflag hmem
    rcases List.mem_cons.mp hmem with rfl | hmem
    · exact hop n path oflag List.mem_cons_self
    · exact hops n path oflag hmem

theorem opens_cons : opens (op :: ops) = opens [op] + opens ops := by
  cases op <;> simp [opens, Nat.add_comm]

theorem held_cons {d : Int} {b : Bool} : held d b (op :: ops) = held d (held d b [op]) ops := by
  cases op <;> rfl

/-! ## What a call does -/

/-- **What `syscall_open` does**, when it returns: the place is `last_desc`. -/
theorem syscallOpen_eq_ok {table table' : Fdtable} {fd : Int} (hlast : table.lastDesc ≤ FD_MAX) :
    syscallOpen fs vfs table path oflag = .ok (table', fd) ↔
      table.lastDesc < FD_MAX ∧ ∃ dir, resolvePath fs vfs path = .ok (some dir) ∧
        table' = ⟨Function.update table.data table.lastDesc (some ⟨1, (fs.dirents dir).inode, oflag, 0⟩),
          table.lastDesc + 1⟩ ∧ fd = table.lastDesc := by
  unfold FD_MAX at hlast ⊢
  unfold syscallOpen
  rw [syscallOpenAt_eq_ok, toInt32_of_lt (by omega), add32_of_lt (by omega)]
  constructor
  · rintro ⟨place, dir, hplace, hlt, hdir, rfl, rfl⟩
    obtain rfl : table.lastDesc = place := by omega
    exact ⟨hlt, dir, hdir, rfl, rfl⟩
  · rintro ⟨hlt, dir, hdir, rfl, rfl⟩
    exact ⟨_, dir, rfl, hlt, hdir, rfl, rfl⟩

/-- It returns iff there is room in the table and the path resolves. -/
theorem syscallOpen_iff {table : Fdtable} (hlast : table.lastDesc ≤ FD_MAX) :
    (∃ table' fd, syscallOpen fs vfs table path oflag = .ok (table', fd)) ↔
      table.lastDesc < FD_MAX ∧ ∃ dir, resolvePath fs vfs path = .ok (some dir) := by
  constructor
  · rintro ⟨table', fd, hopen⟩
    obtain ⟨hlt, dir, hres, _, _⟩ := (syscallOpen_eq_ok hlast).mp hopen
    exact ⟨hlt, dir, hres⟩
  · rintro ⟨hlt, dir, hres⟩
    exact ⟨_, _, (syscallOpen_eq_ok hlast).mpr ⟨hlt, dir, hres, rfl, rfl⟩⟩

theorem update_eq_ite {f : Int → Bool} {n d : Int} {b : Bool} :
    Function.update f n b d = if n = d then b else f d := by
  rw [Function.update_apply]
  exact if_congr eq_comm rfl rfl

/-- **A call that returns** had a number in the table; it counts, and it is held. -/
theorem FdState.step_effect (hlast : s.table.lastDesc ≤ FD_MAX) (h : s.step fs vfs op = .ok t) :
    t.table.lastDesc = s.table.lastDesc + opens [op] ∧ t.table.lastDesc ≤ FD_MAX ∧ InTable [op] ∧
      ∀ d : Int, t.table.lastDesc ≤ d → t.inUse d = held d (s.inUse d) [op] := by
  cases op with
  | openAt n path oflag =>
      obtain ⟨⟨table, fd⟩, hopen, h⟩ := bind_eq_ok.mp h
      cases h
      obtain ⟨place, dir, rfl, hlt, _, rfl, rfl⟩ := syscallOpenAt_eq_ok.mp hopen
      refine ⟨rfl, hlast, ?_, fun d _ => update_eq_ite⟩
      intro n path oflag hmem
      cases List.mem_singleton.mp hmem
      omega
  | «open» path oflag =>
      obtain ⟨⟨table, fd⟩, hopen, h⟩ := bind_eq_ok.mp h
      cases h
      obtain ⟨hlt, dir, _, rfl, rfl⟩ := (syscallOpen_eq_ok hlast).mp hopen
      refine ⟨rfl, hlt, ?_, fun d hd => Function.update_of_ne ?_ _ _⟩
      · intro n path oflag hmem
        cases List.mem_singleton.mp hmem
      · dsimp only at hd
        omega
  | close n =>
      cases h
      refine ⟨rfl, hlast, ?_, fun d _ => update_eq_ite⟩
      intro n path oflag hmem
      cases List.mem_singleton.mp hmem

/-- A call whose number is in the table returns. -/
theorem FdState.step_ok (hres : op.Resolves fs vfs) (hlast : s.table.lastDesc + opens [op] ≤ FD_MAX)
    (hin : InTable [op]) : ∃ t, s.step fs vfs op = .ok t := by
  cases op with
  | openAt n path oflag =>
      obtain ⟨dir, hdir⟩ := hres
      obtain ⟨h0, hlt⟩ := hin n path oflag List.mem_cons_self
      refine ⟨_, bind_eq_ok.mpr ⟨_, syscallOpenAt_eq_ok.mpr ⟨n.toNat, dir, ?_, ?_, hdir, rfl, rfl⟩, rfl⟩⟩
      · exact (Int.toNat_of_nonneg h0).symm
      · omega
  | «open» path oflag =>
      obtain ⟨dir, hdir⟩ := hres
      have hlt : s.table.lastDesc < FD_MAX := hlast
      obtain ⟨table, fd, hopen⟩ := (syscallOpen_iff (Nat.le_of_lt hlt)).mpr ⟨hlt, dir, hdir⟩
      exact ⟨_, bind_eq_ok.mpr ⟨_, hopen, rfl⟩⟩
  | close n => exact ⟨_, rfl⟩

/-! ## Runs -/

/-- **Calls that return**: what has been counted, and what is held of the numbers to come. -/
theorem FdState.run_effect (hlast : s.table.lastDesc ≤ FD_MAX)
    (h : Lib.run (FdState.step fs vfs) s ops = .ok t) :
    t.table.lastDesc = s.table.lastDesc + opens ops ∧ t.table.lastDesc ≤ FD_MAX ∧ InTable ops ∧
      ∀ d : Int, t.table.lastDesc ≤ d → t.inUse d = held d (s.inUse d) ops := by
  induction ops generalizing s with
  | nil =>
      cases h
      exact ⟨rfl, hlast, fun _ _ _ hmem => absurd hmem List.not_mem_nil, fun _ _ => rfl⟩
  | cons op ops ih =>
      obtain ⟨u, hstep, hrun⟩ := run_cons.mp h
      obtain ⟨hcount, hfit, hin, hheld⟩ := FdState.step_effect hlast hstep
      obtain ⟨hcount', hfit', hin', hheld'⟩ := ih hfit hrun
      have hopens : opens (op :: ops) = opens [op] + opens ops := opens_cons
      refine ⟨by omega, hfit', inTable_cons.mpr ⟨hin, hin'⟩, ?_⟩
      intro d hd
      rw [hheld' d hd, hheld d (by omega), ← held_cons]

/-- Calls whose numbers are in the table return. -/
theorem FdState.run_ok (hres : ∀ op ∈ ops, op.Resolves fs vfs)
    (hlast : s.table.lastDesc + opens ops ≤ FD_MAX) (hin : InTable ops) :
    ∃ t, Lib.run (FdState.step fs vfs) s ops = .ok t := by
  induction ops generalizing s with
  | nil => exact ⟨s, rfl⟩
  | cons op ops ih =>
      rw [opens_cons] at hlast
      rw [inTable_cons] at hin
      obtain ⟨u, hstep⟩ := FdState.step_ok (s := s) (hres op List.mem_cons_self) (by omega) hin.1
      obtain ⟨hcount, _⟩ := FdState.step_effect (by omega) hstep
      obtain ⟨t, hrun⟩ := ih (s := u) (fun op hmem => hres op (List.mem_cons_of_mem _ hmem)) (by omega) hin.2
      exact ⟨t, run_cons.mpr ⟨u, hstep, hrun⟩⟩

/-! ## The descriptor that is returned -/

/-- **A call of `syscall_open`** after the calls `pre` returns a descriptor in the table that is not in use,
    and leaves all other files as they are. -/
def OpensFresh (fs : Fs) (vfs : Vfs) (pre : List FdOp) (path : List UInt8) (oflag : Int) : Prop :=
  ∃ s table fd, FdState.run fs vfs pre = .ok s ∧ syscallOpen fs vfs s.table path oflag = .ok (table, fd) ∧
    0 ≤ fd ∧ fd < FD_MAX ∧ s.inUse fd = false ∧
    ∀ d : Nat, (d : Int) ≠ fd → table.data d = s.table.data d

/-- There is room for one more, the number that comes next is not held, and all numbers given explicitly
    were in the table. -/
def NextFree (pre : List FdOp) : Prop :=
  opens pre < FD_MAX ∧ held (opens pre) false (openConsole :: pre) = false ∧ InTable pre

theorem opensFresh_iff (hres : ∀ op ∈ openConsole :: pre, op.Resolves fs vfs)
    (hpath : ∃ dir, resolvePath fs vfs path = .ok (some dir)) :
    OpensFresh fs vfs pre path oflag ↔ NextFree pre := by
  have hconsole : opens (openConsole :: pre) = opens pre := rfl
  have hstart : FdState.new.table.lastDesc = 0 := rfl
  constructor
  · rintro ⟨s, table, fd, hrun, hopen, h0, hlt, huse, _⟩
    obtain ⟨hcount, hfit, hin, hheld⟩ := FdState.run_effect (Nat.zero_le _) hrun
    rw [hstart, hconsole, Nat.zero_add] at hcount
    obtain ⟨hroom, dir, _, _, rfl⟩ := (syscallOpen_eq_ok hfit).mp hopen
    rw [hheld _ (Int.le_refl _), hcount] at huse
    exact ⟨hcount ▸ hroom, huse, (inTable_cons.mp hin).2⟩
  · rintro ⟨hroom, hfree, hin⟩
    have hin' : InTable (openConsole :: pre) := by
      refine inTable_cons.mpr ⟨?_, hin⟩
      intro n path oflag hmem
      cases List.mem_singleton.mp hmem
      decide
    obtain ⟨s, hrun⟩ := FdState.run_ok (s := .new) hres (by omega) hin'
    obtain ⟨hcount, hfit, _, hheld⟩ := FdState.run_effect (Nat.zero_le _) hrun
    rw [hstart, hconsole, Nat.zero_add] at hcount
    obtain ⟨dir, hdir⟩ := hpath
    have hlt : s.table.lastDesc < FD_MAX := by omega
    refine ⟨s, _, _, hrun, (syscallOpen_eq_ok hfit).mpr ⟨hlt, dir, hdir, rfl, rfl⟩, by omega, by omega, ?_,
      fun d hd => Function.update_of_ne (by omega) _ _⟩
    rw [hheld _ (Int.le_refl _), hcount]
    exact hfree

/-- **Every call of `syscall_open` returns a fresh descriptor** iff before each of them there is room for
    one more, the number that comes next is not held, and no number outside the table was given. -/
theorem syscall_open_iff (hres : ∀ op ∈ openConsole :: ops, op.Resolves fs vfs) :
    (∀ pre path oflag, pre ++ [.open path oflag] <+: ops → OpensFresh fs vfs pre path oflag) ↔
      ∀ pre path oflag, pre ++ [.open path oflag] <+: ops → NextFree pre := by
  refine forall_congr' fun pre => forall_congr' fun path => forall_congr' fun oflag =>
    imp_congr_right fun hpre => opensFresh_iff ?_ ?_
  · intro op hmem
    rcases List.mem_cons.mp hmem with rfl | hmem
    · exact hres _ List.mem_cons_self
    · exact hres op (List.mem_cons_of_mem _ (hpre.subset (List.mem_append_left _ hmem)))
  · exact hres (.open path oflag) (List.mem_cons_of_mem _ (hpre.subset (by simp)))

/-- After boot the console can be opened. -/
theorem boot_console : ∃ s, FsState.run .empty (bootOps devImage) = .ok s ∧
    ∃ dir, resolvePath s.fs s.vfs consolePath = .ok (some dir) := ⟨_, rfl, _, rfl⟩

/-- With the console closed, number 0 is free again. -/
theorem syscall_open_iff_closed : ∃ s, FsState.run .empty (bootOps devImage) = .ok s ∧
    ∀ pre path oflag, pre ++ [.open path oflag] <+: [.close 0, .open consolePath O_WRONLY] →
      OpensFresh s.fs s.vfs pre path oflag := by
  obtain ⟨s, hboot, hconsole⟩ := boot_console
  refine ⟨s, hboot, (syscall_open_iff ?_).mpr ?_⟩
  · intro op hmem
    rcases List.mem_cons.mp hmem with rfl | hmem
    · exact hconsole
    · rcases List.mem_cons.mp hmem with rfl | hmem
      · trivial
      · rw [List.mem_singleton.mp hmem]
        exact hconsole
  · intro pre path oflag hpre
    obtain rfl : pre = [.close 0] := by
      match pre with
      | []          => simp at hpre
      | [a]         => simpa using (List.cons_prefix_cons.mp hpre).1
      | a :: b :: l =>
          have hlength := hpre.length_le
          simp at hlength
    refine ⟨by decide, by decide, ?_⟩
    intro n path oflag hmem
    cases List.mem_singleton.mp hmem

/-- **The first call of `syscall_open` after boot** returns 0, the descriptor of the console. -/
theorem syscall_open_console : ∃ s, FsState.run .empty (bootOps devImage) = .ok s ∧
    (∀ op ∈ [openConsole, .open consolePath O_WRONLY], op.Resolves s.fs s.vfs) ∧
    ¬ OpensFresh s.fs s.vfs [] consolePath O_WRONLY := by
  obtain ⟨s, hboot, hconsole⟩ := boot_console
  have hres : ∀ op ∈ [openConsole, .open consolePath O_WRONLY], op.Resolves s.fs s.vfs := by
    simpa [openConsole] using ⟨hconsole, hconsole⟩
  refine ⟨s, hboot, hres, ?_⟩
  intro hfresh
  have hfree := ((opensFresh_iff (fun op hmem => hres op (List.mem_of_mem_take (i := 1) hmem)) hconsole).mp
    hfresh).2.1
  cases hfree

end WeirdOs
