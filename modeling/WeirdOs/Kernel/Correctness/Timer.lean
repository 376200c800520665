import WeirdOs.Kernel.Correctness.Irq
import WeirdOs.Kernel.Timer

/-!
# `Kernel.Correctness.Timer` — `sleep` waits for its ticks, and no longer than it must

The counter of the ticks is the number of times that line 0 has been served, in 32 bits (`timerTicks_after`).
Whatever else happens, `Asleep` holds of a program in `sleep`; its last field is the point: the program is not
past the loop before it has seen the ticks it asked for. Where it has, the loop ends within one more tick,
and that one is for the case that the last tick came between the comparison and `hlt`.

Both are about differences of counters, so they hold when the counter overflows in between.
-/

namespace WeirdOs

open Lib

variable {σ : Type} {l : IrqLinked} {p : Cpu} {c : Computer (Ticking σ)} {s s' : Sleeper σ} {ms : UInt32}
  {irqRoutines : Fin 16 → Option (Ticking σ → Ticking σ)}

/-! ## The timer -/

/-- The low byte of a number. -/
theorem toNat_ofInt (n : Nat) : (UInt8.ofInt n).toNat = n % 256 := by
  unfold UInt8.ofInt
  rw [UInt8.toNat_ofNat']
  omega

/-- **`timer_set_phase`** sets the reload value to the quotient, when that has 16 bits. -/
theorem timerSetPhase_eq (pit : Pit) {hz : Nat} (hhz : 19 ≤ hz) :
    ∃ latch, timerSetPhase pit hz = .ok ⟨3, .low, latch, 1193180 / hz⟩ := by
  have hpos : (hz : Int) ≠ 0 := by omega
  have hquot : (1193180 : Int).tdiv hz = ((1193180 / hz : Nat) : Int) := rfl
  have hsmall : 1193180 / hz < 65536 := (Nat.div_lt_iff_lt_mul (by omega)).mpr (by omega)
  unfold timerSetPhase
  rw [if_neg hpos, hquot]
  generalize 1193180 / hz = divisor at hsmall
  have hreload : (UInt8.ofInt ((divisor % 256 : Nat) : Int)).toNat +
      256 * (UInt8.ofInt ((divisor / 256 : Nat) : Int)).toNat = divisor := by
    rw [toNat_ofInt, toNat_ofInt]
    omega
  refine ⟨UInt8.ofInt ((divisor % 256 : Nat) : Int), ?_⟩
  refine Eq.trans ?_ (congrArg (fun n => Except.ok (Pit.mk 3 .low _ n)) hreload)
  rfl

/-- The drivers of the kernel: the routine of line 0 counts, and no other touches the counter. -/
structure Counting (irqRoutines : Fin 16 → Option (Ticking σ → Ticking σ)) : Prop where
  timer : irqRoutines 0 = some timerHandler
  others : ∀ line f, line ≠ 0 → irqRoutines line = some f → ∀ d, (f d).timerTicks = d.timerTicks

/-- **The counter** counts how often line 0 was served. -/
theorem timerTicks_after (h : Counting irqRoutines) (d : Ticking σ) (served : List (Fin 16)) :
    (driversAfter irqRoutines d served).timerTicks = d.timerTicks + UInt32.ofNat (served.count 0) := by
  induction served generalizing d with
  | nil => exact (UInt32.add_zero _).symm
  | cons line served ih =>
      refine (ih _).trans ?_
      dsimp only
      by_cases hline : line = 0
      · subst hline
        rw [h.timer, List.count_cons_self, UInt32.ofNat_add, UInt32.add_comm _ (UInt32.ofNat 1),
          ← UInt32.add_assoc]
        rfl
      · rw [List.count_cons_of_ne hline]
        cases hf : irqRoutines line with
        | none => rfl
        | some f => exact congrArg (· + _) (h.others line f hline hf d)

/-! ## Asleep -/

/-- **A program in `sleep`**, since the machine was `c`. -/
structure Asleep (l : IrqLinked) (p : Cpu) (c : Computer (Ticking σ)) (ms : UInt32) (s : Sleeper σ) : Prop where
  timerStart : s.timerStart = c.drivers.timerTicks
  asked : s.ms = ms
  along : ∃ a, a.pending 2 = false ∧ Along l p a s.computer
  continues : Continues c s.computer
  done : s.pc = .done → ms.toNat ≤ s.computer.served.count 0 - c.served.count 0

/-- The ticks since. -/
theorem Continues.ticks {c' : Computer (Ticking σ)} (h : Continues c c') (hcounting : Counting c.irqRoutines) :
    c'.drivers.timerTicks = c.drivers.timerTicks + UInt32.ofNat (c'.served.count 0 - c.served.count 0) := by
  obtain ⟨more, hserved, hdrivers⟩ := h.served
  rw [hdrivers, timerTicks_after hcounting, hserved, List.count_append, Nat.add_sub_cancel_left]

/-- What has been served is not forgotten. -/
theorem Continues.count_le {c' : Computer (Ticking σ)} (h : Continues c c') :
    c.served.count 0 ≤ c'.served.count 0 := by
  obtain ⟨more, hserved, -⟩ := h.served
  rw [hserved, List.count_append]
  exact Nat.le_add_right _ _

/-- An event of the machine is one, and does not move `sleep` to its end. -/
theorem step_machine {e : ComputerEvent} (h : s.step l (.machine e) = .ok s') :
    s.computer.step l e = .ok s'.computer ∧ e.programStep = none ∧ s'.timerStart = s.timerStart ∧
      s'.ms = s.ms ∧ (s'.pc = .done → s.pc = .done) := by
  cases e with
  | program f => cases h
  | accept =>
      obtain ⟨c', hc', hret⟩ := bind_eq_ok.mp h
      cases hret
      refine ⟨hc', rfl, rfl, rfl, ?_⟩
      dsimp only
      split
      · exact fun h => by cases h
      · exact id
  | raise line =>
      obtain ⟨c', hc', hret⟩ := bind_eq_ok.mp h
      cases hret
      exact ⟨hc', rfl, rfl, rfl, id⟩
  | handler =>
      obtain ⟨c', hc', hret⟩ := bind_eq_ok.mp h
      cases hret
      exact ⟨hc', rfl, rfl, rfl, id⟩
  | leave left =>
      obtain ⟨c', hc', hret⟩ := bind_eq_ok.mp h
      cases hret
      exact ⟨hc', rfl, rfl, rfl, id⟩

/-- The comparison, in terms of what was served. -/
theorem Asleep.elapsed (h : Asleep l p c ms s) (hcounting : Counting c.irqRoutines) :
    s.computer.drivers.timerTicks - s.timerStart =
      UInt32.ofNat (s.computer.served.count 0 - c.served.count 0) := by
  rw [h.timerStart, h.continues.ticks hcounting, UInt32.add_comm, UInt32.add_sub_cancel]

/-- **One event.** -/
theorem Asleep.step {e : SleepEvent} (h : Asleep l p c ms s) (hcounting : Counting c.irqRoutines)
    (hgates : GatesSet l c.idt) (hstep : s.step l e = .ok s') : Asleep l p c ms s' := by
  obtain ⟨a, h2, halong⟩ := h.along
  cases e with
  | machine e =>
      obtain ⟨hcomputer, hprogram, hstart, hms, hdone⟩ := step_machine hstep
      have hgates' : GatesSet l s.computer.idt := h.continues.idt ▸ hgates
      obtain ⟨a', -, h2', halong', hcontinues⟩ := halong.step hgates' h2 hcomputer
      rw [hprogram] at halong'
      refine ⟨hstart.trans h.timerStart, hms.trans h.asked, ⟨a', h2', halong'⟩, h.continues.trans hcontinues, ?_⟩
      intro hpc
      have hle := hcontinues.count_le
      have hwaited := h.done (hdone hpc)
      omega
  | sleep =>
      have helapsed := h.elapsed hcounting
      change s.sleep = .ok s' at hstep
      unfold Sleeper.sleep at hstep
      split at hstep
      · cases hstep
      · split at hstep
        · -- the comparison
          cases hstep
          refine ⟨h.timerStart, h.asked, ⟨a, h2, halong⟩, h.continues, ?_⟩
          dsimp only
          rw [helapsed, h.asked]
          split
          · exact fun h => by cases h
          · next hge =>
            intro _
            have hle := UInt32.le_iff_toNat_le.mp (UInt32.not_lt.mp hge)
            rw [UInt32.toNat_ofNat'] at hle
            exact hle.trans (Nat.mod_le _ _)
        · cases hstep
          exact ⟨h.timerStart, h.asked, ⟨a, h2, halong⟩, h.continues, fun h => by cases h⟩
        · cases hstep
        · cases hstep

/-- **A run.** -/
theorem Asleep.run {es : List SleepEvent} (h : Asleep l p c ms s) (hcounting : Counting c.irqRoutines)
    (hgates : GatesSet l c.idt) (hrun : Lib.run (Sleeper.step l) s es = .ok s') : Asleep l p c ms s' :=
  run_invariant (Asleep l p c ms) (fun _ _ _ ht hstep => ht.step hcounting hgates hstep) h hrun

/-! ## Waking up -/

/-- Where an event of the machine leaves `sleep`. -/
def SleepPc.after (pc : SleepPc) : ComputerEvent → SleepPc
  | .accept => if pc = .halted then .check else pc
  | _       => pc

/-- The machine runs under `sleep` as it does by itself. -/
theorem run_machine {es : List ComputerEvent} {c' : Computer (Ticking σ)}
    (hprogram : ∀ e ∈ es, e.programStep = none) (hrun : Lib.run (Computer.step l) s.computer es = .ok c') :
    Lib.run (Sleeper.step l) s (es.map .machine) =
      .ok { s with computer := c', pc := es.foldl SleepPc.after s.pc } := by
  induction es generalizing s with
  | nil =>
      cases hrun
      rfl
  | cons e es ih =>
      obtain ⟨he, hprogram'⟩ := List.forall_mem_cons.mp hprogram
      obtain ⟨c₁, hc₁, hrest⟩ := run_cons.mp hrun
      have hstep : s.step l (.machine e) = .ok { s with computer := c₁, pc := s.pc.after e } := by
        cases e with
        | program f => cases he
        | accept => exact bind_eq_ok.mpr ⟨c₁, hc₁, rfl⟩
        | raise line => exact bind_eq_ok.mpr ⟨c₁, hc₁, rfl⟩
        | handler => exact bind_eq_ok.mpr ⟨c₁, hc₁, rfl⟩
        | leave left => exact bind_eq_ok.mpr ⟨c₁, hc₁, rfl⟩
      exact run_cons.mpr ⟨_, hstep, ih (s := { s with computer := c₁, pc := s.pc.after e }) hprogram' hrest⟩

/-- One tick: line 0 is raised, and served. -/
def tick (left : Scratch) : List ComputerEvent := .raise timerLine :: serveOne left

/-- The rest of `sleep`, with at most one tick. -/
def SleepPc.rest (left : Scratch) : SleepPc → List SleepEvent
  | .check  => [.sleep]
  | .hlt    => .sleep :: ((tick left).map .machine ++ [.sleep])
  | .halted => (tick left).map .machine ++ [.sleep]
  | .done   => []

/-- The timer comes before all other lines. -/
theorem find_timer (pending : Fin 16 → Bool) : lineOrder.find? (Function.update pending 0 true) = some 0 := by
  have horder : lineOrder = 0 :: lineOrder.tail := by decide
  rw [horder, List.find?_cons_of_pos (Function.update_self ..)]

/-- **One tick is counted**, whatever else waits. -/
theorem tick_eq {a : Arbiter (Fin 16)} (hgates : GatesSet l s.computer.idt) (h2 : a.pending 2 = false)
    (halong : Along l p a s.computer) (hhandler : s.computer.handler = none)
    (henabled : s.computer.interruptsEnabled = true) (left : Scratch) :
    ∃ c', Lib.run (Computer.step l) s.computer (tick left) = .ok c' ∧ c'.handler = none ∧
      c'.served = s.computer.served ++ [0] := by
  cases halong with
  | serving line pc hsome _ _ _ _ =>
      rw [hsome] at hhandler
      cases hhandler
  | program _ hserving hcpu hpics hserved =>
      have h2' : Function.update a.pending 0 true 2 = false := by
        rw [Function.update_of_ne (by decide)]
        exact h2
      let c₁ : Computer (Ticking σ) :=
        { s.computer with pics := .at (Function.update a.pending 0 true) noLine noLine }
      have hraise : s.computer.step l (.raise 0) = .ok c₁ := step_raise (by decide) hpics
      have hserve := serveOne_eq (c := c₁) hgates h2' hhandler rfl henabled (find_timer a.pending) left
      exact ⟨_, run_cons.mpr ⟨c₁, hraise, hserve⟩, hhandler, rfl⟩

/-- **The comparison ends the loop** once the ticks are there. -/
theorem Asleep.check (h : Asleep l p c ms s) (hcounting : Counting c.irqRoutines)
    (hhandler : s.computer.handler = none) (hpc : s.pc = .check)
    (hms : ms.toNat ≤ s.computer.served.count 0 - c.served.count 0)
    (hn : s.computer.served.count 0 - c.served.count 0 < 4294967296) :
    s.step l .sleep = .ok { s with pc := .done } := by
  have hge : ¬ UInt32.ofNat (s.computer.served.count 0 - c.served.count 0) < ms := by
    rw [UInt32.lt_iff_toNat_lt, UInt32.toNat_ofNat']
    omega
  show s.sleep = _
  unfold Sleeper.sleep
  rw [hhandler, hpc, h.elapsed hcounting, h.asked]
  dsimp only
  rw [if_neg hge]
  rfl

/-- **A tick ends it** where the processor is stopped. -/
theorem Asleep.wakes (h : Asleep l p c ms s) (hcounting : Counting c.irqRoutines) (hgates : GatesSet l c.idt)
    (hhandler : s.computer.handler = none) (henabled : s.computer.interruptsEnabled = true)
    (hpc : s.pc = .halted) (hms : ms.toNat ≤ s.computer.served.count 0 - c.served.count 0)
    (hn : s.computer.served.count 0 - c.served.count 0 + 1 < 4294967296) (left : Scratch) :
    ∃ s', Lib.run (Sleeper.step l) s ((tick left).map .machine ++ [.sleep]) = .ok s' ∧ s'.pc = .done := by
  obtain ⟨a, h2, halong⟩ := h.along
  have hgates' : GatesSet l s.computer.idt := h.continues.idt ▸ hgates
  obtain ⟨c', hc', hhandler', hserved⟩ := tick_eq hgates' h2 halong hhandler henabled left
  have hprogram : ∀ e ∈ tick left, e.programStep = none := by simp [tick, serveOne, ComputerEvent.programStep]
  have hticked := run_machine hprogram hc'
  have hwoken : (tick left).foldl SleepPc.after s.pc = .check := by
    rw [hpc]
    rfl
  have hcount : c'.served.count 0 = s.computer.served.count 0 + 1 := by
    rw [hserved, List.count_append]
    rfl
  have hle := h.continues.count_le
  have hasleep := h.run hcounting hgates hticked
  have hdone := hasleep.check hcounting hhandler' hwoken (by rw [hcount]; omega) (by rw [hcount]; omega)
  exact ⟨_, run_append.mpr ⟨_, hticked, run_cons.mpr ⟨_, hdone, rfl⟩⟩, rfl⟩

/-- **The loop ends** within one tick. -/
theorem Asleep.ends (h : Asleep l p c ms s) (hcounting : Counting c.irqRoutines) (hgates : GatesSet l c.idt)
    (hhandler : s.computer.handler = none) (henabled : s.computer.interruptsEnabled = true)
    (hms : ms.toNat ≤ s.computer.served.count 0 - c.served.count 0)
    (hn : s.computer.served.count 0 - c.served.count 0 + 1 < 4294967296) (left : Scratch) :
    ∃ s', Lib.run (Sleeper.step l) s (s.pc.rest left) = .ok s' ∧ s'.pc = .done := by
  cases hpc : s.pc with
  | check => exact ⟨_, run_cons.mpr ⟨_, h.check hcounting hhandler hpc hms (by omega), rfl⟩, rfl⟩
  | hlt =>
      have hstep : s.step l .sleep = .ok { s with pc := .halted } := by
        show s.sleep = _
        unfold Sleeper.sleep
        rw [hhandler, hpc]
        rfl
      obtain ⟨s', hs', hdone⟩ := (h.step hcounting hgates hstep).wakes hcounting hgates hhandler henabled rfl
        hms hn left
      exact ⟨s', run_cons.mpr ⟨_, hstep, hs'⟩, hdone⟩
  | halted => exact h.wakes hcounting hgates hhandler henabled hpc hms hn left
  | done => exact ⟨s, rfl, hpc⟩

/-- The program has the processor when no handler runs. -/
theorem Along.cpu {ρ : Type} {c : Computer ρ} {a : Arbiter (Fin 16)} (h : Along l p a c)
    (hhandler : c.handler = none) : c.cpu = p := by
  cases h with
  | program _ _ hcpu _ _ => exact hcpu
  | serving line pc hsome _ _ _ _ =>
      rw [hsome] at hhandler
      cases hhandler

/-! ## From boot on -/

section Boot

variable {cpu : Cpu} {pics : Pics} {idt : Idt} {drivers : Ticking σ} {pit pit' : Pit} {c₀ c₁ : Computer (Ticking σ)}

/-- **`install_timer`** after boot: the timer ticks a thousand times a second, and line 0 counts. -/
theorem installTimer_boot (hboot : Computer.boot l.toStubs cpu pics idt irqRoutines drivers = .ok c₀)
    (hinstall : installTimer pit c₀ = .ok (pit', c₁)) : pit'.mode = 3 ∧ pit'.reload = 1193 ∧
      c₁ = .booted l cpu idt (Function.update irqRoutines 0 (some timerHandler)) drivers := by
  rw [boot_eq] at hboot
  cases hboot
  obtain ⟨latch, hpit⟩ := timerSetPhase_eq pit (show 19 ≤ 1000 by decide)
  obtain ⟨q, hq, hret⟩ := bind_eq_ok.mp hinstall
  obtain rfl := Except.ok.inj (hpit.symm.trans hq)
  cases hret
  exact ⟨rfl, rfl, rfl⟩

/-- **`sleep` waits for its ticks, and no longer than it must.** Boot, install the timer, and let anything
    happen; then, with interrupts enabled and no routine running, call `sleep` and let interrupts of all
    lines come in any order. The counter has the ticks since the call, modulo `2^32`. `sleep` does not
    return before it has seen as many as it was asked for, whether or not the counter overflows. When they
    are there, and fewer than `2^32 - 1` have gone by, it returns with one more tick at most, the one that
    it takes to get past `hlt`. -/
theorem sleep_waits {es₀ : List ComputerEvent} {es : List SleepEvent}
    (hothers : ∀ line f, line ≠ 0 → irqRoutines line = some f → ∀ d, (f d).timerTicks = d.timerTicks)
    (hboot : Computer.boot l.toStubs cpu pics idt irqRoutines drivers = .ok c₀)
    (hinstall : installTimer pit c₀ = .ok (pit', c₁)) (hbefore : run (Computer.step l) c₁ es₀ = .ok c)
    (hhandler : c.handler = none) (henabled : c.interruptsEnabled = true)
    (hrun : run (Sleeper.step l) (Sleeper.start c ms) es = .ok s) :
    pit'.mode = 3 ∧ pit'.reload = 1193 ∧ c.served.count 0 ≤ s.computer.served.count 0 ∧
      s.computer.drivers.timerTicks =
        c.drivers.timerTicks + UInt32.ofNat (s.computer.served.count 0 - c.served.count 0) ∧
      (s.pc = .done → ms.toNat ≤ s.computer.served.count 0 - c.served.count 0) ∧
      (s.computer.handler = none → ms.toNat ≤ s.computer.served.count 0 - c.served.count 0 →
        s.computer.served.count 0 - c.served.count 0 + 1 < 4294967296 → ∀ left,
          ∃ s', run (Sleeper.step l) s (s.pc.rest left) = .ok s' ∧ s'.pc = .done) := by
  obtain ⟨hmode, hreload, rfl⟩ := installTimer_boot hboot hinstall
  let routines := Function.update irqRoutines 0 (some timerHandler)
  have hbooted : (Computer.boot l.toStubs cpu pics idt routines drivers >>= fun c₁ =>
      run (Computer.step l) c₁ es₀) = .ok c := bind_eq_ok.mpr ⟨_, boot_eq, hbefore⟩
  obtain ⟨a, -, hgates, h2, halong, hroutines, -⟩ := boot_run hbooted
  have hcounting : Counting c.irqRoutines := by
    rw [hroutines]
    refine ⟨Function.update_self .., ?_⟩
    intro line f hline hf
    change Function.update irqRoutines 0 (some timerHandler) line = some f at hf
    rw [Function.update_of_ne hline] at hf
    exact hothers line f hline hf
  have hstart : Asleep l (cpu.runs es₀) c ms (Sleeper.start c ms) :=
    ⟨rfl, rfl, ⟨a, h2, halong⟩, .of_eq rfl rfl rfl rfl, fun h => by cases h⟩
  have h := hstart.run hcounting hgates hrun
  refine ⟨hmode, hreload, h.continues.count_le, h.continues.ticks hcounting, h.done, ?_⟩
  intro hnone hms hn left
  -- the flags are those that the program had when it called
  have hsame : s.computer.cpu = c.cpu := by
    obtain ⟨a', -, halong'⟩ := h.along
    rw [halong.cpu hhandler, halong'.cpu hnone]
  have henabled' : s.computer.interruptsEnabled = true := by
    unfold Computer.interruptsEnabled at henabled ⊢
    rw [hsame]
    exact henabled
  exact h.ends hcounting hgates hnone henabled' hms hn left

/-- A tick between the comparison and `hlt`: one more is needed. -/
theorem sleep_waits_race : ∃ s s' : Sleeper Unit, s.pc = .hlt ∧ s.ms = 1 ∧ s.computer.served.count 0 = 1 ∧
    run (Sleeper.step someLinked) s (SleepPc.hlt.rest ⟨0, 0, 0, 0, 0⟩) = .ok s' ∧ s'.pc = .done := by
  let left : Scratch := ⟨0, 0, 0, 0, 0⟩
  let cpu : Cpu := { (default : Cpu) with eflags := 0x202 }
  let routines : Fin 16 → Option (Ticking Unit → Ticking Unit) :=
    Function.update (fun _ => none) 0 (some timerHandler)
  let c : Computer (Ticking Unit) := .booted someLinked cpu someIdt routines ⟨0, ()⟩
  let s₁ : Sleeper Unit := { Sleeper.start c 1 with pc := .hlt }
  have hgates : GatesSet someLinked c.idt := gatesSet_booted someLinked cpu someIdt routines ⟨0, ()⟩
  have hcheck : (Sleeper.start c 1).step someLinked .sleep = .ok s₁ := by
    show (Sleeper.start c 1).sleep = _
    simp [Sleeper.sleep, Sleeper.start, c, Computer.booted, s₁]
  obtain ⟨c', hc', hhandler, hserved⟩ := tick_eq (s := s₁) (a := .start) hgates rfl
    (.program rfl rfl rfl rfl rfl) rfl (by decide) left
  have hprogram : ∀ e ∈ tick left, e.programStep = none := by simp [tick, serveOne, ComputerEvent.programStep]
  let s : Sleeper Unit := { s₁ with computer := c' }
  have hrun : run (Sleeper.step someLinked) (Sleeper.start c 1) (.sleep :: (tick left).map .machine) = .ok s :=
    run_cons.mpr ⟨s₁, hcheck, run_machine hprogram hc'⟩
  have hcount : c'.served.count 0 = 1 := by
    rw [hserved]
    rfl
  have hboot : Computer.boot someLinked.toStubs cpu somePics someIdt (fun _ => none) (⟨0, ()⟩ : Ticking Unit) =
      .ok (.booted someLinked cpu someIdt (fun _ => none) ⟨0, ()⟩) := boot_eq
  obtain ⟨pit, hinstall⟩ : ∃ pit, installTimer ⟨0, .low, 0, 0⟩ (Computer.booted someLinked cpu someIdt
      (fun _ => none) (⟨0, ()⟩ : Ticking Unit)) = .ok (pit, c) := ⟨_, rfl⟩
  obtain ⟨-, -, -, -, -, hends⟩ := sleep_waits (fun _ _ _ h => by cases h) hboot hinstall
    (run_nil c) rfl (by decide) hrun
  obtain ⟨s', hs', hdone⟩ := hends hhandler (by show 1 ≤ c'.served.count 0 - 0; omega)
    (by show c'.served.count 0 - 0 + 1 < 4294967296; omega) left
  exact ⟨s, s', rfl, rfl, hcount, hs', hdone⟩

end Boot

end WeirdOs
