import WeirdOs.Drivers.Ps2

/-!
# `Drivers.Correctness.Ps2` — what `getc` returns, and where its pointer goes

`KbdInv` holds in every state: the pointer is above the start of the buffer by the number of pending keys.
The sentinel keeps it from going below, and nothing keeps it from going above: it stays inside iff fewer
than 99 keys are pending whenever one is pressed (`keyBuffer_iff`).

Between the sentinel and the pointer lies a stack, so what `getc` returns is in order only as long as all
unread characters are the same one. `Stacked` is what the buffer looks like in runs of that kind.
-/

namespace WeirdOs

open Lib

variable {s t : KbdState} {k : Keyboard} {ev : KbdEvent} {evs : List KbdEvent} {scancode c : UInt8}

/-! ## The handler -/

/-- A key that is not shift is stored. -/
theorem keyboardHandler_press (h : isKeyPress scancode = true) :
    k.keyboardHandler scancode = k.push (kbdus k.shiftDown scancode) := by
  obtain ⟨htop, hshift⟩ : scancode &&& 0x80 = 0 ∧ scancode ≠ 42 := by simpa [isKeyPress] using h
  unfold Keyboard.keyboardHandler
  rw [if_neg (not_not.mpr htop), if_neg hshift]

theorem key_press {t : Typed} (h : isKeyPress scancode = true) :
    t.key scancode =
      { t with
          chars := if kbdus t.shift scancode = 0 then t.chars else t.chars ++ [kbdus t.shift scancode]
          keys := t.keys + 1 } := by
  unfold Typed.key
  rw [if_pos h]

/-- Anything else changes `shift_down` at most. -/
theorem keyboardHandler_other {t : Typed} (h : isKeyPress scancode = false) (hshift : k.shiftDown = t.shift) :
    k.keyboardHandler scancode = .ok { k with shiftDown := (t.key scancode).shift } ∧
    (t.key scancode).chars = t.chars ∧ (t.key scancode).keys = t.keys := by
  have hcases : scancode &&& 0x80 ≠ 0 ∨ scancode = 42 := by
    by_cases htop : scancode &&& 0x80 = 0
    · right
      simpa [isKeyPress, htop] using h
    · exact .inl htop
  unfold Keyboard.keyboardHandler Typed.key
  rw [h]
  rcases hcases with htop | rfl
  · have hne : scancode ≠ 42 := by
      rintro rfl
      exact htop (by decide)
    by_cases hrelease : scancode &&& 0x7f = 42
    · simp [htop, hne, hrelease]
    · simp [htop, hne, hrelease, ← hshift]
  · have htop : (42 : UInt8) &&& 0x80 = 0 := by decide
    simp [htop]

/-! ## The pointer -/

/-- **The invariant of the pointer.** -/
structure KbdInv (s : KbdState) : Prop where
  shift : s.kbd.shiftDown = s.typed.shift
  sentinel : s.kbd.keyBuffer 0 = 0
  place : s.kbd.readPtr + s.kbd.returned.length = s.typed.keys
  inside : s.kbd.readPtr < keyBufferSize
  above : s.kbd.pc.found = true → 0 < s.kbd.readPtr

theorem KbdInv.pending (hs : KbdInv s) : s.pending = s.kbd.readPtr := by
  have hplace := hs.place
  unfold KbdState.pending
  omega

/-- There is room for a pressed key: it makes at most 99 pending ones. -/
def HasRoom (s : KbdState) : KbdEvent → Prop
  | .interrupt scancode      => isKeyPress scancode = true → s.pending < 99
  | .otherInterrupt | .reader => True

/-- What an interrupt wakes up has found nothing yet. -/
theorem GetcPc.found_wake (pc : GetcPc) : pc.wake.found = pc.found := by cases pc <;> rfl

/-- A key that is pressed while there is room. -/
theorem KbdInv.press (hs : KbdInv s) (hroom : s.kbd.readPtr < 99) (hkey : isKeyPress scancode = true) :
    s.step (.interrupt scancode) = .ok
      ⟨{ s.kbd with
          readPtr := s.kbd.readPtr + 1
          keyBuffer := Function.update s.kbd.keyBuffer (s.kbd.readPtr + 1) (kbdus s.typed.shift scancode)
          pc := s.kbd.pc.wake },
        s.typed.key scancode⟩ := by
  have hcheck : checkReadPtr (s.kbd.readPtr + 1) = .ok () := if_pos (by unfold keyBufferSize; omega)
  simp only [KbdState.step, keyboardHandler_press hkey, Keyboard.push, hcheck, ok_bind, pure_eq_ok, hs.shift]

/-- An interrupt that is not a key press. -/
theorem KbdInv.other (hs : KbdInv s) (hkey : isKeyPress scancode = false) :
    s.step (.interrupt scancode) = .ok
      ⟨{ s.kbd with shiftDown := (s.typed.key scancode).shift, pc := s.kbd.pc.wake },
        s.typed.key scancode⟩ := by
  simp only [KbdState.step, (keyboardHandler_other hkey hs.shift).1, ok_bind, pure_eq_ok]

/-- **A step of `getc`** never goes outside the buffer. -/
theorem KbdInv.reader (hs : KbdInv s) :
    s.step .reader = .ok { s with kbd :=
      match s.kbd.pc with
      | .idle        => { s.kbd with pc := .test }
      | .test        => { s.kbd with pc := if s.kbd.keyBuffer s.kbd.readPtr = 0 then .hlt else .load }
      | .hlt         => { s.kbd with pc := .halted }
      | .halted      => s.kbd
      | .load        => { s.kbd with pc := .clear (s.kbd.keyBuffer s.kbd.readPtr) }
      | .clear tmp   => { s.kbd with
          pc := .retreat tmp, keyBuffer := Function.update s.kbd.keyBuffer s.kbd.readPtr 0 }
      | .retreat tmp => { s.kbd with
          pc := .idle, readPtr := s.kbd.readPtr - 1, returned := s.kbd.returned ++ [tmp] } } := by
  have hcheck : checkReadPtr s.kbd.readPtr = .ok () := if_pos hs.inside
  have habove := hs.above
  unfold KbdState.step Keyboard.getc
  cases hpc : s.kbd.pc with
  | idle => rfl
  | hlt => rfl
  | halted => rfl
  | test | load => simp only [hcheck, ok_bind, pure_eq_ok]
  | clear tmp => simp only [hcheck, ok_bind, pure_eq_ok]
  | retreat tmp =>
      have hpos : s.kbd.readPtr ≠ 0 := Nat.ne_of_gt (habove (hpc ▸ rfl))
      simp only [if_neg hpos, ok_bind, pure_eq_ok]

/-- **The events that return** are those for which there is room. -/
theorem KbdInv.step_iff (hs : KbdInv s) : (∃ t, s.step ev = .ok t) ↔ HasRoom s ev := by
  cases ev with
  | reader => exact iff_of_true ⟨_, hs.reader⟩ trivial
  | otherInterrupt => exact iff_of_true ⟨_, rfl⟩ trivial
  | interrupt scancode =>
      by_cases hkey : isKeyPress scancode = true
      · unfold HasRoom
        rw [hs.pending]
        constructor
        · rintro ⟨t, hstep⟩ _
          obtain ⟨kbd, hhandler, _⟩ := bind_eq_ok.mp hstep
          rw [keyboardHandler_press hkey] at hhandler
          obtain ⟨_, hcheck, _⟩ := bind_eq_ok.mp hhandler
          unfold checkReadPtr keyBufferSize at hcheck
          split at hcheck
          · omega
          · cases hcheck
        · intro hroom
          exact ⟨_, hs.press (hroom hkey) hkey⟩
      · have hother := hs.other (Bool.eq_false_iff.mpr hkey)
        exact iff_of_true ⟨_, hother⟩ fun h => absurd h hkey

/-- **Every event keeps the invariant.** -/
theorem KbdInv.step (hs : KbdInv s) (hstep : s.step ev = .ok t) : KbdInv t := by
  have hplace := hs.place
  have hinside := hs.inside
  cases ev with
  | interrupt scancode =>
      by_cases hkey : isKeyPress scancode = true
      · have hroom : s.kbd.readPtr < 99 := hs.pending ▸ hs.step_iff.mp ⟨t, hstep⟩ hkey
        obtain rfl := Except.ok.inj ((hs.press hroom hkey).symm.trans hstep)
        rw [key_press hkey]
        have hkeep : Function.update s.kbd.keyBuffer (s.kbd.readPtr + 1) (kbdus s.typed.shift scancode) 0 =
            s.kbd.keyBuffer 0 := Function.update_of_ne (by omega) _ _
        refine ⟨hs.shift, hkeep.trans hs.sentinel, ?_, ?_, fun _ => Nat.succ_pos _⟩
        · dsimp only
          omega
        · unfold keyBufferSize
          dsimp only
          omega
      · have hkey := Bool.eq_false_iff.mpr hkey
        obtain rfl := Except.ok.inj ((hs.other hkey).symm.trans hstep)
        obtain ⟨_, _, hkeys⟩ := keyboardHandler_other hkey hs.shift
        refine ⟨rfl, hs.sentinel, hplace.trans hkeys.symm, hinside, ?_⟩
        dsimp only
        rw [GetcPc.found_wake]
        exact hs.above
  | otherInterrupt =>
      cases hstep
      refine ⟨hs.shift, hs.sentinel, hplace, hinside, ?_⟩
      dsimp only
      rw [GetcPc.found_wake]
      exact hs.above
  | reader =>
      have habove := hs.above
      obtain rfl := Except.ok.inj (hs.reader.symm.trans hstep)
      cases hpc : s.kbd.pc with
      | idle | hlt => exact ⟨hs.shift, hs.sentinel, hplace, hinside, nofun⟩
      | halted => exact hs
      | test =>
          by_cases hzero : s.kbd.keyBuffer s.kbd.readPtr = 0
          · simp only [if_pos hzero]
            exact ⟨hs.shift, hs.sentinel, hplace, hinside, nofun⟩
          · -- the pointer is not at the sentinel
            have hpos : 0 < s.kbd.readPtr := Nat.pos_of_ne_zero fun h0 => hzero (h0 ▸ hs.sentinel)
            simp only [if_neg hzero]
            exact ⟨hs.shift, hs.sentinel, hplace, hinside, fun _ => hpos⟩
      | load =>
          have hpos : 0 < s.kbd.readPtr := habove (hpc ▸ rfl)
          exact ⟨hs.shift, hs.sentinel, hplace, hinside, fun _ => hpos⟩
      | clear tmp =>
          have hpos : 0 < s.kbd.readPtr := habove (hpc ▸ rfl)
          refine ⟨hs.shift, ?_, hplace, hinside, fun _ => hpos⟩
          exact (Function.update_of_ne (Nat.ne_of_lt hpos) _ _).trans hs.sentinel
      | retreat tmp =>
          have hpos : 0 < s.kbd.readPtr := habove (hpc ▸ rfl)
          refine ⟨hs.shift, hs.sentinel, ?_, ?_, nofun⟩
          · simp only [List.length_append, List.length_singleton]
            omega
          · dsimp only
            omega

/-- **Keys pressed in time.** A key with a character is pressed only while every unread character is that
    same one, and `getc` neither has just cleared one nor is between its comparison and `hlt`. A key without
    a character is pressed only while no character is unread, but for the one that `getc` has just
    cleared. -/
def InTime (s : KbdState) : KbdEvent → Prop
  | .interrupt scancode => isKeyPress scancode = true →
      let c := kbdus s.typed.shift scancode
      if c = 0 then s.unread.length ≤ s.kbd.pc.cleared.toNat
      else (∀ x ∈ s.unread, x = c) ∧ s.kbd.pc.cleared = false ∧ s.kbd.pc ≠ .hlt
  | .otherInterrupt | .reader => True

instance (s : KbdState) : (ev : KbdEvent) → Decidable (InTime s ev)
  | .interrupt scancode => inferInstanceAs (Decidable (isKeyPress scancode = true →
      if kbdus s.typed.shift scancode = 0 then s.unread.length ≤ s.kbd.pc.cleared.toNat
      else (∀ x ∈ s.unread, x = kbdus s.typed.shift scancode) ∧ s.kbd.pc.cleared = false ∧
        s.kbd.pc ≠ .hlt))
  | .otherInterrupt => inferInstanceAs (Decidable True)
  | .reader => inferInstanceAs (Decidable True)

/-- **What the calls of `getc` should do**: they have returned the first of the typed characters, and none
    waits while a character is unread. -/
structure Served (s : KbdState) : Prop where
  order : s.kbd.returned <+: s.typed.chars
  prompt : s.kbd.Waits → s.kbd.returned = s.typed.chars

/-- At the place `p` ends a stack of `n` times `c`, on top of a zero. -/
structure Stacked (keyBuffer : Nat → UInt8) (p n : Nat) (c : UInt8) : Prop where
  height : n ≤ p
  bottom : keyBuffer (p - n) = 0
  cells : ∀ i, i < n → keyBuffer (p - i) = c

variable {b : Nat → UInt8} {p n : Nat}

/-- A stack is not empty iff there is something at its end. -/
theorem Stacked.top (h : Stacked b p n c) (hc : c ≠ 0) : b p = 0 ↔ n = 0 := by
  constructor
  · intro htop
    apply Nat.eq_zero_of_not_pos
    intro hpos
    exact hc ((h.cells 0 hpos).symm.trans htop)
  · rintro rfl
    exact h.bottom

/-- One more on the stack. -/
theorem Stacked.push (h : Stacked b p n c) : Stacked (Function.update b (p + 1) c) (p + 1) (n + 1) c where
  height := Nat.succ_le_succ h.height
  bottom := by
    have hheight := h.height
    rw [Nat.add_sub_add_right, Function.update_of_ne (by omega)]
    exact h.bottom
  cells i hi := by
    have hheight := h.height
    cases i with
    | zero => exact Function.update_self _ _ _
    | succ i =>
        rw [Nat.add_sub_add_right, Function.update_of_ne (by omega)]
        exact h.cells i (Nat.lt_of_succ_lt_succ hi)

/-- One less. -/
theorem Stacked.pop (h : Stacked b p (n + 1) c) : Stacked (Function.update b p 0) (p - 1) n c where
  height := Nat.le_sub_of_add_le h.height
  bottom := by
    have hheight := h.height
    rw [Nat.sub_sub, Nat.add_comm, Function.update_of_ne (by omega)]
    exact h.bottom
  cells i hi := by
    have hheight := h.height
    rw [Nat.sub_sub, Nat.add_comm, Function.update_of_ne (by omega)]
    exact h.cells (i + 1) (Nat.succ_lt_succ hi)

/-- **The invariant of runs with keys pressed in time**: the unread characters are `n` times `c`, and the
    buffer holds them in a stack. There are none when `getc` is about to stop the processor or has stopped
    it. From the statement that clears the top on, the stack is one lower. -/
structure InOrder (s : KbdState) (n : Nat) (c : UInt8) : Prop where
  char : c ≠ 0
  typed : s.typed.chars = s.kbd.returned ++ List.replicate n c
  buffer : match s.kbd.pc with
    | .idle | .test  => Stacked s.kbd.keyBuffer s.kbd.readPtr n c
    | .hlt | .halted => Stacked s.kbd.keyBuffer s.kbd.readPtr n c ∧ n = 0
    | .load          => Stacked s.kbd.keyBuffer s.kbd.readPtr n c ∧ n ≠ 0
    | .clear tmp     => Stacked s.kbd.keyBuffer s.kbd.readPtr n c ∧ n ≠ 0 ∧ tmp = c
    | .retreat tmp   => Stacked s.kbd.keyBuffer (s.kbd.readPtr - 1) (n - 1) c ∧ n ≠ 0 ∧ tmp = c ∧
        s.kbd.keyBuffer s.kbd.readPtr = 0

theorem InOrder.unread (h : InOrder s n c) : s.unread = List.replicate n c := by
  rw [KbdState.unread, h.typed, List.drop_left]

theorem InOrder.served (h : InOrder s n c) : Served s where
  order := by
    rw [h.typed]
    exact List.prefix_append _ _
  prompt := by
    intro hwaits
    have hnone : n = 0 := by
      have hbuffer := h.buffer
      rcases hwaits with hpc | hpc
      · rw [hpc] at hbuffer
        exact hbuffer.2
      · rw [hpc] at hbuffer
        exact hbuffer.2
    rw [h.typed, hnone]
    exact (List.append_nil _).symm

/-- An interrupt that leaves the buffer as it is. -/
theorem InOrder.wake {u : Typed} (h : InOrder s n c) (hchars : u.chars = s.typed.chars) (shiftDown : Nat) :
    InOrder ⟨{ s.kbd with shiftDown, pc := s.kbd.pc.wake }, u⟩ n c := by
  refine ⟨h.char, hchars.trans h.typed, ?_⟩
  have hbuffer := h.buffer
  cases hpc : s.kbd.pc with
  | halted =>
      rw [hpc] at hbuffer
      exact hbuffer.1
  | idle | test | hlt | load | clear tmp | retreat tmp =>
      rw [hpc] at hbuffer
      exact hbuffer

/-- A key without a character, pressed in time. -/
theorem InOrder.press_none (h : InOrder s n c) (hs : KbdInv s) (hkey : isKeyPress scancode = true)
    (hzero : kbdus s.typed.shift scancode = 0) (hgood : InTime s (.interrupt scancode))
    (hstep : s.step (.interrupt scancode) = .ok t) : InOrder t n c := by
  have hroom : s.kbd.readPtr < 99 := hs.pending ▸ hs.step_iff.mp ⟨t, hstep⟩ hkey
  obtain rfl := Except.ok.inj ((hs.press hroom hkey).symm.trans hstep)
  have hlen := hgood hkey
  have hbuffer := h.buffer
  simp only [hzero, if_true, h.unread, List.length_replicate] at hlen
  rw [key_press hkey, hzero, if_pos rfl]
  refine ⟨h.char, h.typed, ?_⟩
  cases hpc : s.kbd.pc with
  | idle | test | halted =>
      rw [hpc] at hlen
      obtain rfl := Nat.le_zero.mp hlen
      exact ⟨Nat.zero_le _, Function.update_self _ _ _, nofun⟩
  | hlt =>
      rw [hpc] at hlen
      obtain rfl := Nat.le_zero.mp hlen
      exact ⟨⟨Nat.zero_le _, Function.update_self _ _ _, nofun⟩, rfl⟩
  | load | clear tmp =>
      rw [hpc] at hlen hbuffer
      exact absurd (Nat.le_zero.mp hlen) (by first | exact hbuffer.2 | exact hbuffer.2.1)
  | retreat tmp =>
      -- the place below the new byte is the one that was cleared
      rw [hpc] at hlen hbuffer
      obtain ⟨_, hn, htmp, hclear⟩ := hbuffer
      obtain rfl : n = 1 := Nat.le_antisymm hlen (Nat.pos_of_ne_zero hn)
      refine ⟨⟨Nat.zero_le _, ?_, nofun⟩, hn, htmp, Function.update_self _ _ _⟩
      exact (Function.update_of_ne (Nat.ne_of_lt (Nat.lt_succ_self _)) _ _).trans hclear

/-- A key with a character, pressed in time. -/
theorem InOrder.press_char (h : InOrder s n c) (hs : KbdInv s) (hkey : isKeyPress scancode = true)
    (hchar : kbdus s.typed.shift scancode ≠ 0) (hgood : InTime s (.interrupt scancode))
    (hstep : s.step (.interrupt scancode) = .ok t) :
    InOrder t (n + 1) (kbdus s.typed.shift scancode) := by
  have hroom : s.kbd.readPtr < 99 := hs.pending ▸ hs.step_iff.mp ⟨t, hstep⟩ hkey
  obtain rfl := Except.ok.inj ((hs.press hroom hkey).symm.trans hstep)
  have hsame := hgood hkey
  have hbuffer := h.buffer
  have htyped := h.typed
  simp only [if_neg hchar, h.unread] at hsame
  rw [key_press hkey, if_neg hchar]
  generalize kbdus s.typed.shift scancode = d at hchar hsame ⊢
  obtain ⟨hunread, hcleared, hhlt⟩ := hsame
  -- the unread characters are `n` times the new one
  have hnc : n = 0 ∨ c = d := by
    by_cases hn : n = 0
    · exact .inl hn
    · exact .inr (hunread c (List.mem_replicate.mpr ⟨hn, rfl⟩))
  have hreplicate : List.replicate n c = List.replicate n d := by
    rcases hnc with rfl | rfl <;> rfl
  have hstacked : ∀ {b p}, Stacked b p n c → Stacked b p n d := by
    intro b p hst
    rcases hnc with rfl | rfl
    · exact ⟨hst.height, hst.bottom, nofun⟩
    · exact hst
  refine ⟨hchar, ?_, ?_⟩
  · rw [htyped, hreplicate, List.append_assoc, ← List.replicate_succ']
  · cases hk : s.kbd.pc with
    | idle | test =>
        rw [hk] at hbuffer
        exact (hstacked hbuffer).push
    | hlt => exact absurd hk hhlt
    | halted =>
        -- the interrupt sets the processor going
        rw [hk] at hbuffer
        exact (hstacked hbuffer.1).push
    | load =>
        rw [hk] at hbuffer
        exact ⟨(hstacked hbuffer.1).push, Nat.succ_ne_zero n⟩
    | clear tmp =>
        rw [hk] at hbuffer
        obtain ⟨hst, hn, htmp⟩ := hbuffer
        exact ⟨(hstacked hst).push, Nat.succ_ne_zero n, htmp.trans (hnc.resolve_left hn)⟩
    | retreat tmp =>
        rw [hk] at hcleared
        cases hcleared

/-- **A step of `getc`** takes from the stack what was typed first. -/
theorem InOrder.reader (h : InOrder s n c) (hs : KbdInv s) (hstep : s.step .reader = .ok t) :
    ∃ n', InOrder t n' c := by
  obtain rfl := Except.ok.inj (hs.reader.symm.trans hstep)
  have hbuffer := h.buffer
  cases hpc : s.kbd.pc with
  | idle =>
      rw [hpc] at hbuffer
      exact ⟨n, h.char, h.typed, hbuffer⟩
  | test =>
      by_cases hzero : s.kbd.keyBuffer s.kbd.readPtr = 0
      · rw [hpc] at hbuffer
        simp only [if_pos hzero]
        exact ⟨n, h.char, h.typed, hbuffer, (hbuffer.top h.char).mp hzero⟩
      · rw [hpc] at hbuffer
        simp only [if_neg hzero]
        exact ⟨n, h.char, h.typed, hbuffer, fun hn => hzero ((hbuffer.top h.char).mpr hn)⟩
  | hlt =>
      rw [hpc] at hbuffer
      exact ⟨n, h.char, h.typed, hbuffer⟩
  | halted => exact ⟨n, h⟩
  | load =>
      rw [hpc] at hbuffer
      obtain ⟨hst, hn⟩ := hbuffer
      exact ⟨n, h.char, h.typed, hst, hn, hst.cells 0 (Nat.pos_of_ne_zero hn)⟩
  | clear tmp =>
      rw [hpc] at hbuffer
      obtain ⟨hst, hn, htmp⟩ := hbuffer
      obtain ⟨m, rfl⟩ := Nat.exists_eq_succ_of_ne_zero hn
      exact ⟨m + 1, h.char, h.typed, hst.pop, hn, htmp, Function.update_self _ _ _⟩
  | retreat tmp =>
      rw [hpc] at hbuffer
      obtain ⟨hst, hn, rfl, _⟩ := hbuffer
      obtain ⟨m, rfl⟩ := Nat.exists_eq_succ_of_ne_zero hn
      refine ⟨m, h.char, ?_, hst⟩
      rw [h.typed, List.replicate_succ, List.append_assoc]
      rfl

/-- **Every event in time keeps the order.** -/
theorem InOrder.step (h : InOrder s n c) (hs : KbdInv s) (hgood : InTime s ev)
    (hstep : s.step ev = .ok t) : ∃ n c, InOrder t n c := by
  cases ev with
  | interrupt scancode =>
      by_cases hkey : isKeyPress scancode = true
      · by_cases hzero : kbdus s.typed.shift scancode = 0
        · exact ⟨n, c, h.press_none hs hkey hzero hgood hstep⟩
        · exact ⟨_, _, h.press_char hs hkey hzero hgood hstep⟩
      · have hkey := Bool.eq_false_iff.mpr hkey
        obtain rfl := Except.ok.inj ((hs.other hkey).symm.trans hstep)
        obtain ⟨_, hchars, _⟩ := keyboardHandler_other hkey hs.shift
        exact ⟨n, c, h.wake hchars _⟩
  | otherInterrupt =>
      cases hstep
      exact ⟨n, c, h.wake rfl _⟩
  | reader =>
      obtain ⟨n', hn'⟩ := h.reader hs hstep
      exact ⟨n', c, hn'⟩

/-- `a` is pressed between the comparison of `getc` and its `hlt`: the call is stopped with `a` unread. -/
example : ∃ u, KbdState.run [.reader, .reader, .interrupt 30, .reader] = .ok u ∧ u.kbd.Waits ∧
    u.unread = [97] := ⟨_, rfl, .inr rfl, by decide⟩

end WeirdOs
