import WeirdOs.Fs.Fifo
import Mathlib.Data.List.Infix

/-!
# `Fs.Correctness.Fifo` — the fifo as a byte queue, and its bounds

As long as no more than 255 bytes are stored, a fifo is a queue (`fifo_queue`). The shift in `read` goes
past the stored bytes, and what it brings down from there lies behind `buffer_index` again: the contents
of the queue, the first `buffer_index` bytes, never depend on it.

The bounds are not kept by the code. `write` does not look at the room that is left, the shift in `read`
may leave the buffer, and the constructor leaves `buffer_index` as it was; `fifo_bounds_iff` says exactly
which runs stay inside.
-/

namespace WeirdOs

open Lib

variable {s t : FifoState} {f : Fifo} {m m' : Mem} {op : FifoOp} {ops : List FifoOp} {buf n nbyte : Nat}

/-! ## One call -/

/-- The fifo is in memory, with its buffer, the padding byte and `buffer_index`. -/
def Fifo.Placed (f : Fifo) : Prop := f.buffer + 260 ≤ 4294967296

/-- The caller's buffer is memory of its own. -/
def BufferApart (f : Fifo) (buf n : Nat) : Prop :=
  buf + n ≤ 4294967296 ∧ (buf + n ≤ f.buffer ∨ f.buffer + fifoSize ≤ buf)

/-- The buffer of a call is apart from that of the fifo. A read of more than 255 bytes touches none. -/
def FifoOp.Apart (f : Fifo) : FifoOp → Prop
  | .write buf n    => BufferApart f buf n
  | .read buf nbyte => nbyte ≤ fifoSize → BufferApart f buf nbyte
  | .elsewhere _    => True

/-- **A write appends.** -/
theorem next_write (hplace : s.fifo.Placed) (hapart : BufferApart s.fifo buf n)
    (hfit : s.fifo.bufferIndex + n ≤ fifoSize) :
    (s.next (.write buf n)).fifo = { s.fifo with bufferIndex := s.fifo.bufferIndex + n } ∧
    (s.next (.write buf n)).contents = s.contents ++ bytesAt s.mem buf n := by
  unfold fifoSize at hfit
  unfold Fifo.Placed at hplace
  obtain ⟨hbuf, hdisj⟩ := hapart
  unfold fifoSize at hdisj
  have hfifo : (s.next (.write buf n)).fifo = { s.fifo with bufferIndex := s.fifo.bufferIndex + n } := by
    have hadd : add32 s.fifo.bufferIndex n = s.fifo.bufferIndex + n := add32_of_lt (by omega)
    simp only [FifoState.next, Fifo.write, hadd]
  have hmem : (s.next (.write buf n)).mem =
      memcpy s.mem (s.fifo.buffer + s.fifo.bufferIndex) buf n := by
    have hadd : add32 s.fifo.buffer s.fifo.bufferIndex = s.fifo.buffer + s.fifo.bufferIndex :=
      add32_of_lt (by omega)
    simp only [FifoState.next, Fifo.write, hadd]
  refine ⟨hfifo, ?_⟩
  unfold FifoState.contents
  rw [hfifo, hmem]
  dsimp only
  rw [bytesAt_add]
  congr 1
  · exact bytesAt_congr fun i hi => memcpy_out (by omega) (by omega)
  · exact bytesAt_congr fun i hi => memcpy_in (by omega) (by omega) (by omega) hi

/-- A read of more than is stored does nothing. -/
theorem read_short (buf : Nat) (h : s.fifo.bufferIndex < nbyte) :
    s.fifo.read s.mem buf nbyte = (s.mem, s.fifo, 0) := by
  unfold Fifo.read
  rw [if_pos h]

/-- A read of what is stored copies it out, and shifts. -/
theorem read_served (hle : nbyte ≤ f.bufferIndex) :
    f.read m buf nbyte =
      (memcpy (memcpy m buf f.buffer nbyte) f.buffer (add32 f.buffer nbyte) f.bufferIndex,
        { f with bufferIndex := sub32 f.bufferIndex nbyte }, nbyte) := by
  unfold Fifo.read
  rw [if_neg (Nat.not_lt.mpr hle)]

/-- What lay in the `n` bytes from `src` on in `m` lies in those from `dest` on in `m'`, and everywhere else
    the two agree. -/
structure Copies (m m' : Mem) (dest src n : Nat) : Prop where
  copied : ∀ i < n, m' (dest + i) = m (src + i)
  frame : ∀ x, x < dest ∨ dest + n ≤ x → m' x = m x

/-- **The shift of a read copies downwards over itself**, from the memory that the first `memcpy` left. -/
theorem read_shift (hle : nbyte ≤ f.bufferIndex) (hfit : f.buffer + nbyte + f.bufferIndex ≤ 4294967296) :
    Copies (memcpy m buf f.buffer nbyte) (f.read m buf nbyte).1 f.buffer (f.buffer + nbyte)
      f.bufferIndex := by
  rw [read_served hle]
  rcases Nat.eq_zero_or_pos f.bufferIndex with hempty | hsome
  · rw [hempty]
    exact ⟨fun i hi => absurd hi (Nat.not_lt_zero i), fun x _ => rfl⟩
  · rw [add32_of_lt (by omega)]
    exact ⟨fun i hi => memcpy_in (by omega) (by omega) (by omega) hi, fun x hx => memcpy_out (by omega) hx⟩

/-- **`memcpy` copies**, over itself too, when its destination is not above its source or the two ranges
    do not overlap. The shift of a read that is served is such a copy. -/
theorem memcpy_copies {dest src : Nat} (hdest : dest + n ≤ 4294967296) (hsrc : src + n ≤ 4294967296)
    (hover : dest ≤ src ∨ dest + n ≤ src ∨ src + n ≤ dest) :
    Copies m (memcpy m dest src n) dest src n ∧
    ∀ (f : Fifo) buf nbyte, nbyte ≤ f.bufferIndex → f.buffer + nbyte + f.bufferIndex ≤ 4294967296 →
      Copies (memcpy m buf f.buffer nbyte) (f.read m buf nbyte).1 f.buffer (f.buffer + nbyte)
        f.bufferIndex := by
  refine ⟨⟨?_, fun x hx => memcpy_out hdest hx⟩, fun f buf nbyte => read_shift⟩
  intro i hi
  exact memcpy_in hdest (by omega) (by omega) hi

/-- Five bytes come down by two, over three of themselves. -/
theorem memcpy_copies_overlap :
    Copies (fun x => UInt8.ofNat x) (memcpy (fun x => UInt8.ofNat x) 0x100 0x102 5) 0x100 0x102 5 :=
  (memcpy_copies (by decide) (by decide) (by decide)).1

/-- **A read takes the front**, and leaves the rest. -/
theorem next_read (hplace : s.fifo.Placed) (hapart : BufferApart s.fifo buf nbyte)
    (hfit : s.fifo.bufferIndex ≤ fifoSize) (hle : nbyte ≤ s.fifo.bufferIndex) :
    (s.next (.read buf nbyte)).fifo = { s.fifo with bufferIndex := s.fifo.bufferIndex - nbyte } ∧
    (s.next (.read buf nbyte)).contents = s.contents.drop nbyte ∧
    bytesAt (s.next (.read buf nbyte)).mem buf nbyte = s.contents.take nbyte := by
  unfold fifoSize at hfit
  unfold Fifo.Placed at hplace
  obtain ⟨hbuf, hdisj⟩ := hapart
  unfold fifoSize at hdisj
  have hread : s.fifo.read s.mem buf nbyte =
      (memcpy (memcpy s.mem buf s.fifo.buffer nbyte) s.fifo.buffer (s.fifo.buffer + nbyte)
        s.fifo.bufferIndex, { s.fifo with bufferIndex := s.fifo.bufferIndex - nbyte }, nbyte) := by
    have hadd : add32 s.fifo.buffer nbyte = s.fifo.buffer + nbyte := add32_of_lt (by omega)
    have hsub : sub32 s.fifo.bufferIndex nbyte = s.fifo.bufferIndex - nbyte := sub32_of_le hle (by omega)
    rw [read_served hle, hadd, hsub]
  have hsplit : s.contents = bytesAt s.mem s.fifo.buffer nbyte ++
      bytesAt s.mem (s.fifo.buffer + nbyte) (s.fifo.bufferIndex - nbyte) := by
    rw [← bytesAt_add, Nat.add_sub_cancel' hle]
    rfl
  have hlen : (bytesAt s.mem s.fifo.buffer nbyte).length = nbyte := bytesAt_length _ _ _
  refine ⟨by simp only [FifoState.next, hread], ?_, ?_⟩
  · rw [hsplit, List.drop_left' hlen]
    simp only [FifoState.contents, FifoState.next, hread]
    apply bytesAt_congr
    intro i hi
    -- the shift goes downwards, so byte `i` is copied before its source is overwritten
    rw [memcpy_in (by omega) (by omega) (by omega) (by omega), memcpy_out (by omega) (by omega)]
  · rw [hsplit, List.take_left' hlen]
    simp only [FifoState.next, hread]
    apply bytesAt_congr
    intro i hi
    rw [memcpy_out (by omega) (by omega), memcpy_in (by omega) (by omega) (by omega) hi]

/-- What happens elsewhere does not change what is stored. -/
theorem next_elsewhere (hfit : s.fifo.bufferIndex ≤ fifoSize) :
    (s.next (.elsewhere m)).contents = s.contents := by
  refine bytesAt_congr fun i hi => if_pos ?_
  simp only [FifoState.next] at hi ⊢
  omega

/-! ## Whole runs -/

/-- The number of bytes stored after an operation, when there were so many before. -/
def FifoOp.stored (q : Nat) : FifoOp → Nat
  | .write _ n     => q + n
  | .read _ nbyte  => if q < nbyte then q else q - nbyte
  | .elsewhere _   => q

/-- **A call of a fifo is a call of a queue.** -/
theorem next_queue (hplace : s.fifo.Placed) (hapart : op.Apart s.fifo) (hfit : s.fifo.bufferIndex ≤ fifoSize)
    (hfit' : op.stored s.fifo.bufferIndex ≤ fifoSize) :
    (s.next op).fifo = { s.fifo with bufferIndex := op.stored s.fifo.bufferIndex } ∧
    ∀ es r, QueueRun (s.next op).contents es r → QueueRun s.contents (s.event op ++ es) r := by
  cases op with
  | write buf n =>
      obtain ⟨hfifo, hcontents⟩ := next_write hplace hapart hfit'
      refine ⟨hfifo, ?_⟩
      intro _ _ hrest
      rw [hcontents] at hrest
      have hput := QueueRun.put _ hrest
      rwa [bytesAt_length] at hput
  | read buf nbyte =>
      by_cases hshort : s.fifo.bufferIndex < nbyte
      · have hread := read_short buf hshort
        refine ⟨by simp only [FifoState.next, hread, FifoOp.stored, if_pos hshort], ?_⟩
        intro _ _ hrest
        simp only [FifoState.next, FifoState.event, hread, bytesAt_zero] at hrest ⊢
        refine .short ?_ hrest
        rwa [FifoState.contents, bytesAt_length]
      · have hle := Nat.not_lt.mp hshort
        obtain ⟨hfifo, hcontents, hbytes⟩ :=
          next_read hplace (hapart (Nat.le_trans hle hfit)) hfit hle
        refine ⟨by rw [hfifo, FifoOp.stored, if_neg hshort], ?_⟩
        intro _ _ hrest
        have hcount : (s.fifo.read s.mem buf nbyte).2.2 = nbyte := by
          unfold Fifo.read
          rw [if_neg hshort]
        rw [hcontents] at hrest
        simp only [FifoState.event, hcount, hbytes]
        refine .take ?_ hrest
        rwa [FifoState.contents, bytesAt_length]
  | elsewhere m =>
      refine ⟨rfl, ?_⟩
      intro _ _ hrest
      rwa [next_elsewhere hfit] at hrest

theorem FifoOp.apart_congr {f' : Fifo} (hbuffer : f'.buffer = f.buffer) :
    op.Apart f' ↔ op.Apart f := by
  cases op <;> simp [FifoOp.Apart, BufferApart, hbuffer]

/-- Every run returns. -/
theorem run_total (s : FifoState) (ops : List FifoOp) :
    Lib.run FifoState.step s ops = .ok (ops.foldl FifoState.next s) := by
  induction ops generalizing s with
  | nil => rfl
  | cons op ops ih => exact ih (s.next op)

/-- The calls of a run are calls of a queue, whatever is stored at first. -/
theorem run_queue (hplace : s.fifo.Placed) (hapart : ∀ op ∈ ops, op.Apart s.fifo)
    (hfit : ∀ pre, pre <+: ops → pre.foldl FifoOp.stored s.fifo.bufferIndex ≤ fifoSize) :
    ∃ t, s.run ops = .ok t ∧ QueueRun s.contents (s.events ops) t.contents := by
  induction ops generalizing s with
  | nil => exact ⟨s, rfl, .nil _⟩
  | cons op ops ih =>
      have hfit₀ : s.fifo.bufferIndex ≤ fifoSize := hfit [] List.nil_prefix
      have hfit₁ : op.stored s.fifo.bufferIndex ≤ fifoSize := hfit [op] (by simp)
      have hop := hapart op List.mem_cons_self
      have hfifo := (next_queue hplace hop hfit₀ hfit₁).1
      obtain ⟨t, hrun, hqueue⟩ := ih (s := s.next op) (by rw [hfifo]; exact hplace)
        (fun op' hmem => (FifoOp.apart_congr (by rw [hfifo])).mpr (hapart op' (List.mem_cons_of_mem _ hmem)))
        (fun pre hpre => by
          rw [hfifo]
          exact hfit (op :: pre) (List.cons_prefix_cons.mpr ⟨rfl, hpre⟩))
      exact ⟨t, run_cons.mpr ⟨s.next op, rfl, hrun⟩, (next_queue hplace hop hfit₀ hfit₁).2 _ _ hqueue⟩

/-- **The fifo is a byte queue.** Over every run that starts without stored bytes and in which at most 255
    bytes are ever stored, the calls of the fifo are those of a queue that is empty at first and holds
    the stored bytes at the end; so what was written is what was read, followed by what is stored. A read
    of more than is stored returns 0 and changes nothing. -/
theorem fifo_queue (hplace : s.fifo.Placed) (hempty : s.fifo.bufferIndex = 0)
    (hapart : ∀ op ∈ ops, op.Apart s.fifo)
    (hfit : ∀ pre, pre <+: ops → pre.foldl FifoOp.stored 0 ≤ fifoSize) :
    (∃ t, s.run ops = .ok t ∧ QueueRun [] (s.events ops) t.contents ∧
      (s.events ops).flatMap QueueEvent.itemsIn =
        (s.events ops).flatMap QueueEvent.itemsOut ++ t.contents) ∧
    ∀ (u : FifoState) (buf nbyte : Nat), u.contents.length < nbyte →
      u.next (.read buf nbyte) = u ∧ (u.fifo.read u.mem buf nbyte).2.2 = 0 := by
  constructor
  · rw [← hempty] at hfit
    obtain ⟨t, hrun, hqueue⟩ := run_queue hplace hapart hfit
    have hnil : s.contents = [] := by rw [FifoState.contents, hempty, bytesAt_zero]
    rw [hnil] at hqueue
    exact ⟨t, hrun, hqueue, hqueue.conserves⟩
  · intro u buf nbyte hshort
    rw [FifoState.contents, bytesAt_length] at hshort
    have hread := read_short buf hshort
    exact ⟨by simp only [FifoState.next, hread], by rw [hread]⟩

/-- A fifo at `0x100`, in memory that holds the byte `i` at every address `i`. -/
def smallFifo : FifoState := ⟨fun i => UInt8.ofNat i, ⟨0x100, 0⟩⟩

/-- Three bytes written, a read of two, a read of two that are not there, two more bytes written. -/
def smallFifoOps : List FifoOp := [.write 0x10 3, .read 0x20 2, .read 0x30 2, .write 0x40 2]

/-- In that run the fifo is a queue. -/
theorem fifo_queue_small :
    ∃ t, smallFifo.run smallFifoOps = .ok t ∧ t.contents = [0x12, 0x40, 0x41] ∧
      QueueRun [] (smallFifo.events smallFifoOps) t.contents := by
  have hplace : smallFifo.fifo.Placed := by simp [Fifo.Placed, smallFifo]
  have hapart : ∀ op ∈ smallFifoOps, op.Apart smallFifo.fifo := by
    simp [smallFifoOps, smallFifo, FifoOp.Apart, BufferApart]
  have hfit : ∀ pre ∈ smallFifoOps.inits, pre.foldl FifoOp.stored 0 ≤ fifoSize := by decide
  obtain ⟨t, hrun, hqueue, _⟩ := (fifo_queue hplace rfl hapart fun pre hpre =>
    hfit pre ((List.mem_inits pre smallFifoOps).mpr hpre)).1
  obtain rfl := Except.ok.inj hrun
  exact ⟨_, hrun, by decide, hqueue⟩

/-! ## Bounds -/

/-- The parts of `buffer` that an operation touches. -/
def FifoOp.access (f : Fifo) : FifoOp → List (Nat × Nat)
  | .write _ n    => f.writeAccess n
  | .read _ nbyte => f.readAccess nbyte
  | .elsewhere _  => []

/-- **The bounds are kept by a call**: every part of `buffer` it touches lies inside, `buffer_index` stays
    inside, and a write for which there is no room stores and reports what there is room for. -/
structure InBounds (s : FifoState) (op : FifoOp) : Prop where
  access : ∀ part ∈ op.access s.fifo, part.2 = 0 ∨ part.1 + part.2 ≤ fifoSize
  index : (s.next op).fifo.bufferIndex ≤ fifoSize
  full : ∀ buf n, op = .write buf n → fifoSize < s.fifo.bufferIndex + n →
    (s.next op).fifo.bufferIndex = fifoSize ∧
    (s.fifo.write s.mem buf n).2.2 = fifoSize - s.fifo.bufferIndex

/-- There is room for what is written, and the shift after a read ends inside the buffer. -/
def FifoOp.Fits (f : Fifo) : FifoOp → Prop
  | .write _ n    => f.bufferIndex + n ≤ fifoSize
  | .read _ nbyte => nbyte ≤ f.bufferIndex → nbyte + f.bufferIndex ≤ fifoSize
  | .elsewhere _  => True

/-- A write keeps the bounds iff there is room for it. -/
theorem inBounds_write (buf : Nat) {n : Nat} (hindex : s.fifo.bufferIndex ≤ fifoSize) :
    InBounds s (.write buf n) ↔ s.fifo.bufferIndex + n ≤ fifoSize := by
  constructor
  · intro h
    apply Nat.not_lt.mp
    intro hlt
    -- all of it was stored and reported
    have hreport : n = fifoSize - s.fifo.bufferIndex := (h.full buf n rfl hlt).2
    omega
  · intro hfits
    have hadd : add32 s.fifo.bufferIndex n = s.fifo.bufferIndex + n := by
      unfold fifoSize at hfits
      exact add32_of_lt (by omega)
    refine ⟨?_, ?_, ?_⟩
    · intro part hpart
      obtain rfl := List.mem_singleton.mp hpart
      exact .inr hfits
    · simp only [FifoState.next, Fifo.write, hadd]
      exact hfits
    · intro buf' n' hop hlt
      cases hop
      exact absurd hfits (Nat.not_le.mpr hlt)

/-- A read that is not served touches nothing. -/
theorem inBounds_read_short (buf : Nat) {nbyte : Nat} (hindex : s.fifo.bufferIndex ≤ fifoSize)
    (hshort : s.fifo.bufferIndex < nbyte) : InBounds s (.read buf nbyte) := by
  have hread := read_short buf hshort
  refine ⟨?_, ?_, fun _ _ hop => by cases hop⟩
  · intro part hpart
    simp [FifoOp.access, Fifo.readAccess, hshort] at hpart
  · simpa only [FifoState.next, hread] using hindex

/-- A read that is served keeps the bounds iff its shift ends inside the buffer. -/
theorem inBounds_read (buf : Nat) {nbyte : Nat} (hindex : s.fifo.bufferIndex ≤ fifoSize)
    (hle : nbyte ≤ s.fifo.bufferIndex) :
    InBounds s (.read buf nbyte) ↔ nbyte + s.fifo.bufferIndex ≤ fifoSize := by
  have haccess : FifoOp.access s.fifo (.read buf nbyte) =
      [(0, nbyte), (nbyte, s.fifo.bufferIndex), (0, s.fifo.bufferIndex)] :=
    if_neg (Nat.not_lt.mpr hle)
  constructor
  · intro h
    have hshift : (nbyte, s.fifo.bufferIndex) ∈ FifoOp.access s.fifo (.read buf nbyte) := by
      rw [haccess]
      exact .tail _ (.head _)
    rcases h.access _ hshift with hzero | hin
    · dsimp only at hzero
      omega
    · exact hin
  · intro hin
    have hsub : sub32 s.fifo.bufferIndex nbyte = s.fifo.bufferIndex - nbyte := by
      unfold fifoSize at hindex
      exact sub32_of_le hle (by omega)
    refine ⟨?_, ?_, fun _ _ hop => by cases hop⟩
    · intro part hpart
      simp only [haccess, List.mem_cons, List.not_mem_nil, or_false] at hpart
      right
      rcases hpart with rfl | rfl | rfl <;> dsimp only <;> omega
    · simp only [FifoState.next, Fifo.read, if_neg (Nat.not_lt.mpr hle), hsub]
      omega

/-- **One call keeps the bounds iff it fits.** -/
theorem inBounds_iff (hindex : s.fifo.bufferIndex ≤ fifoSize) : InBounds s op ↔ op.Fits s.fifo := by
  cases op with
  | write buf n => exact inBounds_write buf hindex
  | read buf nbyte =>
      by_cases hshort : s.fifo.bufferIndex < nbyte
      · have hbounds := inBounds_read_short buf hindex hshort
        exact iff_of_true hbounds fun hle => absurd hshort (Nat.not_lt.mpr hle)
      · have hle := Nat.not_lt.mp hshort
        rw [inBounds_read buf hindex hle]
        exact ⟨fun hin _ => hin, fun hfits => hfits hle⟩
  | elsewhere m =>
      refine iff_of_true ⟨?_, hindex, fun _ _ hop => by cases hop⟩ trivial
      intro part hpart
      cases hpart

/-- **The bounds of a fifo over whole runs.** From what its constructor leaves, `buffer_index` is at most
    255 and every call keeps the bounds iff the memory that the fifo was made in happens to hold a
    `buffer_index` of at most 255, every write fits, and every read that is served takes no more than
    `255 - buffer_index` bytes. -/
theorem fifo_bounds_iff (m : Mem) (buffer : Nat) (ops : List FifoOp) :
    ((Fifo.new m buffer).bufferIndex ≤ fifoSize ∧
      ∀ pre op u, pre ++ [op] <+: ops → FifoState.run ⟨m, .new m buffer⟩ pre = .ok u → InBounds u op) ↔
    ((Fifo.new m buffer).bufferIndex ≤ fifoSize ∧
      ∀ pre op u, pre ++ [op] <+: ops → FifoState.run ⟨m, .new m buffer⟩ pre = .ok u → op.Fits u.fifo) := by
  apply and_congr_right
  intro hindex
  refine run_steps_iff (I := fun s : FifoState => s.fifo.bufferIndex ≤ fifoSize)
    (fun _ _ _ hs _ => inBounds_iff hs) ?_ hindex (run_total _ ops)
  intro s op t hs hfits hstep
  cases hstep
  exact ((inBounds_iff hs).mpr hfits).index

/-- Memory that holds zeros, as a fresh page does. -/
def zeroMem : Mem := fun _ => 0

/-- Three bytes in and two of them out again. -/
theorem fifo_bounds_iff_small :
    (Fifo.new zeroMem 0x100).bufferIndex ≤ fifoSize ∧
      ∀ pre op u, pre ++ [op] <+: [.write 0x1000 3, .read 0x2000 2] →
        FifoState.run ⟨zeroMem, .new zeroMem 0x100⟩ pre = .ok u → InBounds u op := by
  have hiff := fifo_bounds_iff zeroMem 0x100 [.write 0x1000 3, .read 0x2000 2]
  refine hiff.mpr ⟨by decide, ?_⟩
  unfold FifoState.run
  rw [forall_steps_cons rfl, forall_steps_cons rfl]
  refine ⟨by unfold FifoOp.Fits; decide, by unfold FifoOp.Fits; decide, ?_⟩
  intro pre op u hpre
  simp at hpre

/-- A write of 256 bytes into a new fifo runs over its buffer, and in memory that held ones a new fifo is
    out of bounds at once. -/
theorem fifo_overrun :
    ¬ ((Fifo.new zeroMem 0x100).bufferIndex ≤ fifoSize ∧
      ∀ pre op u, pre ++ [op] <+: [.write 0x1000 256] →
        FifoState.run ⟨zeroMem, .new zeroMem 0x100⟩ pre = .ok u → InBounds u op) ∧
    ¬ (Fifo.new (fun _ => 0xff) 0x100).bufferIndex ≤ fifoSize := by
  refine ⟨?_, by decide⟩
  intro h
  have hindex := (h.2 [] (.write 0x1000 256) _ (by simp) rfl).index
  revert hindex
  decide

end WeirdOs
