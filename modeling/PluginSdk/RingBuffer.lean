import Mathlib.Data.Nat.ModEq
import PluginSdk.Fifo
import PluginSdk.RingWindow

/-! `rack::dsp::RingBuffer`: two counters that are never reduced to the size of
the ring, so that they pass the end of their type in a long run. -/

namespace PluginSdk

/-- `size_t` has `w` bits. -/
structure RingBuffer (T : Type*) (w S : Nat) where
  start : BitVec w
  end_ : BitVec w
  data : Vector T S

namespace RingBuffer

variable {T : Type*} {w S : Nat}

def push (b : RingBuffer T w S) (t : T) : Option (RingBuffer T w S) := do
  let i := b.end_ % BitVec.ofNat w S
  let data ← Cells.write? b.data i.toNat t
  some { b with data, end_ := b.end_ + 1#w }

/-- The pieces are given as the source gives them to `memcpy`, by cell and length. -/
def pushBuffer (b : RingBuffer T w S) (t : List T) : Option (RingBuffer T w S) := do
  let n := BitVec.ofNat w t.length
  let size := BitVec.ofNat w S
  let i := b.end_ % size
  let e1 := i + n
  let e2 := if e1 < size then e1 else size
  let front ← Cells.fill? b.data i.toNat (fun c => t[(c - i.toNat).toNat]?) (e2 - i).toNat
  let data ←
    if e1 > size then
      Cells.fill? front 0 (fun c => t[(c + (size - i).toNat).toNat]?) (e1 - size).toNat
    else some front
  some { b with data, end_ := b.end_ + n }

def shift (b : RingBuffer T w S) : Option (T × RingBuffer T w S) := do
  let i := b.start % BitVec.ofNat w S
  let t ← Cells.read? b.data i.toNat
  some (t, { b with start := b.start + 1#w })

def shiftBuffer (b : RingBuffer T w S) (n : Nat) : Option (List T × RingBuffer T w S) := do
  let n := BitVec.ofNat w n
  let size := BitVec.ofNat w S
  let i := b.start % size
  let s1 := i + n
  let s2 := if s1 < size then s1 else size
  let front ← Cells.gather? b.data i.toNat (s2 - i).toNat
  let t ←
    if s1 > size then do
      let back ← Cells.gather? b.data 0 (s1 - size).toNat
      some (front ++ back)
    else some front
  some (t, { b with start := b.start + n })

def clear (b : RingBuffer T w S) : RingBuffer T w S := { b with start := b.end_ }

def empty (b : RingBuffer T w S) : Bool := b.end_ ≤ b.start

def size (b : RingBuffer T w S) : BitVec w := b.end_ - b.start

def full (b : RingBuffer T w S) : Bool := BitVec.ofNat w S ≤ b.end_ - b.start

def capacity (b : RingBuffer T w S) : BitVec w := BitVec.ofNat w S - b.size

def new (data : Vector T S) : RingBuffer T w S := ⟨0#w, 0#w, data⟩

inductive Call (T : Type*)
  | push (t : T)
  | pushBuffer (t : List T)
  | shift
  | shiftBuffer (n : Nat)
  | clear

def Call.op : Call T → Fifo.Op T
  | .push t => .put [t]
  | .pushBuffer t => .put t
  | .shift => .take 1
  | .shiftBuffer n => .take n
  | .clear => .clear

def step (b : RingBuffer T w S) : Call T → Option (RingBuffer T w S × List T)
  | .push t => (b.push t).map fun c => (c, [])
  | .pushBuffer t => (b.pushBuffer t).map fun c => (c, [])
  | .shift => b.shift.map fun c => (c.2, [c.1])
  | .shiftBuffer n => (b.shiftBuffer n).map fun c => (c.2, c.1)
  | .clear => some (b.clear, [])

/-- The ring is not empty, and two of it can be addressed. -/
structure Sized (w S : Nat) : Prop where
  pos : 0 < S
  fits : 2 * S ≤ 2 ^ w

/-- A counter that passes the end of its type stays in step with the ring: the
ring divides the type, or the run ends at a position `N` that it reaches. -/
def InStep (w S N : Nat) : Prop := S ∣ 2 ^ w ∨ N < 2 ^ w

theorem Sized.toNat_size (h : Sized w S) : (BitVec.ofNat w S).toNat = S := by
  have hpos := h.pos
  have hfits := h.fits
  exact Nat.mod_eq_of_lt (by omega)

theorem Sized.toNat_index (h : Sized w S) (c : BitVec w) :
    (c % BitVec.ofNat w S).toNat = c.toNat % S := by
  rw [BitVec.toNat_umod, h.toNat_size]

theorem InStep.index_eq {N p : Nat} (h : InStep w S N) (hp : p ≤ N) :
    (BitVec.ofNat w p).toNat % S = p % S := by
  rw [BitVec.toNat_ofNat]
  rcases h with hdvd | hle
  · exact Nat.mod_mod_of_dvd p hdvd
  · rw [Nat.mod_eq_of_lt (by omega : p < 2 ^ w)]

theorem Sized.toNat_ofNat (h : Sized w S) {n : Nat} (hn : n ≤ S) : (BitVec.ofNat w n).toNat = n := by
  have hpos := h.pos
  have hfits := h.fits
  exact Nat.mod_eq_of_lt (by omega)

/-- The sum of a cell and a length does not overflow. -/
theorem Sized.toNat_far (h : Sized w S) (c : BitVec w) {n : Nat} (hn : n ≤ S) :
    (c % BitVec.ofNat w S + BitVec.ofNat w n).toNat = c.toNat % S + n := by
  have hlt := Nat.mod_lt c.toNat h.pos
  have hfits := h.fits
  have hi := h.toNat_index c
  have hn' := h.toNat_ofNat hn
  rw [BitVec.toNat_add_of_lt (by omega), hi, hn']

theorem Sized.far_gt_iff (h : Sized w S) (c : BitVec w) {n : Nat} (hn : n ≤ S) :
    c % BitVec.ofNat w S + BitVec.ofNat w n > BitVec.ofNat w S ↔ S < c.toNat % S + n := by
  rw [gt_iff_lt, BitVec.lt_def, h.toNat_far c hn, h.toNat_size]

theorem Sized.toNat_front (h : Sized w S) (c : BitVec w) {n : Nat} (hn : n ≤ S) :
    ((if c % BitVec.ofNat w S + BitVec.ofNat w n < BitVec.ofNat w S
      then c % BitVec.ofNat w S + BitVec.ofNat w n else BitVec.ofNat w S) -
        c % BitVec.ofNat w S).toNat = min (c.toNat % S + n) S - c.toNat % S := by
  have hlt := Nat.mod_lt c.toNat h.pos
  have hi := h.toNat_index c
  have hfar := h.toNat_far c hn
  have hsize := h.toNat_size
  split_ifs with hcut
  · rw [BitVec.lt_def, hfar, hsize] at hcut
    rw [BitVec.toNat_sub_of_le (by rw [BitVec.le_def]; omega), hfar, hi]
    omega
  · rw [BitVec.lt_def, hfar, hsize] at hcut
    rw [BitVec.toNat_sub_of_le (by rw [BitVec.le_def]; omega), hsize, hi]
    omega

theorem Sized.toNat_back (h : Sized w S) (c : BitVec w) {n : Nat} (hn : n ≤ S)
    (hcut : S < c.toNat % S + n) :
    (c % BitVec.ofNat w S + BitVec.ofNat w n - BitVec.ofNat w S).toNat = c.toNat % S + n - S := by
  have hfar := h.toNat_far c hn
  have hsize := h.toNat_size
  rw [BitVec.toNat_sub_of_le (by rw [BitVec.le_def]; omega), hfar, hsize]

theorem Sized.toNat_rest (h : Sized w S) (c : BitVec w) :
    (BitVec.ofNat w S - c % BitVec.ofNat w S).toNat = S - c.toNat % S := by
  have hlt := Nat.mod_lt c.toNat h.pos
  have hi := h.toNat_index c
  have hsize := h.toNat_size
  rw [BitVec.toNat_sub_of_le (by rw [BitVec.le_def]; omega), hsize, hi]

variable {b : RingBuffer T w S}

theorem pushBuffer_eq (h : Sized w S) {t : List T} (hn : t.length ≤ S) :
    b.pushBuffer t = (RingWindow.copyIn b.data (b.end_.toNat % S) t).map
      fun data => { b with data, end_ := b.end_ + BitVec.ofNat w t.length } := by
  simp only [pushBuffer, RingWindow.copyIn, h.toNat_front _ hn, h.toNat_index, h.toNat_rest,
    h.far_gt_iff _ hn]
  by_cases hcut : S < b.end_.toNat % S + t.length
  · simp only [if_pos hcut, h.toNat_back _ hn hcut, Option.bind_eq_bind, Option.map_eq_bind,
      Option.bind_assoc, Option.bind_some, Function.comp_def]
  · simp only [if_neg hcut, Option.bind_eq_bind, Option.map_eq_bind, Option.bind_assoc,
      Option.bind_some, Function.comp_def]

theorem shiftBuffer_eq (h : Sized w S) {n : Nat} (hn : n ≤ S) :
    b.shiftBuffer n = (RingWindow.copyOut b.data (b.start.toNat % S) n).map
      fun t => (t, { b with start := b.start + BitVec.ofNat w n }) := by
  simp only [shiftBuffer, RingWindow.copyOut, h.toNat_front _ hn, h.toNat_index,
    h.far_gt_iff _ hn]
  by_cases hcut : S < b.start.toNat % S + n
  · simp only [if_pos hcut, h.toNat_back _ hn hcut, Option.bind_eq_bind, Option.map_eq_bind,
      Option.bind_assoc, Option.bind_some, Function.comp_def]
  · simp only [if_neg hcut, Option.bind_eq_bind, Option.map_eq_bind, Option.bind_assoc,
      Option.bind_some, Function.comp_def]

theorem push_eq_pushBuffer (h : Sized w S) (t : T) : b.push t = b.pushBuffer [t] := by
  have hlt := Nat.mod_lt b.end_.toNat h.pos
  have hn : [t].length ≤ S := h.pos
  have hfront : min (b.end_.toNat % S + 1) S - b.end_.toNat % S = 1 := by omega
  rw [pushBuffer_eq h hn, RingWindow.copyIn, push]
  simp only [h.toNat_index, List.length_singleton, hfront, Cells.fill?, Option.map_eq_bind,
    Option.bind_eq_bind, Option.bind_assoc, Function.comp_def, Int.sub_self,
    if_neg (by omega : ¬ S < b.end_.toNat % S + 1), Option.bind_some]
  rfl

theorem shift_eq_shiftBuffer (h : Sized w S) :
    b.shift.map (fun c => (c.2, [c.1])) = (b.shiftBuffer 1).map fun c => (c.2, c.1) := by
  have hlt := Nat.mod_lt b.start.toNat h.pos
  have hfront : min (b.start.toNat % S + 1) S - b.start.toNat % S = 1 := by omega
  rw [shiftBuffer_eq h h.pos, RingWindow.copyOut, shift]
  simp only [h.toNat_index, hfront, Cells.gather?, Option.map_eq_bind, Option.bind_eq_bind,
    Option.bind_assoc, Function.comp_def, if_neg (by omega : ¬ S < b.start.toNat % S + 1),
    Option.bind_some]

/-- The buffer holds the queue, its counters the positions where the queue starts and ends. -/
structure Represents (q : Fifo.Queue T) (b : RingBuffer T w S) : Prop where
  start_eq : b.start = BitVec.ofNat w q.pos
  end_eq : b.end_ = BitVec.ofNat w (q.pos + q.held.length)
  holds : RingWindow.Holds b.data q.pos q.held

namespace Represents

variable {q : Fifo.Queue T} {N : Nat}

theorem pushBuffer (hb : Represents q b) (h : Sized w S) (hstep : InStep w S N) {t : List T}
    (hroom : q.held.length + t.length ≤ S) (hN : q.pos + q.held.length ≤ N) :
    ∃ c, b.pushBuffer t = some c ∧ Represents (q.next (.put t)) c := by
  obtain ⟨data, hcopy, hholds⟩ := hb.holds.copyIn hroom h.pos
  rw [pushBuffer_eq h (by omega), hb.end_eq, hstep.index_eq hN, hcopy]
  refine ⟨_, rfl, hb.start_eq, ?_, hholds⟩
  simp only [Fifo.Queue.next, List.length_append, ← Nat.add_assoc]
  exact (BitVec.ofNat_add _ _).symm

theorem shiftBuffer (hb : Represents q b) (h : Sized w S) (hstep : InStep w S N) {n : Nat}
    (hn : n ≤ q.held.length) (hN : q.pos + q.held.length ≤ N) :
    ∃ c, b.shiftBuffer n = some (q.out (.take n), c) ∧ Represents (q.next (.take n)) c := by
  have hle := hb.holds.length_le
  rw [shiftBuffer_eq h (by omega), hb.start_eq, hstep.index_eq (by omega),
    hb.holds.copyOut hn h.pos]
  refine ⟨_, rfl, (BitVec.ofNat_add _ _).symm, ?_, hb.holds.drop hn⟩
  rw [hb.end_eq]
  simp only [Fifo.Queue.next, List.length_drop]
  exact congrArg _ (by omega)

theorem clear (hb : Represents q b) : Represents (q.next .clear) b.clear where
  start_eq := hb.end_eq
  end_eq := hb.end_eq
  holds := RingWindow.Holds.nil b.data _

/-- One call of the code is one operation of the queue. -/
theorem step (hb : Represents q b) (h : Sized w S) (hstep : InStep w S N) {call : Call T}
    (hadm : Fifo.Queue.Admits S q call.op) (hN : q.pos + q.held.length ≤ N) :
    ∃ c, RingBuffer.step b call = some (c, q.out call.op) ∧ Represents (q.next call.op) c := by
  cases call with
  | push t =>
    obtain ⟨c, hc, hr⟩ := hb.pushBuffer h hstep hadm hN
    exact ⟨c, by rw [RingBuffer.step, push_eq_pushBuffer h, hc]; rfl, hr⟩
  | pushBuffer t =>
    obtain ⟨c, hc, hr⟩ := hb.pushBuffer h hstep hadm hN
    exact ⟨c, by rw [RingBuffer.step, hc]; rfl, hr⟩
  | shift =>
    obtain ⟨c, hc, hr⟩ := hb.shiftBuffer h hstep hadm hN
    exact ⟨c, by rw [RingBuffer.step, shift_eq_shiftBuffer h, hc]; rfl, hr⟩
  | shiftBuffer n =>
    obtain ⟨c, hc, hr⟩ := hb.shiftBuffer h hstep hadm hN
    exact ⟨c, by rw [RingBuffer.step, hc]; rfl, hr⟩
  | clear => exact ⟨b.clear, rfl, hb.clear⟩

theorem toNat_size (hb : Represents q b) (h : Sized w S) : b.size.toNat = q.held.length := by
  have hle := hb.holds.length_le
  have hsize : b.size = BitVec.ofNat w q.held.length := by
    rw [RingBuffer.size, hb.end_eq, hb.start_eq, BitVec.ofNat_add, BitVec.add_comm,
      BitVec.add_sub_cancel]
  rw [hsize, h.toNat_ofNat hle]

theorem full_iff (hb : Represents q b) (h : Sized w S) :
    b.full = true ↔ q.held.length = S := by
  have hle := hb.holds.length_le
  have hsize := hb.toNat_size h
  rw [RingBuffer.full, decide_eq_true_eq, BitVec.le_def, h.toNat_size, ← RingBuffer.size, hsize]
  omega

theorem toNat_capacity (hb : Represents q b) (h : Sized w S) :
    b.capacity.toNat = S - q.held.length := by
  have hle := hb.holds.length_le
  have hsize := hb.toNat_size h
  have hS := h.toNat_size
  rw [RingBuffer.capacity, BitVec.toNat_sub_of_le (by rw [BitVec.le_def]; omega), hS, hsize]

/-- Once the end has passed the end of its type and the start has not, the buffer says
that it is empty whatever it holds. -/
theorem empty_iff (hb : Represents q b) (h : Sized w S) :
    b.empty = true ↔ q.held = [] ∨ 2 ^ w ≤ q.pos % 2 ^ w + q.held.length := by
  have hle := hb.holds.length_le
  have hpos := h.pos
  have hfits := h.fits
  have hlt := Nat.mod_lt q.pos (Nat.two_pow_pos w)
  rw [RingBuffer.empty, decide_eq_true_eq, BitVec.le_def, hb.end_eq, hb.start_eq,
    BitVec.toNat_ofNat, BitVec.toNat_ofNat, ← Nat.mod_add_mod, ← List.length_eq_zero_iff]
  by_cases hwrap : q.pos % 2 ^ w + q.held.length < 2 ^ w
  · rw [Nat.mod_eq_of_lt hwrap]
    omega
  · rw [Nat.mod_eq_sub_mod (by omega), Nat.mod_eq_of_lt (by omega)]
    omega

end Represents

theorem represents_new (data : Vector T S) :
    Represents Fifo.Queue.init (new data : RingBuffer T w S) :=
  ⟨rfl, rfl, RingWindow.Holds.nil data 0⟩

theorem represents_run (h : Sized w S) (data : Vector T S) {calls : List (Call T)}
    (hadm : Fifo.Queue.Admitted S (calls.map Call.op))
    (hstep : InStep w S (Fifo.puts (calls.map Call.op)).length) :
    ∃ b : RingBuffer T w S,
      PartialRun.run (Fifo.collect step) (new data, []) calls =
        some (b, (Fifo.Queue.init.run (calls.map Call.op)).taken) ∧
      Represents (Fifo.Queue.init.run (calls.map Call.op)) b := by
  refine Fifo.run_refines (represents_new data) ?_ hadm (Nat.le_refl _)
  intro q b call hb hop hN
  exact hb.step h hstep hop hN

/-- Every run that never puts more than there is room for, nor takes more than there is,
hands out what a queue does. The observers tell the length of the queue, but for `empty`. -/
theorem ringBuffer_refines_fifo (h : Sized w S) (data : Vector T S) {calls : List (Call T)}
    (hadm : Fifo.Queue.Admitted S (calls.map Call.op))
    (hstep : InStep w S (Fifo.puts (calls.map Call.op)).length) :
    let q := Fifo.Queue.init.run (calls.map Call.op)
    ∃ b : RingBuffer T w S,
      PartialRun.run (Fifo.collect step) (new data, []) calls = some (b, q.taken) ∧
      b.size.toNat = q.held.length ∧ (b.full = true ↔ q.held.length = S) ∧
      b.capacity.toNat = S - q.held.length ∧
      (b.empty = true ↔ q.held = [] ∨ 2 ^ w ≤ q.pos % 2 ^ w + q.held.length) := by
  obtain ⟨b, hrun, hb⟩ := represents_run h data hadm hstep
  exact ⟨b, hrun, hb.toNat_size h, hb.full_iff h, hb.toNat_capacity h, hb.empty_iff h⟩

theorem ringBuffer_refines_fifo_of_two :
    ∃ b : RingBuffer Nat 2 2,
      PartialRun.run (Fifo.collect step) (new #v[0, 0], [])
        [.push 5, .pushBuffer [6], .shift, .push 7] = some (b, [5]) ∧ b.full = true := by
  have hadm : Fifo.Queue.Admitted 2
      (([.push 5, .pushBuffer [6], .shift, .push 7] : List (Call Nat)).map Call.op) :=
    PartialRun.follows_of_prefixes (by decide)
  obtain ⟨b, hrun, -, hfull, -⟩ := ringBuffer_refines_fifo (w := 2) (S := 2) ⟨by decide, by decide⟩
    #v[0, 0] hadm (Or.inl (by decide))
  exact ⟨b, hrun, hfull.mpr rfl⟩

/-! A ring that does not divide the counters' type: the counter goes back to cell 0 too
early, and a value that was not taken yet is overwritten. -/

def oneAtATime (x : T) : Nat → List (Call T)
  | 0 => []
  | n + 1 => oneAtATime x n ++ [.push x] ++ [.shift]

theorem run_oneAtATime (x : T) (n : Nat) :
    (Fifo.Queue.init.run ((oneAtATime x n).map Call.op)).held = [] ∧
      (Fifo.Queue.init.run ((oneAtATime x n).map Call.op)).pos = n ∧
      (Fifo.puts ((oneAtATime x n).map Call.op)).length = n := by
  induction n with
  | zero => exact ⟨rfl, rfl, rfl⟩
  | succ n ih =>
    obtain ⟨hheld, hpos, hputs⟩ := ih
    have hrun : Fifo.Queue.init.run ((oneAtATime x (n + 1)).map Call.op) =
        ((Fifo.Queue.init.run ((oneAtATime x n).map Call.op)).next (.put [x])).next (.take 1) := by
      simp only [oneAtATime, List.map_append, List.map_singleton, Fifo.run_concat, Call.op]
    rw [hrun]
    refine ⟨by simp [Fifo.Queue.next, hheld], by simp [Fifo.Queue.next, hpos], ?_⟩
    simp [oneAtATime, Fifo.puts_append, Fifo.puts, Call.op, hputs]

theorem admitted_oneAtATime (hS : 0 < S) (x : T) (n : Nat) :
    Fifo.Queue.Admitted S ((oneAtATime x n).map Call.op) := by
  induction n with
  | zero => exact PartialRun.follows_nil _
  | succ n ih =>
    obtain ⟨hheld, -, -⟩ := run_oneAtATime x n
    simp only [oneAtATime, List.map_append, List.map_singleton]
    refine PartialRun.follows_concat.mpr ⟨PartialRun.follows_concat.mpr ⟨ih, ?_⟩, ?_⟩
    · simp only [Call.op, Fifo.Queue.Admits, hheld]
      exact hS
    · simp [Call.op, Fifo.Queue.Admits, Fifo.run_concat, Fifo.Queue.next, hheld]

def overrun (w S : Nat) (x y : T) : List (Call T) :=
  oneAtATime x (2 ^ w - 1) ++ [.push x] ++ [.pushBuffer (List.replicate (2 ^ w % S) y)] ++
    [.shiftBuffer 1]

theorem admitted_overrun (hS : 0 < S) (x y : T) (hlt : 2 ^ w % S < S) :
    Fifo.Queue.Admitted S ((overrun w S x y).map Call.op) := by
  obtain ⟨hheld, -, -⟩ := run_oneAtATime x (2 ^ w - 1)
  simp only [overrun, List.map_append, List.map_singleton]
  refine PartialRun.follows_concat.mpr ⟨PartialRun.follows_concat.mpr
    ⟨PartialRun.follows_concat.mpr ⟨admitted_oneAtATime hS x _, ?_⟩, ?_⟩, ?_⟩
  · simp only [Call.op, Fifo.Queue.Admits, hheld]
    exact hS
  · simp only [Call.op, Fifo.Queue.Admits, Fifo.run_concat, Fifo.Queue.next, hheld,
      List.length_replicate, List.nil_append, List.length_singleton]
    omega
  · simp only [Call.op, Fifo.Queue.Admits, Fifo.run_concat, Fifo.Queue.next, hheld,
      List.nil_append, List.length_append, List.length_singleton]
    omega

theorem shift_overwritten (h : Sized w S) (hdvd : ¬ S ∣ 2 ^ w) {q : Fifo.Queue T}
    (hb : Represents q b) (hheld : q.held = []) (hpos : q.pos = 2 ^ w - 1) (x y : T) :
    ∃ c d e, b.push x = some c ∧ c.pushBuffer (List.replicate (2 ^ w % S) y) = some d ∧
      d.shiftBuffer 1 = some ([y], e) := by
  have hS := h.pos
  have hw := Nat.two_pow_pos w
  have hrest : 0 < 2 ^ w % S := Nat.pos_of_ne_zero fun hz => hdvd (Nat.dvd_of_mod_eq_zero hz)
  have hlt := Nat.mod_lt (2 ^ w) hS
  have hlast : (2 ^ w - 1) % S = 2 ^ w % S - 1 := by
    have hdiv := Nat.div_add_mod (2 ^ w) S
    have hsplit : 2 ^ w - 1 = 2 ^ w % S - 1 + S * (2 ^ w / S) := by omega
    rw [hsplit, Nat.add_mul_mod_self_left, Nat.mod_eq_of_lt (by omega)]
  obtain ⟨c, hc, hr⟩ := hb.pushBuffer h (N := 2 ^ w - 1) (t := [x]) (Or.inr (by omega))
    (by rw [hheld]; exact hS) (by rw [hheld, hpos]; exact Nat.le_refl _)
  have hend : c.end_.toNat % S = 0 := by
    rw [hr.end_eq]
    simp only [Fifo.Queue.next, hheld, hpos, List.nil_append, List.length_singleton]
    rw [Nat.sub_add_cancel hw, BitVec.toNat_ofNat, Nat.mod_self, Nat.zero_mod]
  have hstart : c.start.toNat % S = 2 ^ w % S - 1 := by
    rw [hr.start_eq]
    simp only [Fifo.Queue.next, hpos]
    rw [BitVec.toNat_ofNat, Nat.mod_eq_of_lt (by omega : 2 ^ w - 1 < 2 ^ w), hlast]
  obtain ⟨data, hcopy, hnew, -⟩ := RingWindow.copyIn_eq c.data (i := 0)
    (List.replicate (2 ^ w % S) y) hS (by rw [List.length_replicate]; omega)
  have hcell : data[2 ^ w % S - 1]? = some y := by
    have hh := hnew (2 ^ w % S - 1) (by rw [List.length_replicate]; omega)
    rwa [Nat.zero_add, Nat.mod_eq_of_lt (by omega), List.getElem?_replicate,
      if_pos (by omega)] at hh
  have hout : RingWindow.copyOut data (2 ^ w % S - 1) 1 = some [y] := by
    refine RingWindow.copyOut_eq (by omega) hS rfl fun k hk => ?_
    obtain rfl : k = 0 := by omega
    rw [Nat.add_zero, Nat.mod_eq_of_lt (by omega), hcell]
    rfl
  have hd : c.pushBuffer (List.replicate (2 ^ w % S) y) =
      some { c with data, end_ := c.end_ + BitVec.ofNat w (2 ^ w % S) } := by
    rw [pushBuffer_eq h (by rw [List.length_replicate]; omega), hend, hcopy,
      List.length_replicate]
    rfl
  obtain ⟨e, he⟩ : ∃ e, RingBuffer.shiftBuffer
      { c with data, end_ := c.end_ + BitVec.ofNat w (2 ^ w % S) } 1 = some ([y], e) := by
    rw [shiftBuffer_eq h hS]
    simp only [hstart, hout]
    exact ⟨_, rfl⟩
  exact ⟨c, _, e, by rw [push_eq_pushBuffer h, hc], hd, he⟩

/-- The ring is a queue over runs of every length exactly when it divides the type
of its counters. -/
theorem implements_fifo_iff [Nontrivial T] (h : Sized w S) (data : Vector T S) :
    (∀ calls : List (Call T), Fifo.Queue.Admitted S (calls.map Call.op) →
      (PartialRun.run (Fifo.collect step) ((new data : RingBuffer T w S), []) calls).map Prod.snd =
        some (Fifo.Queue.init.run (calls.map Call.op)).taken) ↔ S ∣ 2 ^ w := by
  constructor
  · intro hall
    by_contra hdvd
    obtain ⟨x, y, hne⟩ := exists_pair_ne T
    have hS := h.pos
    have hlt := Nat.mod_lt (2 ^ w) hS
    have hw := Nat.two_pow_pos w
    obtain ⟨hheld, hpos, hputs⟩ := run_oneAtATime x (2 ^ w - 1)
    have hadm := admitted_oneAtATime hS x (2 ^ w - 1)
    obtain ⟨b, hrun, hb⟩ := represents_run h data hadm (Or.inr (by omega))
    obtain ⟨c, d, e, hc, hd, he⟩ := shift_overwritten h hdvd hb hheld hpos x y
    have hbad := hall _ (admitted_overrun hS x y hlt)
    simp only [overrun, PartialRun.run_concat, hrun, Option.bind_some, Fifo.collect, step, hc, hd, he,
      Option.map_some, List.map_append, List.map_singleton, Fifo.run_concat, Call.op,
      Fifo.Queue.next, hheld, List.nil_append, List.append_nil, Option.some.injEq,
      List.append_cancel_left_eq] at hbad
    simp at hbad
    exact hne hbad.symm
  · intro hdvd calls hadm
    obtain ⟨b, hrun, -⟩ := represents_run h data hadm (Or.inl hdvd)
    rw [hrun, Option.map_some]

theorem implements_fifo_iff_three : ¬ ∀ calls : List (Call Bool),
    Fifo.Queue.Admitted 3 (calls.map Call.op) →
      (PartialRun.run (Fifo.collect step)
        ((new #v[false, false, false] : RingBuffer Bool 3 3), []) calls).map Prod.snd =
        some (Fifo.Queue.init.run (calls.map Call.op)).taken :=
  (implements_fifo_iff ⟨by decide, by decide⟩ _).not.mpr (by decide)

end RingBuffer

end PluginSdk
