import PluginSdk.RingBuffer

/-! `rack::dsp::DoubleRingBuffer`: the ring is kept twice, one copy after the other,
so that what it holds can be read and written in one piece from any cell. -/

namespace PluginSdk

structure DoubleRingBuffer (T : Type*) (w S : Nat) where
  start : BitVec w
  end_ : BitVec w
  data : Vector T (2 * S)

namespace DoubleRingBuffer

variable {T : Type*} {w S : Nat}

def push (b : DoubleRingBuffer T w S) (t : T) : Option (DoubleRingBuffer T w S) := do
  let i := b.end_ % BitVec.ofNat w S
  let data ← Cells.write? b.data i.toNat t
  let data ← Cells.write? data (i + BitVec.ofNat w S).toNat t
  some { b with data, end_ := b.end_ + 1#w }

def shift (b : DoubleRingBuffer T w S) : Option (T × DoubleRingBuffer T w S) := do
  let i := b.start % BitVec.ofNat w S
  let t ← Cells.read? b.data i.toNat
  some (t, { b with start := b.start + 1#w })

def clear (b : DoubleRingBuffer T w S) : DoubleRingBuffer T w S := { b with start := b.end_ }

def empty (b : DoubleRingBuffer T w S) : Bool := b.end_ ≤ b.start

def size (b : DoubleRingBuffer T w S) : BitVec w := b.end_ - b.start

def full (b : DoubleRingBuffer T w S) : Bool := BitVec.ofNat w S ≤ b.end_ - b.start

def capacity (b : DoubleRingBuffer T w S) : BitVec w := BitVec.ofNat w S - b.size

/-- The cell that the returned pointer names. -/
def endData (b : DoubleRingBuffer T w S) : Nat := (b.end_ % BitVec.ofNat w S).toNat

def endIncr (b : DoubleRingBuffer T w S) (n : Nat) : Option (DoubleRingBuffer T w S) := do
  let n := BitVec.ofNat w n
  let size := BitVec.ofNat w S
  let i := b.end_ % size
  let e1 := i + n
  let e2 := if e1 < size then e1 else size
  let forward ← Cells.copy? b.data (size + i).toNat i.toNat (e2 - i).toNat
  let data ←
    if e1 > size then Cells.copy? forward 0 size.toNat (e1 - size).toNat else some forward
  some { b with data, end_ := b.end_ + n }

def startData (b : DoubleRingBuffer T w S) : Nat := (b.start % BitVec.ofNat w S).toNat

def startIncr (b : DoubleRingBuffer T w S) (n : Nat) : DoubleRingBuffer T w S :=
  { b with start := b.start + BitVec.ofNat w n }

/-- A user of `endData` writes through the pointer and then calls `endIncr`. -/
def appendThrough (b : DoubleRingBuffer T w S) (t : List T) : Option (DoubleRingBuffer T w S) := do
  let data ← Cells.fill? b.data b.endData (fun c => t[(c - b.endData).toNat]?) t.length
  { b with data }.endIncr t.length

/-- A user of `startData` reads through the pointer and then calls `startIncr`. -/
def consumeThrough (b : DoubleRingBuffer T w S) (n : Nat) :
    Option (List T × DoubleRingBuffer T w S) := do
  let t ← Cells.gather? b.data b.startData n
  some (t, b.startIncr n)

def new (data : Vector T (2 * S)) : DoubleRingBuffer T w S := ⟨0#w, 0#w, data⟩

inductive Call (T : Type*)
  | push (t : T)
  | appendThrough (t : List T)
  | shift
  | consumeThrough (n : Nat)
  | clear

def Call.op : Call T → Fifo.Op T
  | .push t => .put [t]
  | .appendThrough t => .put t
  | .shift => .take 1
  | .consumeThrough n => .take n
  | .clear => .clear

def step (b : DoubleRingBuffer T w S) : Call T → Option (DoubleRingBuffer T w S × List T)
  | .push t => (b.push t).map fun c => (c, [])
  | .appendThrough t => (b.appendThrough t).map fun c => (c, [])
  | .shift => b.shift.map fun c => (c.2, [c.1])
  | .consumeThrough n => (b.consumeThrough n).map fun c => (c.2, c.1)
  | .clear => some (b.clear, [])

def lower (data : Vector T (2 * S)) : Vector T S :=
  Vector.ofFn fun i => data[(i : Nat)]

def upper (data : Vector T (2 * S)) : Vector T S :=
  Vector.ofFn fun i => data[S + (i : Nat)]

theorem getElem?_lower (data : Vector T (2 * S)) {j : Nat} (hj : j < S) :
    (lower data)[j]? = data[j]? := by
  have hlt : j < 2 * S := by omega
  rw [Vector.getElem?_eq_getElem hj, Vector.getElem?_eq_getElem hlt]
  simp [lower]

theorem getElem?_upper (data : Vector T (2 * S)) {j : Nat} (hj : j < S) :
    (upper data)[j]? = data[S + j]? := by
  have hlt : S + j < 2 * S := by omega
  rw [Vector.getElem?_eq_getElem hj, Vector.getElem?_eq_getElem hlt]
  simp [upper]

/-- Both copies of the ring hold the list. -/
structure Holds (data : Vector T (2 * S)) (a : Nat) (xs : List T) : Prop where
  lower : RingWindow.Holds (lower data) a xs
  upper : RingWindow.Holds (upper data) a xs

/-- Written at cell `i` in both copies, over their ends. -/
structure Written (data data' : Vector T (2 * S)) (i : Nat) (t : List T) : Prop where
  new : ∀ k < t.length, data'[(i + k) % S]? = t[k]? ∧ data'[S + (i + k) % S]? = t[k]?
  old : ∀ j < S, (∀ k < t.length, j ≠ (i + k) % S) →
    data'[j]? = data[j]? ∧ data'[S + j]? = data[S + j]?

namespace Holds

variable {data data' : Vector T (2 * S)} {a : Nat} {xs : List T}

theorem nil (data : Vector T (2 * S)) (a : Nat) : Holds data a [] :=
  ⟨RingWindow.Holds.nil _ a, RingWindow.Holds.nil _ a⟩

theorem drop (h : Holds data a xs) {n : Nat} (hn : n ≤ xs.length) :
    Holds data (a + n) (xs.drop n) :=
  ⟨h.lower.drop hn, h.upper.drop hn⟩

theorem append (h : Holds data a xs) (hS : 0 < S) {t : List T}
    (hlen : xs.length + t.length ≤ S) (hw : Written data data' ((a + xs.length) % S) t) :
    Holds data' a (xs ++ t) := by
  have hnew := hw.new
  have hold := hw.old
  simp only [RingWindow.slot_add] at hnew hold
  constructor
  · refine h.lower.append hlen (fun k hk => ?_) fun j hj hno => ?_
    · rw [getElem?_lower _ (Nat.mod_lt _ hS)]
      exact (hnew k hk).1
    · rw [getElem?_lower _ hj, getElem?_lower _ hj]
      exact (hold j hj hno).1
  · refine h.upper.append hlen (fun k hk => ?_) fun j hj hno => ?_
    · rw [getElem?_upper _ (Nat.mod_lt _ hS)]
      exact (hnew k hk).2
    · rw [getElem?_upper _ hj, getElem?_upper _ hj]
      exact (hold j hj hno).2

/-- The list can be read in one piece, the end of it perhaps from the second copy. -/
theorem gather (h : Holds data a xs) (hS : 0 < S) {n : Nat} (hn : n ≤ xs.length) :
    Cells.gather? data (a % S : Nat) n = some (xs.take n) := by
  have hle := h.lower.length_le
  have hlt := Nat.mod_lt a hS
  refine Cells.gather?_eq_some (by rw [List.length_take]; omega) fun k hk => ?_
  rw [← Int.natCast_add, Cells.read?_natCast, List.getElem?_take_of_lt hk]
  by_cases hcut : a % S + k < S
  · rw [← h.lower.cell k (by omega), ← RingWindow.slot_add, RingWindow.slot_of_lt hcut,
      getElem?_lower _ hcut]
  · rw [← h.upper.cell k (by omega), ← RingWindow.slot_add,
      RingWindow.slot_of_ge (by omega) (by omega), getElem?_upper _ (by omega)]
    exact congrArg (data[·]?) (by omega)

end Holds

open RingBuffer (Sized InStep)

theorem toNat_upper (h : Sized w S) (c : BitVec w) :
    (BitVec.ofNat w S + c % BitVec.ofNat w S).toNat = S + c.toNat % S := by
  have hlt := Nat.mod_lt c.toNat h.pos
  have hfits := h.fits
  have hi := h.toNat_index c
  have hsize := h.toNat_size
  rw [BitVec.toNat_add_of_lt (by omega), hi, hsize]

variable {b : DoubleRingBuffer T w S}

theorem push_written (h : Sized w S) (t : T) :
    ∃ data, b.push t = some { b with data, end_ := b.end_ + 1#w } ∧
      Written b.data data (b.end_.toNat % S) [t] := by
  have hlt := Nat.mod_lt b.end_.toNat h.pos
  have hlow : (0 : Int) ≤ (b.end_.toNat % S : Nat) ∧ ((b.end_.toNat % S : Nat) : Int) < (2 * S : Nat) := by
    omega
  have hhigh : (0 : Int) ≤ (S + b.end_.toNat % S : Nat) ∧
      ((S + b.end_.toNat % S : Nat) : Int) < (2 * S : Nat) := by
    omega
  have hpush : b.push t = some { b with
      data := (b.data.setIfInBounds (b.end_.toNat % S) t).setIfInBounds (S + b.end_.toNat % S) t
      end_ := b.end_ + 1#w } := by
    rw [push, BitVec.add_comm, toNat_upper h, h.toNat_index]
    simp only [Cells.write?, if_pos hlow, if_pos hhigh, Option.bind_eq_bind, Option.bind_some,
      Int.toNat_natCast]
  refine ⟨_, hpush, fun k hk => ?_, fun j hj hno => ?_⟩
  · obtain rfl : k = 0 := by
      rw [List.length_singleton] at hk
      omega
    rw [Nat.add_zero, Nat.mod_mod]
    simp only [Vector.getElem?_setIfInBounds]
    constructor
    · rw [if_neg (by omega), if_pos trivial, if_pos (by omega)]
      rfl
    · rw [if_pos trivial, if_pos (by omega)]
      rfl
  · have hne := hno 0 Nat.one_pos
    rw [Nat.add_zero, Nat.mod_mod] at hne
    simp only [Vector.getElem?_setIfInBounds]
    exact ⟨by rw [if_neg (by omega), if_neg (by omega)], by rw [if_neg (by omega), if_neg (by omega)]⟩

/-- The copy forward and then back leaves both rings with what was written through the pointer. -/
theorem copies_written (data : Vector T (2 * S)) {i : Nat} (hi : i < S) {t : List T}
    (hn : t.length ≤ S) :
    ∃ one two three, Cells.fill? data i (fun c => t[(c - i).toNat]?) t.length = some one ∧
      Cells.copy? one (S + i : Nat) i (min (i + t.length) S - i) = some two ∧
      (if S < i + t.length then Cells.copy? two 0 S (i + t.length - S) else some two) =
        some three ∧
      Written data three i t := by
  obtain ⟨one, hone⟩ : ∃ ys, Cells.fill? data i (fun c => t[(c - i).toNat]?) t.length = some ys :=
    Cells.fill?_exists_iff.mpr fun c hlo hhi =>
      ⟨by omega, by omega, t[(c - i).toNat], List.getElem?_eq_getElem (by omega)⟩
  have read₁ := Cells.getElem?_fill? hone
  obtain ⟨two, htwo, read₂⟩ : ∃ ys, Cells.copy? one (S + i : Nat) i (min (i + t.length) S - i) =
      some ys ∧ ∀ j, ys[j]? = if S + i ≤ j ∧ j < S + i + (min (i + t.length) S - i) then
        one[j - (S + i) + i]? else one[j]? :=
    Cells.copy?_eq (by omega) (by omega)
  obtain ⟨three, hthree, read₃⟩ : ∃ ys, (if S < i + t.length then
        Cells.copy? two 0 S (i + t.length - S) else some two) = some ys ∧
      ∀ j, ys[j]? = if j < i + t.length - S then two[j + S]? else two[j]? := by
    by_cases hcut : S < i + t.length
    · obtain ⟨ys, hys, hread⟩ : ∃ ys, Cells.copy? two (0 : Nat) S (i + t.length - S) = some ys ∧
          ∀ j, ys[j]? = if 0 ≤ j ∧ j < 0 + (i + t.length - S) then two[j - 0 + S]? else two[j]? :=
        Cells.copy?_eq (by omega) (by omega)
      rw [if_pos hcut]
      refine ⟨ys, hys, fun j => ?_⟩
      simpa using hread j
    · rw [if_neg hcut]
      exact ⟨two, rfl, fun j => by rw [if_neg (by omega)]⟩
  refine ⟨one, two, three, hone, htwo, hthree, fun k hk => ?_, fun j hj hno => ?_⟩
  · by_cases hfar : i + k < S
    · rw [RingWindow.slot_of_lt hfar]
      constructor
      · rw [read₃, if_neg (by omega), read₂, if_neg (by omega), read₁, if_pos (by omega)]
        exact congrArg (t[·]?) (by omega)
      · rw [read₃, if_neg (by omega), read₂, if_pos (by omega), read₁, if_pos (by omega)]
        exact congrArg (t[·]?) (by omega)
    · rw [RingWindow.slot_of_ge (by omega) (by omega)]
      constructor
      · rw [read₃, if_pos (by omega), read₂, if_neg (by omega), read₁, if_pos (by omega)]
        exact congrArg (t[·]?) (by omega)
      · rw [read₃, if_neg (by omega), read₂, if_neg (by omega), read₁, if_pos (by omega)]
        exact congrArg (t[·]?) (by omega)
  · have hnear : ¬ (i ≤ j ∧ j < i + t.length) := fun hc => hno (j - i) (by omega) (by
      rw [RingWindow.slot_of_lt (by omega)]
      omega)
    have hover : ¬ j < i + t.length - S := fun hc => hno (j + S - i) (by omega) (by
      rw [RingWindow.slot_of_ge (by omega) (by omega)]
      omega)
    constructor
    · rw [read₃, if_neg hover, read₂, if_neg (by omega), read₁, if_neg (by omega)]
    · rw [read₃, if_neg (by omega), read₂, if_neg (by omega), read₁, if_neg (by omega)]

theorem appendThrough_written (h : Sized w S) {t : List T} (hn : t.length ≤ S) :
    ∃ data, b.appendThrough t = some { b with data, end_ := b.end_ + BitVec.ofNat w t.length } ∧
      Written b.data data (b.end_.toNat % S) t := by
  obtain ⟨one, two, three, hone, htwo, hthree, hw⟩ :=
    copies_written b.data (Nat.mod_lt b.end_.toNat h.pos) hn
  refine ⟨three, ?_, hw⟩
  by_cases hcut : S < b.end_.toNat % S + t.length
  · rw [if_pos hcut] at hthree
    have hfar := (h.far_gt_iff b.end_ hn).mpr hcut
    simp only [appendThrough, endData, endIncr, h.toNat_index, toNat_upper h, h.toNat_front _ hn,
      hone, htwo, if_pos hfar, h.toNat_size, h.toNat_back _ hn hcut, hthree, Option.bind_eq_bind,
      Option.bind_some]
  · rw [if_neg hcut] at hthree
    obtain rfl := Option.some.inj hthree
    have hnear : ¬ b.end_ % BitVec.ofNat w S + BitVec.ofNat w t.length > BitVec.ofNat w S :=
      fun hc => hcut ((h.far_gt_iff b.end_ hn).mp hc)
    simp only [appendThrough, endData, endIncr, h.toNat_index, toNat_upper h, h.toNat_front _ hn,
      hone, htwo, if_neg hnear, Option.bind_eq_bind, Option.bind_some]

theorem shift_eq_consumeThrough :
    b.shift.map (fun c => (c.2, [c.1])) = (b.consumeThrough 1).map fun c => (c.2, c.1) := by
  simp only [shift, consumeThrough, startData, startIncr, Cells.gather?, Option.map_eq_bind,
    Option.bind_eq_bind, Option.bind_assoc, Function.comp_def, Option.bind_some]

/-- The ring without its second copy. -/
def toRing (b : DoubleRingBuffer T w S) : RingBuffer T w S := ⟨b.start, b.end_, lower b.data⟩

/-- Both copies hold the queue, the counters the positions where it starts and ends. -/
structure Represents (q : Fifo.Queue T) (b : DoubleRingBuffer T w S) : Prop where
  start_eq : b.start = BitVec.ofNat w q.pos
  end_eq : b.end_ = BitVec.ofNat w (q.pos + q.held.length)
  holds : Holds b.data q.pos q.held

namespace Represents

variable {q : Fifo.Queue T} {N : Nat}

theorem put (hb : Represents q b) (h : Sized w S) (hstep : InStep w S N) {t : List T}
    (hroom : q.held.length + t.length ≤ S) (hN : q.pos + q.held.length ≤ N)
    {data : Vector T (2 * S)} (hw : Written b.data data (b.end_.toNat % S) t) :
    Represents (q.next (.put t)) { b with data, end_ := b.end_ + BitVec.ofNat w t.length } := by
  rw [hb.end_eq, hstep.index_eq hN] at hw
  refine ⟨hb.start_eq, ?_, hb.holds.append h.pos hroom hw⟩
  simp only [Fifo.Queue.next, List.length_append, ← Nat.add_assoc, hb.end_eq]
  exact (BitVec.ofNat_add _ _).symm

theorem take (hb : Represents q b) {n : Nat} (hn : n ≤ q.held.length) :
    Represents (q.next (.take n)) (b.startIncr n) := by
  refine ⟨?_, ?_, hb.holds.drop hn⟩
  · simp only [startIncr, Fifo.Queue.next, hb.start_eq]
    exact (BitVec.ofNat_add _ _).symm
  · simp only [startIncr, Fifo.Queue.next, List.length_drop, hb.end_eq]
    exact congrArg _ (by omega)

theorem gather (hb : Represents q b) (h : Sized w S) (hstep : InStep w S N) {n : Nat}
    (hn : n ≤ q.held.length) (hN : q.pos + q.held.length ≤ N) :
    Cells.gather? b.data b.startData n = some (q.held.take n) := by
  rw [startData, h.toNat_index, hb.start_eq, hstep.index_eq (by omega)]
  exact hb.holds.gather h.pos hn

theorem step (hb : Represents q b) (h : Sized w S) (hstep : InStep w S N) {call : Call T}
    (hadm : Fifo.Queue.Admits S q call.op) (hN : q.pos + q.held.length ≤ N) :
    ∃ c, DoubleRingBuffer.step b call = some (c, q.out call.op) ∧
      Represents (q.next call.op) c := by
  cases call with
  | push t =>
    obtain ⟨data, hpush, hw⟩ := push_written (b := b) h t
    exact ⟨_, by rw [DoubleRingBuffer.step, hpush]; rfl, hb.put h hstep hadm hN hw⟩
  | appendThrough t =>
    simp only [Call.op, Fifo.Queue.Admits] at hadm
    obtain ⟨data, happend, hw⟩ := appendThrough_written (b := b) h (t := t) (by omega)
    exact ⟨_, by rw [DoubleRingBuffer.step, happend]; rfl, hb.put h hstep hadm hN hw⟩
  | shift =>
    refine ⟨b.startIncr 1, ?_, hb.take hadm⟩
    rw [DoubleRingBuffer.step, shift_eq_consumeThrough, consumeThrough,
      hb.gather h hstep hadm hN]
    rfl
  | consumeThrough n =>
    refine ⟨b.startIncr n, ?_, hb.take hadm⟩
    rw [DoubleRingBuffer.step, consumeThrough, hb.gather h hstep hadm hN]
    rfl
  | clear =>
    exact ⟨b.clear, rfl, hb.end_eq, hb.end_eq, Holds.nil _ _⟩

theorem toRing (hb : Represents q b) : RingBuffer.Represents q b.toRing :=
  ⟨hb.start_eq, hb.end_eq, hb.holds.lower⟩

end Represents

theorem represents_new (data : Vector T (2 * S)) :
    Represents Fifo.Queue.init (new data : DoubleRingBuffer T w S) :=
  ⟨rfl, rfl, Holds.nil data 0⟩

/-- Every admitted run hands out what a queue does, and after it the whole queue lies in one
piece from `startData` on, with `S` cells from `endData` on to append to. -/
theorem doubleRingBuffer_refines_fifo (h : Sized w S) (data : Vector T (2 * S)) {calls : List (Call T)}
    (hadm : Fifo.Queue.Admitted S (calls.map Call.op))
    (hstep : InStep w S (Fifo.puts (calls.map Call.op)).length) :
    let q := Fifo.Queue.init.run (calls.map Call.op)
    ∃ b : DoubleRingBuffer T w S,
      PartialRun.run (Fifo.collect step) (new data, []) calls = some (b, q.taken) ∧
      b.size.toNat = q.held.length ∧ (b.full = true ↔ q.held.length = S) ∧
      b.capacity.toNat = S - q.held.length ∧
      (b.empty = true ↔ q.held = [] ∨ 2 ^ w ≤ q.pos % 2 ^ w + q.held.length) ∧
      Cells.gather? b.data b.startData b.size.toNat = some q.held ∧
      b.startData + S ≤ 2 * S ∧ b.endData + S ≤ 2 * S := by
  intro q
  obtain ⟨b, hrun, hb⟩ : ∃ b : DoubleRingBuffer T w S,
      PartialRun.run (Fifo.collect step) (new data, []) calls = some (b, q.taken) ∧
      Represents q b := by
    refine Fifo.run_refines (represents_new data) ?_ hadm (Nat.le_refl _)
    intro q b call hb hop hN
    exact hb.step h hstep hop hN
  have hsize : b.size.toNat = q.held.length := hb.toRing.toNat_size h
  have hend := Fifo.end_eq_puts hadm
  refine ⟨b, hrun, hsize, hb.toRing.full_iff h, hb.toRing.toNat_capacity h,
    hb.toRing.empty_iff h, ?_, ?_, ?_⟩
  · rw [hsize, hb.gather h hstep (Nat.le_refl _) (Nat.le_of_eq hend), List.take_length]
  · have hlt := Nat.mod_lt b.start.toNat h.pos
    rw [startData, h.toNat_index]
    omega
  · have hlt := Nat.mod_lt b.end_.toNat h.pos
    rw [endData, h.toNat_index]
    omega

theorem doubleRingBuffer_refines_fifo_of_two :
    ∃ b : DoubleRingBuffer Nat 2 2,
      PartialRun.run (Fifo.collect step) (new #v[0, 0, 0, 0], [])
        [.push 5, .shift, .appendThrough [6, 7]] = some (b, [5]) ∧
      Cells.gather? b.data b.startData b.size.toNat = some [6, 7] := by
  have hadm : Fifo.Queue.Admitted 2
      (([.push 5, .shift, .appendThrough [6, 7]] : List (Call Nat)).map Call.op) :=
    PartialRun.follows_of_prefixes (by decide)
  obtain ⟨b, hrun, -, -, -, -, hheld, -⟩ := doubleRingBuffer_refines_fifo (w := 2) (S := 2)
    ⟨by decide, by decide⟩ #v[0, 0, 0, 0] hadm (Or.inl (by decide))
  exact ⟨b, hrun, hheld⟩

end DoubleRingBuffer

end PluginSdk
