import Mathlib.Tactic.Linarith
import PluginSdk.Fifo
import PluginSdk.RingWindow

/-! `rack::dsp::AppleRingBuffer`: a list of at most `S` values that slides along a
block of `N` cells and is moved back to the first cell when the block ends. -/

namespace PluginSdk

structure AppleRingBuffer (T : Type*) (N : Nat) where
  start : Nat
  end_ : Nat
  data : Vector T N

namespace AppleRingBuffer

variable {T : Type*} {S N : Nat}

def size (b : AppleRingBuffer T N) : Nat := b.end_ - b.start

def returnBuffer (b : AppleRingBuffer T N) : Option (AppleRingBuffer T N) := do
  let s := b.size
  let data ← Cells.copy? b.data 0 b.start s
  some ⟨0, s, data⟩

def push (b : AppleRingBuffer T N) (t : T) : Option (AppleRingBuffer T N) := do
  let b ← if b.end_ + 1 > N then b.returnBuffer else some b
  let data ← Cells.write? b.data b.end_ t
  some { b with data, end_ := b.end_ + 1 }

def shift (b : AppleRingBuffer T N) : Option (T × AppleRingBuffer T N) := do
  let t ← Cells.read? b.data b.start
  some (t, { b with start := b.start + 1 })

def empty (b : AppleRingBuffer T N) : Bool := b.start == b.end_

def full (S : Nat) (b : AppleRingBuffer T N) : Bool := b.end_ - b.start == S

def capacity (S : Nat) (b : AppleRingBuffer T N) : Nat := S - b.size

/-- The pointer names the cell at the end of the buffer returned. -/
def endData (b : AppleRingBuffer T N) (n : Nat) : Option (AppleRingBuffer T N) :=
  if b.end_ + n > N then b.returnBuffer else some b

def endIncr (b : AppleRingBuffer T N) (n : Nat) : AppleRingBuffer T N :=
  { b with end_ := b.end_ + n }

def startData (b : AppleRingBuffer T N) : Nat := b.start

def startIncr (b : AppleRingBuffer T N) (n : Nat) : AppleRingBuffer T N :=
  { b with start := b.start + n }

/-- A user of `endData` writes through the pointer and then calls `endIncr`. -/
def appendThrough (b : AppleRingBuffer T N) (t : List T) : Option (AppleRingBuffer T N) := do
  let b ← b.endData t.length
  let data ← Cells.fill? b.data b.end_ (fun c => t[(c - b.end_).toNat]?) t.length
  some ({ b with data }.endIncr t.length)

/-- A user of `startData` reads through the pointer and then calls `startIncr`. -/
def consumeThrough (b : AppleRingBuffer T N) (n : Nat) : Option (List T × AppleRingBuffer T N) := do
  let t ← Cells.gather? b.data b.startData n
  some (t, b.startIncr n)

inductive Call (T : Type*)
  | push (t : T)
  | appendThrough (t : List T)
  | shift
  | consumeThrough (n : Nat)

def Call.op : Call T → Fifo.Op T
  | .push t => .put [t]
  | .appendThrough t => .put t
  | .shift => .take 1
  | .consumeThrough n => .take n

def step (b : AppleRingBuffer T N) : Call T → Option (AppleRingBuffer T N × List T)
  | .push t => (b.push t).map fun c => (c, [])
  | .appendThrough t => (b.appendThrough t).map fun c => (c, [])
  | .shift => b.shift.map fun c => (c.2, [c.1])
  | .consumeThrough n => (b.consumeThrough n).map fun c => (c.2, c.1)

/-- The values that a call moves to make room. -/
def moves (b : AppleRingBuffer T N) : Call T → Nat
  | .push _ => if b.end_ + 1 > N then b.size else 0
  | .appendThrough t => if b.end_ + t.length > N then b.size else 0
  | _ => 0

/-- A step, with the values moved since the start of the run. -/
def countedStep (b : AppleRingBuffer T N × Nat) (call : Call T) :
    Option ((AppleRingBuffer T N × Nat) × List T) :=
  (b.1.step call).map fun c => ((c.1, b.2 + b.1.moves call), c.2)

structure Represents (q : Fifo.Queue T) (b : AppleRingBuffer T N) : Prop where
  end_eq : b.end_ = b.start + q.held.length
  end_le : b.end_ ≤ N
  cell : ∀ k < q.held.length, b.data[b.start + k]? = q.held[k]?

variable {q : Fifo.Queue T} {b : AppleRingBuffer T N}

theorem push_eq_appendThrough (t : T) : b.push t = b.appendThrough [t] := by
  simp only [push, appendThrough, endData, endIncr, List.length_singleton, Cells.fill?,
    Option.bind_eq_bind, Option.bind_assoc, Int.sub_self]
  split_ifs <;> rfl

theorem shift_eq_consumeThrough :
    b.shift.map (fun c => (c.2, [c.1])) = (b.consumeThrough 1).map fun c => (c.2, c.1) := by
  simp only [shift, consumeThrough, startData, startIncr, Cells.gather?, Option.map_eq_bind,
    Option.bind_eq_bind, Option.bind_assoc, Function.comp_def, Option.bind_some]

namespace Represents

theorem size_eq (hb : Represents q b) : b.size = q.held.length := by
  have hend := hb.end_eq
  rw [size]
  omega

/-- Moving the values back makes room and keeps them. -/
theorem endData (hb : Represents q b) {n : Nat} (hroom : q.held.length + n ≤ N) :
    ∃ c, b.endData n = some c ∧ Represents q c ∧ c.end_ + n ≤ N ∧
      c.end_ = if b.end_ + n > N then q.held.length else b.end_ := by
  have hend := hb.end_eq
  have hle := hb.end_le
  by_cases hcut : b.end_ + n > N
  · obtain ⟨data, hcopy, hread⟩ : ∃ ys, Cells.copy? b.data (0 : Nat) b.start q.held.length =
        some ys ∧ ∀ j, ys[j]? = if 0 ≤ j ∧ j < 0 + q.held.length then b.data[j - 0 + b.start]?
          else b.data[j]? :=
      Cells.copy?_eq (by omega) (by omega)
    refine ⟨⟨0, q.held.length, data⟩, ?_, ⟨(Nat.zero_add _).symm, ?_, fun k hk => ?_⟩, ?_, ?_⟩
    · rw [AppleRingBuffer.endData, if_pos hcut, returnBuffer, hb.size_eq]
      exact congrArg (Option.bind · _) hcopy
    · exact Nat.le_trans (Nat.le_add_right _ n) hroom
    · rw [← hb.cell k hk, Nat.zero_add, hread, if_pos (by omega)]
      exact congrArg (b.data[·]?) (by omega)
    · exact hroom
    · rw [if_pos hcut]
  · refine ⟨b, by rw [AppleRingBuffer.endData, if_neg hcut], hb, by omega, by rw [if_neg hcut]⟩

theorem appendThrough (hb : Represents q b) {t : List T} (hroom : q.held.length + t.length ≤ N) :
    ∃ c, b.appendThrough t = some c ∧ Represents (q.next (.put t)) c ∧
      c.end_ = (if b.end_ + t.length > N then q.held.length else b.end_) + t.length := by
  obtain ⟨c, hc, hr, hfits, hcend⟩ := hb.endData hroom
  have hend := hr.end_eq
  obtain ⟨data, hfill⟩ : ∃ ys, Cells.fill? c.data c.end_ (fun i => t[(i - c.end_).toNat]?)
      t.length = some ys :=
    Cells.fill?_exists_iff.mpr fun i hlo hhi =>
      ⟨by omega, by omega, t[(i - c.end_).toNat], List.getElem?_eq_getElem (by omega)⟩
  have hread := Cells.getElem?_fill? hfill
  refine ⟨{ c with data, end_ := c.end_ + t.length }, ?_, ⟨?_, hfits, fun k hk => ?_⟩, ?_⟩
  · rw [AppleRingBuffer.appendThrough, hc]
    exact congrArg (Option.bind · _) hfill
  · simp only [Fifo.Queue.next, List.length_append]
    omega
  · simp only [Fifo.Queue.next, List.length_append] at hk ⊢
    by_cases hheld : k < q.held.length
    · rw [hread, if_neg (by omega), hr.cell k hheld, List.getElem?_append_left hheld]
    · rw [hread, if_pos (by omega), List.getElem?_append_right (by omega)]
      exact congrArg (t[·]?) (by omega)
  · exact congrArg (· + t.length) hcend

theorem gather (hb : Represents q b) {n : Nat} (hn : n ≤ q.held.length) :
    Cells.gather? b.data b.startData n = some (q.held.take n) := by
  refine Cells.gather?_eq_some (by rw [List.length_take]; omega) fun k hk => ?_
  rw [← Int.natCast_add, Cells.read?_natCast, List.getElem?_take_of_lt hk]
  exact hb.cell k (by omega)

theorem consumeThrough (hb : Represents q b) {n : Nat} (hn : n ≤ q.held.length) :
    b.consumeThrough n = some (q.out (.take n), b.startIncr n) ∧
      Represents (q.next (.take n)) (b.startIncr n) := by
  have hend := hb.end_eq
  refine ⟨by rw [AppleRingBuffer.consumeThrough, hb.gather hn]; rfl, ?_, hb.end_le, fun k hk => ?_⟩
  · simp only [startIncr, Fifo.Queue.next, List.length_drop]
    omega
  · simp only [startIncr, Fifo.Queue.next, List.length_drop] at hk ⊢
    rw [Nat.add_assoc, hb.cell _ (by omega), List.getElem?_drop]

end Represents

theorem represents_init (data : Vector T N) :
    Represents Fifo.Queue.init (⟨0, 0, data⟩ : AppleRingBuffer T N) :=
  ⟨rfl, Nat.zero_le N, fun _ hk => absurd hk (Nat.not_lt_zero _)⟩

/-- Values moved are paid for by the distance that the end has advanced: it is set back
by more than `N - S` cells for at most `S` values. -/
structure Paid (S : Nat) (q : Fifo.Queue T) (b : AppleRingBuffer T N × Nat) : Prop where
  represents : Represents q b.1
  paid : b.2 * (N - S + 1) + S * b.1.end_ ≤ S * (q.pos + q.held.length)

theorem paid_put {S N held n e total moved : Nat} (hS : S ≤ N) (hroom : held + n ≤ S) (he : e ≤ N)
    (hpaid : moved * (N - S + 1) + S * e ≤ S * total) :
    (moved + if e + n > N then held else 0) * (N - S + 1) +
      S * ((if e + n > N then held else e) + n) ≤ S * (total + n) := by
  split_ifs with hcut
  · obtain ⟨d, rfl⟩ := Nat.exists_eq_add_of_le hS
    obtain ⟨r, rfl⟩ := Nat.exists_eq_add_of_le hroom
    have hd : held + n + r + d - (held + n + r) + 1 = d + 1 := by omega
    rw [hd] at hpaid ⊢
    -- the end was at least this far, and the values moved are what is held
    have hfar : held + r + d + 1 ≤ e := by omega
    nlinarith [Nat.mul_le_mul_left (held + n + r) hfar]
  · rw [Nat.add_zero, Nat.mul_add S e n, Nat.mul_add S total n]
    omega

namespace Paid

variable {m : Nat}

theorem put (h : Paid S q (b, m)) (hS : S ≤ N) {t : List T}
    (hroom : q.held.length + t.length ≤ S) :
    ∃ c, b.appendThrough t = some c ∧
      Paid S (q.next (.put t))
        (c, m + if b.end_ + t.length > N then b.size else 0) := by
  obtain ⟨c, hc, hr, hend⟩ := h.represents.appendThrough (t := t) (by omega)
  have hpaid := paid_put hS hroom h.represents.end_le h.paid
  refine ⟨c, hc, hr, ?_⟩
  simp only [hend, h.represents.size_eq, Fifo.Queue.next, List.length_append]
  rwa [← Nat.add_assoc]

theorem take (h : Paid S q (b, m)) {n : Nat} (hn : n ≤ q.held.length) :
    Paid S (q.next (.take n)) (b.startIncr n, m) := by
  have hpaid := h.paid
  refine ⟨(h.represents.consumeThrough hn).2, ?_⟩
  simp only [startIncr, Fifo.Queue.next, List.length_drop]
  have hlen : q.pos + n + (q.held.length - n) = q.pos + q.held.length := by omega
  rwa [hlen]

theorem step (h : Paid S q (b, m)) (hS : S ≤ N) {call : Call T}
    (hadm : Fifo.Queue.Admits S q call.op) :
    ∃ c, countedStep (b, m) call = some (c, q.out call.op) ∧ Paid S (q.next call.op) c := by
  cases call with
  | push t =>
    obtain ⟨c, hc, hp⟩ := h.put hS hadm
    exact ⟨_, by rw [countedStep, AppleRingBuffer.step, push_eq_appendThrough, hc]; rfl, hp⟩
  | appendThrough t =>
    obtain ⟨c, hc, hp⟩ := h.put hS hadm
    exact ⟨_, by rw [countedStep, AppleRingBuffer.step, hc]; rfl, hp⟩
  | shift =>
    have hc := (h.represents.consumeThrough hadm).1
    exact ⟨_, by
      rw [countedStep, AppleRingBuffer.step, shift_eq_consumeThrough, hc]; rfl, h.take hadm⟩
  | consumeThrough n =>
    have hc := (h.represents.consumeThrough hadm).1
    exact ⟨_, by rw [countedStep, AppleRingBuffer.step, hc]; rfl, h.take hadm⟩

end Paid

/-- Every admitted run hands out what a queue does, never leaves the block, keeps the whole
queue in one piece from `startData` on, and moves at most `S` values for each `N - S + 1`
that are put. -/
theorem appleRingBuffer_refines_fifo (hS : S ≤ N) (data : Vector T N) {calls : List (Call T)}
    (hadm : Fifo.Queue.Admitted S (calls.map Call.op)) :
    let q := Fifo.Queue.init.run (calls.map Call.op)
    ∃ (b : AppleRingBuffer T N) (moved : Nat),
      PartialRun.run (Fifo.collect countedStep) ((⟨0, 0, data⟩, 0), []) calls =
        some ((b, moved), q.taken) ∧
      Cells.gather? b.data b.startData b.size = some q.held ∧
      (b.empty = true ↔ q.held = []) ∧ (b.full S = true ↔ q.held.length = S) ∧
      b.capacity S = S - q.held.length ∧
      moved * (N - S + 1) ≤ S * (Fifo.puts (calls.map Call.op)).length := by
  intro q
  obtain ⟨⟨b, moved⟩, hrun, h⟩ : ∃ b : AppleRingBuffer T N × Nat,
      PartialRun.run (Fifo.collect countedStep) ((⟨0, 0, data⟩, 0), []) calls =
        some (b, q.taken) ∧ Paid S q b := by
    refine Fifo.run_refines (S := S) ⟨represents_init data, ?_⟩ ?_ hadm (Nat.le_refl _)
    · intro q b call hb hop _
      exact hb.step hS hop
    · exact Nat.le_of_eq (Nat.zero_mul _)
  have hend : b.end_ = b.start + q.held.length := h.represents.end_eq
  have hsize : b.size = q.held.length := h.represents.size_eq
  have hpaid : moved * (N - S + 1) + S * b.end_ ≤ S * (q.pos + q.held.length) := h.paid
  have htotal : q.pos + q.held.length = _ := Fifo.end_eq_puts hadm
  refine ⟨b, moved, hrun, ?_, ?_, ?_, by rw [capacity, hsize], ?_⟩
  · rw [hsize]
    exact (h.represents.gather (Nat.le_refl _)).trans (congrArg some (List.take_length))
  · rw [empty, beq_iff_eq, ← List.length_eq_zero_iff]
    omega
  · rw [full, beq_iff_eq]
    omega
  · rw [← htotal]
    omega

theorem appleRingBuffer_refines_fifo_of_two :
    ∃ (b : AppleRingBuffer Nat 3) (moved : Nat),
      PartialRun.run (Fifo.collect countedStep) ((⟨0, 0, #v[0, 0, 0]⟩, 0), [])
        [.push 5, .appendThrough [6], .shift, .push 7, .consumeThrough 1, .push 8] =
        some ((b, moved), [5, 6]) ∧
      Cells.gather? b.data b.startData b.size = some [7, 8] ∧ moved ≤ 4 := by
  have hadm : Fifo.Queue.Admitted 2 (([.push 5, .appendThrough [6], .shift, .push 7,
      .consumeThrough 1, .push 8] : List (Call Nat)).map Call.op) :=
    PartialRun.follows_of_prefixes (by decide)
  obtain ⟨b, moved, hrun, hheld, -, -, -, hmoved⟩ :=
    appleRingBuffer_refines_fifo (by decide : 2 ≤ 3) #v[0, 0, 0] hadm
  have hbound : moved * 2 ≤ 2 * 4 := hmoved
  exact ⟨b, moved, hrun, hheld, by omega⟩

end AppleRingBuffer

end PluginSdk
