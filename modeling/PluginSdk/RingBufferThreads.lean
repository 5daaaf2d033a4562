import PluginSdk.RingBuffer

/-! One thread that puts values into a `RingBuffer` and one that takes them out,
under every order of their steps. A call is taken apart at its accesses to what the
threads share, cell by cell; a cell holds no value while it is being written. -/

namespace PluginSdk

namespace RingBuffer

variable {T : Type*} {w S : Nat}

/-- `room` is what the producer has seen of it and not used since. In a copy, `k` cells
are written, and `writing` is in the middle of the next one. -/
inductive Producer (T : Type*)
  | idle (room : Nat)
  | copying (t : List T) (k : Nat)
  | writing (t : List T) (k : Nat)

/-- `avail` is what the consumer has seen of it and not used since. -/
inductive Consumer (T : Type*)
  | idle (avail : Nat)
  | copying (n : Nat) (t : List (Option T))

/-- With the values whose calls have returned. -/
structure Threads (T : Type*) (w S : Nat) where
  buffer : RingBuffer (Option T) w S
  producer : Producer T
  consumer : Consumer T
  pushed : List T
  shifted : List (Option T)

namespace Threads

def init (data : Vector (Option T) S) : Threads T w S where
  buffer := new data
  producer := .idle 0
  consumer := .idle 0
  pushed := []
  shifted := []

/-- The counter that a thread alone moves does not move between the loads of a call. -/
inductive ProducerStep : Threads T w S → Threads T w S → Prop
  | seesCapacity (c : Threads T w S) (room : Nat) (hc : c.producer = .idle room) :
    ProducerStep c { c with producer := .idle c.buffer.capacity.toNat }
  | seesNotFull (c : Threads T w S) (room : Nat) (hc : c.producer = .idle room)
      (hfull : c.buffer.full = false) :
    ProducerStep c { c with producer := .idle 1 }
  | startsCopy (c : Threads T w S) (room : Nat) (t : List T) (hc : c.producer = .idle room)
      (hroom : t.length ≤ room) :
    ProducerStep c { c with producer := .copying t 0 }
  | opensCell (c : Threads T w S) (t : List T) (k : Nat) (data : Vector (Option T) S)
      (hc : c.producer = .copying t k) (hk : k < t.length)
      (hwrite : Cells.write? c.buffer.data
        (((c.buffer.end_ % BitVec.ofNat w S).toNat + k) % S : Nat) none = some data) :
    ProducerStep c { c with producer := .writing t k, buffer := { c.buffer with data } }
  | fillsCell (c : Threads T w S) (t : List T) (k : Nat) (v : T) (data : Vector (Option T) S)
      (hc : c.producer = .writing t k) (hv : t[k]? = some v)
      (hwrite : Cells.write? c.buffer.data
        (((c.buffer.end_ % BitVec.ofNat w S).toNat + k) % S : Nat) (some v) = some data) :
    ProducerStep c { c with producer := .copying t (k + 1), buffer := { c.buffer with data } }
  | movesEnd (c : Threads T w S) (t : List T) (k : Nat) (hc : c.producer = .copying t k)
      (hk : k = t.length) :
    ProducerStep c { c with
      producer := .idle 0
      buffer := { c.buffer with end_ := c.buffer.end_ + BitVec.ofNat w t.length }
      pushed := c.pushed ++ t }

/-- A consumer may look at `size`, or only at `empty`. -/
inductive ConsumerStep (asksSize : Prop) : Threads T w S → Threads T w S → Prop
  | seesSize (c : Threads T w S) (avail : Nat) (hc : c.consumer = .idle avail)
      (hsize : asksSize) :
    ConsumerStep asksSize c { c with consumer := .idle c.buffer.size.toNat }
  | seesNotEmpty (c : Threads T w S) (avail : Nat) (hc : c.consumer = .idle avail)
      (hempty : c.buffer.empty = false) :
    ConsumerStep asksSize c { c with consumer := .idle 1 }
  | startsCopy (c : Threads T w S) (avail n : Nat) (hc : c.consumer = .idle avail)
      (hn : n ≤ avail) :
    ConsumerStep asksSize c { c with consumer := .copying n [] }
  | reads (c : Threads T w S) (n : Nat) (t : List (Option T)) (v : Option T)
      (hc : c.consumer = .copying n t) (ht : t.length < n)
      (hread : c.buffer.data[((c.buffer.start % BitVec.ofNat w S).toNat + t.length) % S]? =
        some v) :
    ConsumerStep asksSize c { c with consumer := .copying n (t ++ [v]) }
  | movesStart (c : Threads T w S) (n : Nat) (t : List (Option T))
      (hc : c.consumer = .copying n t) (ht : t.length = n) :
    ConsumerStep asksSize c { c with
      consumer := .idle 0
      buffer := { c.buffer with start := c.buffer.start + BitVec.ofNat w n }
      shifted := c.shifted ++ t }

inductive Reachable (asksSize : Prop) (data : Vector (Option T) S) : Threads T w S → Prop
  | init : Reachable asksSize data (init data)
  | producer {c d : Threads T w S} (hc : Reachable asksSize data c) (hd : ProducerStep c d) :
    Reachable asksSize data d
  | consumer {c d : Threads T w S} (hc : Reachable asksSize data c)
      (hd : ConsumerStep asksSize c d) :
    Reachable asksSize data d

/-- The cells that the thread in the middle of a copy may access. -/
def Writes (c : Threads T w S) (i : Nat) : Prop :=
  ∃ t k, (c.producer = .copying t k ∨ c.producer = .writing t k) ∧
    ∃ j < t.length, i = ((c.buffer.end_ % BitVec.ofNat w S).toNat + j) % S

def Reads (c : Threads T w S) (i : Nat) : Prop :=
  ∃ n t, c.consumer = .copying n t ∧
    ∃ k < n, i = ((c.buffer.start % BitVec.ofNat w S).toNat + k) % S

/-- What the buffer holds between the calls. -/
def queue (c : Threads T w S) : Fifo.Queue (Option T) where
  held := (c.pushed.drop c.shifted.length).map some
  pos := c.shifted.length
  taken := c.shifted

/-- The first `k` values of a copy stand behind what is held. -/
structure Copying (q : Fifo.Queue (Option T)) (data : Vector (Option T) S) (t : List T)
    (k : Nat) : Prop where
  room : q.held.length + t.length ≤ S
  count : k ≤ t.length
  holds : RingWindow.Holds data q.pos (q.held ++ (t.take k).map some)

structure Inv (c : Threads T w S) : Prop where
  shifted_le : c.shifted.length ≤ c.pushed.length
  shifted_eq : c.shifted = (c.pushed.take c.shifted.length).map some
  represents : Represents c.queue c.buffer
  room : ∀ room, c.producer = .idle room → c.queue.held.length + room ≤ S
  copying : ∀ t k, c.producer = .copying t k → Copying c.queue c.buffer.data t k
  writing : ∀ t k, c.producer = .writing t k →
    Copying c.queue c.buffer.data t k ∧ k < t.length
  avail : ∀ avail, c.consumer = .idle avail → avail ≤ c.queue.held.length
  reading : ∀ n t, c.consumer = .copying n t →
    n ≤ c.queue.held.length ∧ t = c.queue.held.take t.length ∧ t.length ≤ n

/-! The steps of a call that no step of the other thread parts are the call. -/

theorem exists_copied (hS : 0 < S) (c : Threads T w S) {t : List T} (hc : c.producer = .copying t 0)
    {k : Nat} (hk : k ≤ t.length) :
    Relation.ReflTransGen ProducerStep c { c with
      producer := .copying t k
      buffer := { c.buffer with
        data := RingWindow.writeCells c.buffer.data (c.buffer.end_ % BitVec.ofNat w S).toNat 0
          ((t.take k).map some) } } := by
  induction k with
  | zero =>
    rw [← hc, List.take_zero]
    exact .refl
  | succ k ih =>
    have hlen : ((t.take k).map some).length = k := by
      rw [List.length_map, List.length_take]
      omega
    have hv : t[k]? = some t[k] := List.getElem?_eq_getElem hk
    have hopen := (ih (by omega)).tail (.opensCell _ t k _ rfl hk
      (Cells.write?_natCast _ (Nat.mod_lt _ hS) none))
    have hfill := hopen.tail (.fillsCell _ t k t[k] _ rfl hv
      (Cells.write?_natCast _ (Nat.mod_lt _ hS) (some t[k])))
    rw [List.take_add_one, hv, Option.toList_some, List.map_append, List.map_singleton,
      RingWindow.writeCells_concat, hlen, Nat.zero_add]
    simpa only [Vector.setIfInBounds_setIfInBounds] using hfill

theorem pushBuffer_steps (hS : Sized w S) (c : Threads T w S) {t : List T}
    (hc : c.producer = .copying t 0) (ht : t.length ≤ S) :
    ∃ d, Relation.ReflTransGen ProducerStep c d ∧ c.buffer.pushBuffer (t.map some) = some d.buffer ∧
      d.pushed = c.pushed ++ t ∧ d.consumer = c.consumer := by
  refine ⟨_, (exists_copied hS.pos c hc (Nat.le_refl _)).tail (.movesEnd _ t _ rfl rfl), ?_, rfl, rfl⟩
  have hlen : (t.map some).length ≤ S := by rwa [List.length_map]
  rw [pushBuffer_eq hS hlen, hS.toNat_index, List.take_length,
    RingWindow.copyIn_eq_writeCells _ (Nat.mod_lt _ hS.pos) hlen, List.length_map]
  rfl

theorem shiftBuffer_of_steps (hS : Sized w S) (b : RingBuffer (Option T) w S)
    {t : List (Option T)} (ht : t.length ≤ S)
    (hread : ∀ k < t.length,
      b.data[((b.start % BitVec.ofNat w S).toNat + k) % S]? = t[k]?) :
    b.shiftBuffer t.length =
      some (t, { b with start := b.start + BitVec.ofNat w t.length }) := by
  rw [hS.toNat_index] at hread
  rw [shiftBuffer_eq hS ht, RingWindow.copyOut_eq (Nat.mod_lt _ hS.pos) ht rfl hread]
  rfl

section

variable {c d : Threads T w S} {N : Nat} {asksSize : Prop}

theorem held_length (h : c.shifted.length ≤ c.pushed.length) :
    c.queue.pos + c.queue.held.length = c.pushed.length := by
  simp only [queue, List.length_map, List.length_drop]
  omega

theorem inv_init (data : Vector (Option T) S) : Inv (init data : Threads T w S) where
  shifted_le := Nat.le_refl 0
  shifted_eq := rfl
  represents := represents_new data
  room room hc := by
    obtain rfl : 0 = room := Producer.idle.inj hc
    exact Nat.zero_le S
  copying _ _ hc := by cases hc
  writing _ _ hc := by cases hc
  avail avail hc := by
    obtain rfl : 0 = avail := Consumer.idle.inj hc
    exact Nat.zero_le _
  reading _ _ hc := by cases hc

/-- What is held stays held while the next cell past it changes. -/
theorem Inv.write (h : Inv c) (hS : Sized w S) (hstep : InStep w S N) (hN : c.pushed.length ≤ N)
    {t : List T} {k : Nat} (hcopy : Copying c.queue c.buffer.data t k) (hk : k < t.length) {v : Option T}
    {data : Vector (Option T) S}
    (hwrite : Cells.write? c.buffer.data
      (((c.buffer.end_ % BitVec.ofNat w S).toNat + k) % S : Nat) v = some data) :
    RingWindow.Holds data c.queue.pos (c.queue.held ++ (t.take k).map some ++ [v]) := by
  have hlen := held_length h.shifted_le
  have hroom := hcopy.room
  have hcount : (c.queue.held ++ (t.take k).map some).length = c.queue.held.length + k := by
    rw [List.length_append, List.length_map, List.length_take]
    omega
  obtain ⟨-, -, rfl⟩ := Cells.write?_eq_some hwrite
  rw [Int.toNat_natCast, hS.toNat_index, h.represents.end_eq,
    hstep.index_eq (Nat.le_trans (Nat.le_of_eq hlen) hN), RingWindow.slot_add, Nat.add_assoc,
    ← hcount]
  exact hcopy.holds.write (by omega) v

theorem queue_push {t : List T} (h : c.shifted.length ≤ c.pushed.length)
    (hpushed : d.pushed = c.pushed ++ t) (hshifted : d.shifted = c.shifted) :
    d.queue.pos = c.queue.pos ∧ d.queue.held = c.queue.held ++ t.map some := by
  simp only [queue, hpushed, hshifted, List.drop_append_of_le_length h, List.map_append, and_self]

/-- The end moves over the values that were copied. -/
theorem Inv.push (h : Inv c) {t : List T}
    (hfilled : RingWindow.Holds c.buffer.data c.queue.pos (c.queue.held ++ t.map some))
    (hpushed : d.pushed = c.pushed ++ t) (hshifted : d.shifted = c.shifted)
    (hbuffer : d.buffer = { c.buffer with end_ := c.buffer.end_ + BitVec.ofNat w t.length })
    (hproducer : d.producer = .idle 0) (hconsumer : d.consumer = c.consumer) : Inv d := by
  obtain ⟨hpos, hheld⟩ := queue_push h.shifted_le hpushed hshifted
  have hle := hfilled.length_le
  have hsle := h.shifted_le
  exact {
    shifted_le := by
      rw [hshifted, hpushed, List.length_append]
      omega
    shifted_eq := by
      rw [hshifted, hpushed, List.take_append_of_le_length hsle]
      exact h.shifted_eq
    represents := by
      refine ⟨by rw [hbuffer, hpos]; exact h.represents.start_eq, ?_, ?_⟩
      · rw [hbuffer, hpos, hheld, List.length_append, List.length_map, h.represents.end_eq,
          ← BitVec.ofNat_add, Nat.add_assoc]
      · rw [hbuffer, hpos, hheld]
        exact hfilled
    room := fun room hc => by
      obtain rfl := Producer.idle.inj (hproducer.symm.trans hc)
      rw [hheld]
      exact hle
    copying := fun _ _ hc => by cases hproducer.symm.trans hc
    writing := fun _ _ hc => by cases hproducer.symm.trans hc
    avail := fun avail hc => by
      have hh := h.avail avail (hconsumer.symm.trans hc)
      rw [hheld, List.length_append]
      omega
    reading := fun n t' hc => by
      obtain ⟨hn, ht, hlt⟩ := h.reading n t' (hconsumer.symm.trans hc)
      refine ⟨by rw [hheld, List.length_append]; omega, ?_, hlt⟩
      rw [hheld, List.take_append_of_le_length (by omega)]
      exact ht }

theorem queue_shift {t : List (Option T)} (hpushed : d.pushed = c.pushed)
    (hshifted : d.shifted = c.shifted ++ t) :
    d.queue.pos = c.queue.pos + t.length ∧ d.queue.held = c.queue.held.drop t.length := by
  simp only [queue, hpushed, hshifted, List.length_append, List.map_drop, List.drop_drop, and_self]

theorem Copying.shift {q q' : Fifo.Queue (Option T)} {data : Vector (Option T) S} {t : List T}
    {k n : Nat} (h : Copying q data t k) (hn : n ≤ q.held.length) (hpos : q'.pos = q.pos + n)
    (hheld : q'.held = q.held.drop n) : Copying q' data t k where
  room := by
    have hroom := h.room
    rw [hheld, List.length_drop]
    omega
  count := h.count
  holds := by
    have hh := h.holds.drop (n := n) (by rw [List.length_append]; omega)
    rw [List.drop_append_of_le_length hn] at hh
    rwa [hpos, hheld]

/-- The start moves over the values that were read. -/
theorem Inv.shift (h : Inv c) {t : List (Option T)} (hn : t.length ≤ c.queue.held.length)
    (ht : t = c.queue.held.take t.length)
    (hpushed : d.pushed = c.pushed) (hshifted : d.shifted = c.shifted ++ t)
    (hbuffer : d.buffer = { c.buffer with start := c.buffer.start + BitVec.ofNat w t.length })
    (hproducer : d.producer = c.producer) (hconsumer : d.consumer = .idle 0) : Inv d := by
  obtain ⟨hpos, hheld⟩ := queue_shift hpushed hshifted
  have hlen := held_length h.shifted_le
  have hshort : d.queue.held.length ≤ c.queue.held.length := by
    rw [hheld, List.length_drop]
    omega
  exact {
    shifted_le := by
      rw [hshifted, hpushed, List.length_append, ← hlen]
      exact Nat.add_le_add_left hn _
    shifted_eq := by
      have hread : t = ((c.pushed.drop c.shifted.length).take t.length).map some := by
        rw [List.map_take]
        exact ht
      rw [hshifted, hpushed, List.length_append, List.take_add, List.map_append, ← hread]
      exact congrArg (· ++ t) h.shifted_eq
    represents := by
      refine ⟨?_, ?_, ?_⟩
      · rw [hbuffer, hpos, BitVec.ofNat_add, ← h.represents.start_eq]
      · rw [hbuffer, hpos, hheld, List.length_drop, h.represents.end_eq]
        exact congrArg _ (by omega)
      · rw [hbuffer, hpos, hheld]
        exact h.represents.holds.drop hn
    room := fun room hc => by
      have hh := h.room room (hproducer.symm.trans hc)
      omega
    copying := fun t' k hc => by
      rw [hbuffer]
      exact (h.copying t' k (hproducer.symm.trans hc)).shift hn hpos hheld
    writing := fun t' k hc => by
      obtain ⟨hcopy, hk⟩ := h.writing t' k (hproducer.symm.trans hc)
      rw [hbuffer]
      exact ⟨hcopy.shift hn hpos hheld, hk⟩
    avail := fun avail hc => by
      obtain rfl := Consumer.idle.inj (hconsumer.symm.trans hc)
      exact Nat.zero_le _
    reading := fun _ _ hc => by cases hconsumer.symm.trans hc }

theorem Inv.producerStep (h : Inv c) (hS : Sized w S) (hstep : InStep w S N)
    (hN : c.pushed.length ≤ N) (hd : ProducerStep c d) : Inv d := by
  have hlen := held_length h.shifted_le
  have hle := h.represents.holds.length_le
  cases hd with
  | seesCapacity room hc =>
    refine { h with
      room := fun room' hc' => ?_
      copying := fun _ _ hc' => by cases hc'
      writing := fun _ _ hc' => by cases hc' }
    obtain rfl := Producer.idle.inj hc'
    have hcap := h.represents.toNat_capacity hS
    show c.queue.held.length + c.buffer.capacity.toNat ≤ S
    omega
  | seesNotFull room hc hfull =>
    refine { h with
      room := fun room' hc' => ?_
      copying := fun _ _ hc' => by cases hc'
      writing := fun _ _ hc' => by cases hc' }
    obtain rfl := Producer.idle.inj hc'
    have hne : c.queue.held.length ≠ S := fun he => by
      rw [(h.represents.full_iff hS).mpr he] at hfull
      exact absurd hfull (by decide)
    show c.queue.held.length + 1 ≤ S
    omega
  | startsCopy room t hc hroom =>
    have hfits := h.room room hc
    refine { h with
      room := fun _ hc' => by cases hc'
      copying := fun t' k hc' => ?_
      writing := fun _ _ hc' => by cases hc' }
    obtain ⟨rfl, rfl⟩ := Producer.copying.inj hc'
    refine ⟨Nat.le_trans (Nat.add_le_add_left hroom _) hfits, Nat.zero_le _, ?_⟩
    rw [List.take_zero, List.map_nil, List.append_nil]
    exact h.represents.holds
  | opensCell t k data hc hk hwrite =>
    have hcopy := h.copying t k hc
    have hholds := (h.write hS hstep hN hcopy hk hwrite).left
    refine { h with
      represents := ⟨h.represents.start_eq, h.represents.end_eq, hholds.left⟩
      room := fun _ hc' => by cases hc'
      copying := fun _ _ hc' => by cases hc'
      writing := fun t' k' hc' => ?_ }
    obtain ⟨rfl, rfl⟩ := Producer.writing.inj hc'
    exact ⟨⟨hcopy.room, hcopy.count, hholds⟩, hk⟩
  | fillsCell t k v data hc hv hwrite =>
    obtain ⟨hcopy, hk⟩ := h.writing t k hc
    have hholds := h.write hS hstep hN hcopy hk hwrite
    refine { h with
      represents := ⟨h.represents.start_eq, h.represents.end_eq, hholds.left.left⟩
      room := fun _ hc' => by cases hc'
      copying := fun t' k' hc' => ?_
      writing := fun _ _ hc' => by cases hc' }
    obtain ⟨rfl, rfl⟩ := Producer.copying.inj hc'
    refine ⟨hcopy.room, hk, ?_⟩
    rw [List.take_add_one, hv, Option.toList_some, List.map_append, List.map_singleton,
      ← List.append_assoc]
    exact hholds
  | movesEnd t k hc hk =>
    have hholds := (h.copying t k hc).holds
    rw [hk, List.take_length] at hholds
    exact h.push hholds rfl rfl rfl rfl rfl

theorem Inv.consumerStep (h : Inv c) (hS : Sized w S) (hstep : InStep w S N)
    (hN : c.pushed.length ≤ N) (hd : ConsumerStep asksSize c d) : Inv d := by
  have hlen := held_length h.shifted_le
  cases hd with
  | seesSize avail hc hsize =>
    refine { h with
      avail := fun avail' hc' => ?_
      reading := fun _ _ hc' => by cases hc' }
    obtain rfl := Consumer.idle.inj hc'
    exact Nat.le_of_eq (h.represents.toNat_size hS)
  | seesNotEmpty avail hc hempty =>
    refine { h with
      avail := fun avail' hc' => ?_
      reading := fun _ _ hc' => by cases hc' }
    obtain rfl := Consumer.idle.inj hc'
    refine Nat.pos_of_ne_zero fun hz => ?_
    rw [(h.represents.empty_iff hS).mpr (Or.inl (List.length_eq_zero_iff.mp hz))] at hempty
    exact absurd hempty (by decide)
  | startsCopy avail n hc hn =>
    refine { h with
      avail := fun _ hc' => by cases hc'
      reading := fun n' t' hc' => ?_ }
    obtain ⟨rfl, rfl⟩ := Consumer.copying.inj hc'
    exact ⟨Nat.le_trans hn (h.avail avail hc), rfl, Nat.zero_le n⟩
  | reads n t v hc ht hread =>
    obtain ⟨hn, htake, -⟩ := h.reading n t hc
    have hcell : some v = c.queue.held[t.length]? := by
      rw [← h.represents.holds.cell t.length (by omega), ← hread, hS.toNat_index,
        h.represents.start_eq, hstep.index_eq (by omega), RingWindow.slot_add]
    refine { h with
      avail := fun _ hc' => by cases hc'
      reading := fun n' t' hc' => ?_ }
    obtain ⟨rfl, rfl⟩ := Consumer.copying.inj hc'
    refine ⟨hn, ?_, by rw [List.length_append, List.length_singleton]; omega⟩
    show t ++ [v] = c.queue.held.take (t ++ [v]).length
    rw [List.length_append, List.length_singleton, List.take_add_one, ← hcell, ← htake]
    rfl
  | movesStart n t hc ht =>
    obtain ⟨hn, htake, -⟩ := h.reading n t hc
    subst ht
    exact h.shift hn htake rfl rfl rfl rfl rfl

theorem pushed_le (hd : ProducerStep c d) : c.pushed.length ≤ d.pushed.length := by
  cases hd with
  | seesCapacity => exact Nat.le_refl _
  | seesNotFull => exact Nat.le_refl _
  | startsCopy => exact Nat.le_refl _
  | opensCell => exact Nat.le_refl _
  | fillsCell => exact Nat.le_refl _
  | movesEnd t _ _ _ =>
    rw [List.length_append]
    exact Nat.le_add_right _ _

theorem pushed_eq (hd : ConsumerStep asksSize c d) : d.pushed = c.pushed := by
  cases hd <;> rfl

theorem inv_of_reachable (hS : Sized w S) {data : Vector (Option T) S} (hstep : InStep w S N)
    (hc : Reachable asksSize data c) (hN : c.pushed.length ≤ N) : Inv c := by
  induction hc with
  | init => exact inv_init data
  | producer hc hd ih =>
    have hN' := Nat.le_trans (pushed_le hd) hN
    exact (ih hN').producerStep hS hstep hN' hd
  | consumer hc hd ih =>
    rw [pushed_eq hd] at hN
    exact (ih hN).consumerStep hS hstep hN hd

theorem Inv.copying_of_copy (h : Inv c) {t : List T} {k : Nat}
    (hc : c.producer = .copying t k ∨ c.producer = .writing t k) :
    Copying c.queue c.buffer.data t k := by
  rcases hc with hc | hc
  · exact h.copying t k hc
  · exact (h.writing t k hc).1

/-- A copy in and a copy out that run at the same time are of different cells. -/
theorem Inv.disjoint (h : Inv c) (hS : Sized w S) (hstep : InStep w S N)
    (hN : c.pushed.length ≤ N) {i : Nat} (hw : c.Writes i) : ¬ c.Reads i := by
  have hlen := held_length h.shifted_le
  obtain ⟨t, m, hp, k, hk, rfl⟩ := hw
  rintro ⟨n, u, hq, j, hj, he⟩
  have hroom := (h.copying_of_copy hp).room
  obtain ⟨hn, -, -⟩ := h.reading n u hq
  rw [hS.toNat_index, hS.toNat_index, h.represents.end_eq, h.represents.start_eq,
    hstep.index_eq (by omega), hstep.index_eq (by omega), RingWindow.slot_add,
    RingWindow.slot_add, Nat.add_assoc] at he
  have hkj := RingAccumulator.slot_inj (by omega) (by omega) he
  omega

/-- A call that was allowed to start runs to its end whatever the other thread does. -/
theorem Inv.producer_enabled (h : Inv c) (hS : 0 < S) :
    (∀ room t, c.producer = .idle room → t.length ≤ room →
      ∃ d, ProducerStep c d ∧ d.producer = .copying t 0) ∧
    (∀ t k, c.producer = .copying t k → ∃ d, ProducerStep c d ∧
      (d.producer = .writing t k ∨ d.pushed = c.pushed ++ t)) ∧
    ∀ t k, c.producer = .writing t k → ∃ d, ProducerStep c d ∧ d.producer = .copying t (k + 1) := by
  refine ⟨fun room t hc ht => ⟨_, .startsCopy c room t hc ht, rfl⟩, fun t k hc => ?_,
    fun t k hc => ?_⟩
  · by_cases hk : k = t.length
    · exact ⟨_, .movesEnd c t k hc hk, Or.inr rfl⟩
    · have hcount := (h.copying t k hc).count
      exact ⟨_, .opensCell c t k _ hc (by omega) (Cells.write?_natCast _ (Nat.mod_lt _ hS) none),
        Or.inl rfl⟩
  · obtain ⟨-, hk⟩ := h.writing t k hc
    exact ⟨_, .fillsCell c t k t[k] _ hc (List.getElem?_eq_getElem hk)
      (Cells.write?_natCast _ (Nat.mod_lt _ hS) _), rfl⟩

theorem Inv.consumer_enabled (h : Inv c) (hS : Sized w S) {n : Nat} {t : List (Option T)}
    (hc : c.consumer = .copying n t) : ∃ d, ConsumerStep asksSize c d := by
  obtain ⟨-, -, hlt⟩ := h.reading n t hc
  by_cases ht : t.length = n
  · exact ⟨_, .movesStart c n t hc ht⟩
  · have hi : ((c.buffer.start % BitVec.ofNat w S).toNat + t.length) % S < S := Nat.mod_lt _ hS.pos
    exact ⟨_, .reads c n t _ hc (by omega) (Vector.getElem?_eq_getElem hi)⟩

/-- Two values through a ring of two cells. The first one is read while the cell of the
second is half written. -/
def twoValues : Threads Bool 2 2 where
  buffer := ⟨2#2, 2#2, #v[some true, some false]⟩
  producer := .idle 0
  consumer := .idle 0
  pushed := [true, false]
  shifted := [some true, some false]

theorem reachable_twoValues : Reachable asksSize #v[none, none] twoValues := by
  have hstart : Reachable asksSize #v[none, none] (init #v[none, none] : Threads Bool 2 2) := .init
  have hfirst := (((hstart.producer (.seesCapacity _ 0 rfl)).producer
    (.startsCopy _ 2 [true] rfl (by decide))).producer
    (.opensCell _ [true] 0 #v[none, none] rfl (by decide) rfl)).producer
    (.fillsCell _ [true] 0 true #v[some true, none] rfl rfl rfl)
  have hopen := (((hfirst.producer (.movesEnd _ [true] 1 rfl rfl)).producer
    (.seesNotFull _ 0 rfl (by decide))).producer (.startsCopy _ 1 [false] rfl (by decide))).producer
    (.opensCell _ [false] 0 #v[some true, none] rfl (by decide) rfl)
  have hread := ((hopen.consumer (.seesNotEmpty _ 0 rfl (by decide))).consumer
    (.startsCopy _ 1 1 rfl (by decide))).consumer (.reads _ 1 [] (some true) rfl (by decide) rfl)
  have hsecond := ((hread.producer
    (.fillsCell _ [false] 0 false #v[some true, some false] rfl rfl rfl)).consumer
    (.movesStart _ 1 [some true] rfl rfl)).producer (.movesEnd _ [false] 1 rfl rfl)
  exact (((hsecond.consumer (.seesNotEmpty _ 0 rfl (by decide))).consumer
    (.startsCopy _ 1 1 rfl (by decide))).consumer
    (.reads _ 1 [] (some false) rfl (by decide) rfl)).consumer
    (.movesStart _ 1 [some false] rfl rfl)

/-- In every order of the steps the values handed out are the values put in, in order, and
none was read while half written; a copy never meets the other thread's; at most `S` values
wait; and a call that was allowed to start can always go on. -/
theorem reachable_safe (hS : Sized w S) {data : Vector (Option T) S}
    (hc : Reachable asksSize data c) (hstep : InStep w S c.pushed.length) :
    c.shifted = (c.pushed.take c.shifted.length).map some ∧
      c.pushed.length ≤ c.shifted.length + S ∧ (∀ i, c.Writes i → ¬ c.Reads i) ∧
      (∀ room t, c.producer = .idle room → t.length ≤ room →
        ∃ d, ProducerStep c d ∧ d.producer = .copying t 0) ∧
      (∀ t k, c.producer = .copying t k → ∃ d, ProducerStep c d ∧
        (d.producer = .writing t k ∨ d.pushed = c.pushed ++ t)) ∧
      (∀ t k, c.producer = .writing t k →
        ∃ d, ProducerStep c d ∧ d.producer = .copying t (k + 1)) ∧
      ∀ n t, c.consumer = .copying n t → ∃ d, ConsumerStep asksSize c d := by
  have h := inv_of_reachable hS hstep hc (Nat.le_refl _)
  have hlen := held_length h.shifted_le
  have hle := h.represents.holds.length_le
  obtain ⟨hstarts, hopens, hfills⟩ := h.producer_enabled hS.pos
  refine ⟨h.shifted_eq, ?_, fun i => h.disjoint hS hstep (Nat.le_refl _), hstarts, hopens, hfills,
    fun n t => h.consumer_enabled hS⟩
  rw [← hlen]
  exact Nat.add_le_add_left hle _

theorem reachable_safe_twoValues :
    twoValues.shifted = (twoValues.pushed.take twoValues.shifted.length).map some :=
  (reachable_safe ⟨by decide, by decide⟩ (reachable_twoValues : Reachable True _ _)
    (Or.inl (by decide))).1

/-- What a consumer that asks only `empty` may still take. -/
structure Polled (c : Threads T w S) : Prop where
  shifted_lt : c.shifted.length < 2 ^ w
  start_eq : c.buffer.start.toNat = c.shifted.length
  avail : ∀ avail, c.consumer = .idle avail → c.shifted.length + avail < 2 ^ w
  reading : ∀ n t, c.consumer = .copying n t → c.shifted.length + n < 2 ^ w

theorem Polled.producerStep (h : Polled c) (hd : ProducerStep c d) : Polled d := by
  cases hd with
  | seesCapacity => exact ⟨h.1, h.2, h.3, h.4⟩
  | seesNotFull => exact ⟨h.1, h.2, h.3, h.4⟩
  | startsCopy => exact ⟨h.1, h.2, h.3, h.4⟩
  | opensCell => exact ⟨h.1, h.2, h.3, h.4⟩
  | fillsCell => exact ⟨h.1, h.2, h.3, h.4⟩
  | movesEnd => exact ⟨h.1, h.2, h.3, h.4⟩

theorem Polled.consumerStep (h : Polled c) (hd : ConsumerStep False c d) : Polled d := by
  have hlt := h.shifted_lt
  cases hd with
  | seesSize _ _ hsize => exact hsize.elim
  | seesNotEmpty avail hc hempty =>
    refine ⟨h.1, h.2, fun avail' hc' => ?_, fun _ _ hc' => by cases hc'⟩
    obtain rfl := Consumer.idle.inj hc'
    -- the end is beyond the start and still fits its type
    have hend := c.buffer.end_.isLt
    rw [empty, decide_eq_false_iff_not, BitVec.le_def, h.start_eq] at hempty
    show c.shifted.length + 1 < 2 ^ w
    omega
  | startsCopy avail n hc hn =>
    refine ⟨h.1, h.2, (fun _ hc' => by cases hc'), fun n' t' hc' => ?_⟩
    obtain ⟨rfl, rfl⟩ := Consumer.copying.inj hc'
    have hh := h.avail avail hc
    show c.shifted.length + n < 2 ^ w
    omega
  | reads n t v hc ht hread =>
    refine ⟨h.1, h.2, (fun _ hc' => by cases hc'), fun n' t' hc' => ?_⟩
    obtain ⟨rfl, rfl⟩ := Consumer.copying.inj hc'
    exact h.reading n t hc
  | movesStart n t hc ht =>
    have hh := h.reading n t hc
    have hn : (BitVec.ofNat w n).toNat = n := by
      rw [BitVec.toNat_ofNat, Nat.mod_eq_of_lt (by omega)]
    refine ⟨?_, ?_, fun avail hc' => ?_, fun _ _ hc' => by cases hc'⟩
    · show (c.shifted ++ t).length < 2 ^ w
      rw [List.length_append, ht]
      exact hh
    · show (c.buffer.start + BitVec.ofNat w n).toNat = (c.shifted ++ t).length
      rw [BitVec.toNat_add_of_lt (by rw [h.start_eq, hn]; exact hh), h.start_eq, hn,
        List.length_append, ht]
    · obtain rfl := Consumer.idle.inj hc'
      show (c.shifted ++ t).length + 0 < 2 ^ w
      rw [List.length_append, ht]
      exact hh

end

end Threads

end RingBuffer

end PluginSdk
