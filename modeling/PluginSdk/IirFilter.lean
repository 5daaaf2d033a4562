import PluginSdk.Cells
import PluginSdk.Fir
import PluginSdk.History
import PluginSdk.TransferFunction

/-! Recursive filters. What a filter answers solves its difference equation, so
from a reset on it is the input times the transfer function. An access outside
an array fails. -/

namespace PluginSdk

open Convolution TransferFunction

structure IIRFilter (B_ORDER A_ORDER : Nat) (T : Type) where
  b : Vector T B_ORDER
  a : Vector T (A_ORDER - 1)
  x : Vector T (B_ORDER - 1)
  y : Vector T (A_ORDER - 1)

inductive IIRCall (B_ORDER A_ORDER : Nat) (T : Type)
  | reset
  | setCoefficients (b : Vector T B_ORDER) (a : Vector T (A_ORDER - 1))
  | process (input : T)

namespace IIRCall

variable {B_ORDER A_ORDER : Nat} {T : Type}

def isReset : IIRCall B_ORDER A_ORDER T → Bool
  | .reset => true
  | _ => false

def input : IIRCall B_ORDER A_ORDER T → Option T
  | .process input => some input
  | _ => none

/-- What was put in since the latest reset. -/
def fed (calls : List (IIRCall B_ORDER A_ORDER T)) : List T :=
  (History.since isReset calls).filterMap input

theorem fed_concat (calls : List (IIRCall B_ORDER A_ORDER T)) (call : IIRCall B_ORDER A_ORDER T) :
    fed (calls ++ [call]) = if call.isReset then [] else fed calls ++ call.input.toList := by
  rw [fed, History.since_concat]
  cases call <;> simp [isReset, input, fed]

end IIRCall

namespace IIRFilter

variable {B_ORDER A_ORDER : Nat} {T : Type}

def new [Zero T] : IIRFilter B_ORDER A_ORDER T :=
  ⟨.replicate _ 0, .replicate _ 0, .replicate _ 0, .replicate _ 0⟩

def reset [Zero T] (s : IIRFilter B_ORDER A_ORDER T) : IIRFilter B_ORDER A_ORDER T :=
  { s with x := .replicate _ 0, y := .replicate _ 0 }

def setCoefficients (s : IIRFilter B_ORDER A_ORDER T) (b : Vector T B_ORDER)
    (a : Vector T (A_ORDER - 1)) : IIRFilter B_ORDER A_ORDER T :=
  { s with b, a }

def shiftCell {n : Nat} (order : Nat) (cells : Vector T n) (k : Nat) : Option (Vector T n) := do
  let i : Int := order - 1 - k
  let v ← Cells.read? cells (i - 2)
  Cells.write? cells (i - 1) v

/-- A state is moved on by one, from its last cell to its second, and the first is written. -/
def shift {n : Nat} (cells : Vector T n) (order : Nat) (v : T) : Option (Vector T n) := do
  let moved ← PartialRun.run (shiftCell order) cells (List.range (order - 2))
  Cells.write? moved 0 v

def firstX [Zero T] [Mul T] (s : IIRFilter B_ORDER A_ORDER T) (input : T) : Option T :=
  if 0 < B_ORDER then s.b[0]?.map fun b => b * input else some 0

def addX [Add T] [Mul T] (s : IIRFilter B_ORDER A_ORDER T) (out : T) (k : Nat) : Option T := do
  let b ← s.b[k + 1]?
  let x ← s.x[k]?
  some (out + b * x)

def subtractY [Sub T] [Mul T] (s : IIRFilter B_ORDER A_ORDER T) (out : T) (k : Nat) : Option T := do
  let a ← s.a[k]?
  let y ← s.y[k]?
  some (out - a * y)

def process [Zero T] [Add T] [Sub T] [Mul T] (s : IIRFilter B_ORDER A_ORDER T) (input : T) :
    Option (T × IIRFilter B_ORDER A_ORDER T) := do
  let out ← s.firstX input
  let out ← PartialRun.run s.addX out (List.range (B_ORDER - 1))
  let out ← PartialRun.run s.subtractY out (List.range (A_ORDER - 1))
  let x ← shift s.x B_ORDER input
  let y ← shift s.y A_ORDER out
  some (out, { s with x, y })

/-- A filter beside what it answered. -/
def answer {S : Type} (process : S → T → Option (T × S)) (st : S × List T) (input : T) :
    Option (S × List T) := do
  let (out, s) ← process st.1 input
  some (s, st.2 ++ [out])

/-- The answers are those since the latest reset. -/
def next [Zero T] [Add T] [Sub T] [Mul T] (st : IIRFilter B_ORDER A_ORDER T × List T) :
    IIRCall B_ORDER A_ORDER T → Option (IIRFilter B_ORDER A_ORDER T × List T)
  | .reset => some (st.1.reset, [])
  | .setCoefficients b a => some (st.1.setCoefficients b a, st.2)
  | .process input => answer process st input

/-- Two filters one after the other. -/
def cascade [Zero T] [Add T] [Sub T] [Mul T] {B' A' : Nat}
    (st : IIRFilter B_ORDER A_ORDER T × IIRFilter B' A' T) (input : T) :
    Option (T × IIRFilter B_ORDER A_ORDER T × IIRFilter B' A' T) := do
  let (middle, first) ← st.1.process input
  let (out, second) ← st.2.process middle
  some (out, first, second)

theorem shift_eq {n : Nat} (cells : Vector T n) (v : T) (hn : 0 < n) :
    ∃ cells', shift cells (n + 1) v = some cells' ∧
      ∀ i < n, cells'[i]? = if i = 0 then some v else cells[i - 1]? := by
  -- after `k` rounds the last `k` cells have moved
  have hround (k : Nat) (t : Vector T n) (hk : k < n + 1 - 2)
      (ht : ∀ i < n, t[i]? = if n - k ≤ i then cells[i - 1]? else cells[i]?) :
      ∃ u, shiftCell (n + 1) t k = some u ∧
        ∀ i < n, u[i]? = if n - (k + 1) ≤ i then cells[i - 1]? else cells[i]? := by
    have hread : ((n + 1 : Nat) - 1 - k - 2 : Int) = (n - k - 2 : Nat) := by omega
    have hwrite : ((n + 1 : Nat) - 1 - k - 1 : Int) = (n - k - 1 : Nat) := by omega
    have hin : n - k - 2 < n := by omega
    simp only [shiftCell, hread, hwrite, Cells.read?_natCast, ht _ hin]
    rw [if_neg (by omega), Vector.getElem?_eq_getElem hin, Option.bind_eq_bind, Option.bind_some,
      Cells.write?, if_pos (by omega)]
    refine ⟨_, rfl, fun i hi => ?_⟩
    rw [Int.toNat_natCast, Vector.getElem?_setIfInBounds, ht i hi]
    by_cases hhit : n - k - 1 = i
    · have hlast : i - 1 = n - k - 2 := by omega
      rw [if_pos hhit, if_pos (by omega), if_pos (by omega), hlast, Vector.getElem?_eq_getElem hin]
    · rw [if_neg hhit]
      refine if_congr ?_ rfl rfl
      omega
  obtain ⟨moved, hmoved, hcells⟩ := PartialRun.run_range (s := cells)
    (fun i hi => by rw [if_neg (by omega)]) hround
  have hfirst : Cells.write? moved 0 v = some (moved.setIfInBounds 0 v) := if_pos ⟨le_refl 0, by omega⟩
  refine ⟨moved.setIfInBounds 0 v, ?_, fun i hi => ?_⟩
  · rw [shift, hmoved]
    exact hfirst
  · rw [Vector.getElem?_setIfInBounds, hcells i hi]
    by_cases hzero : i = 0
    · rw [if_pos hzero, if_pos hzero.symm, if_pos hn]
    · rw [if_neg hzero, if_neg (Ne.symm hzero), if_pos (by omega)]

theorem shift_empty (v : T) {n : Nat} (cells : Vector T n) (hn : n = 0) (order : Nat) :
    shift cells order v = none := by
  subst hn
  have hwrite (cells : Vector T 0) (i : Int) (v : T) : Cells.write? cells i v = none :=
    if_neg (by omega)
  rw [shift, Option.bind_eq_bind, Option.bind_eq_none_iff]
  exact fun moved _ => hwrite moved 0 v

theorem process_fails [Zero T] [Add T] [Sub T] [Mul T]
    (hsmall : B_ORDER - 1 = 0 ∨ A_ORDER - 1 = 0) (s : IIRFilter B_ORDER A_ORDER T) (input : T) :
    s.process input = none := by
  simp only [process, Option.bind_eq_bind, Option.bind_eq_none_iff]
  intro _ _ _ _ out _ x hx y hy
  rcases hsmall with hB | hA
  · rw [shift_empty _ _ hB] at hx
    cases hx
  · rw [shift_empty _ _ hA] at hy
    cases hy

/-- The states hold the latest of what came in and of what was answered, newest first. -/
structure Remembers [Zero T] (s : IIRFilter B_ORDER A_ORDER T) (xs ys : List T) : Prop where
  x : ∀ i < B_ORDER - 1, s.x[i]? = some (xs.reverse[i]?.getD 0)
  y : ∀ i < A_ORDER - 1, s.y[i]? = some (ys.reverse[i]?.getD 0)

theorem remembers_nil [Zero T] {s : IIRFilter B_ORDER A_ORDER T} (hx : s.x = .replicate _ 0)
    (hy : s.y = .replicate _ 0) : Remembers s [] [] where
  x i hi := by
    rw [hx, Vector.getElem?_replicate, if_pos hi]
    rfl
  y i hi := by
    rw [hy, Vector.getElem?_replicate, if_pos hi]
    rfl

/-- Moving a state on keeps what it remembers in step. -/
theorem remembers_shift [Zero T] {n : Nat} {cells cells' : Vector T n} {xs : List T} {v : T}
    (h : ∀ i < n, cells[i]? = some (xs.reverse[i]?.getD 0))
    (hcells : ∀ i < n, cells'[i]? = if i = 0 then some v else cells[i - 1]?) :
    ∀ i < n, cells'[i]? = some ((xs ++ [v]).reverse[i]?.getD 0) := by
  intro i hi
  rw [hcells i hi, List.reverse_concat]
  cases i with
  | zero => rfl
  | succ i => exact h i (by omega)

section

variable {R : Type} [CommRing R]

theorem getElem?_eq_coeff {n : Nat} (v : Vector R n) {i : Nat} (hi : i < n) :
    v[i]? = some ((signal v.toList).coeff i) := by
  rw [coeff_signal, Vector.getElem?_toList, Vector.getElem?_eq_getElem hi, Option.getD_some]

theorem Remembers.process {s : IIRFilter B_ORDER A_ORDER R} {xs ys : List R} (h : Remembers s xs ys)
    (hB : 2 ≤ B_ORDER) (hA : 2 ≤ A_ORDER) (input : R) :
    ∃ out t, s.process input = some (out, t) ∧ t.b = s.b ∧ t.a = s.a ∧
      Remembers t (xs ++ [input]) (ys ++ [out]) ∧
      out = ∑ i ∈ Finset.range B_ORDER,
          (signal s.b.toList).coeff i * (xs ++ [input]).reverse[i]?.getD 0 -
        ∑ i ∈ Finset.range (A_ORDER - 1), (signal s.a.toList).coeff i * ys.reverse[i]?.getD 0 := by
  have hforward : PartialRun.run s.addX ((signal s.b.toList).coeff 0 * input)
      (List.range (B_ORDER - 1)) = some ((signal s.b.toList).coeff 0 * input +
        ∑ k ∈ Finset.range (B_ORDER - 1),
          (signal s.b.toList).coeff (k + 1) * xs.reverse[k]?.getD 0) := by
    refine run_sum_from (fun k hk y => ?_) _
    rw [addX, getElem?_eq_coeff s.b (by omega), h.x k hk]
    rfl
  have hback (out : R) : PartialRun.run s.subtractY out (List.range (A_ORDER - 1)) = some (out +
      ∑ k ∈ Finset.range (A_ORDER - 1), -((signal s.a.toList).coeff k * ys.reverse[k]?.getD 0)) := by
    refine run_sum_from (fun k hk y => ?_) _
    rw [subtractY, getElem?_eq_coeff s.a hk, h.y k hk, ← sub_eq_add_neg]
    rfl
  have hnewest : (signal s.b.toList).coeff 0 * input + ∑ k ∈ Finset.range (B_ORDER - 1),
      (signal s.b.toList).coeff (k + 1) * xs.reverse[k]?.getD 0 = ∑ i ∈ Finset.range B_ORDER,
        (signal s.b.toList).coeff i * (xs ++ [input]).reverse[i]?.getD 0 := by
    obtain ⟨n, rfl⟩ : ∃ n, B_ORDER = n + 1 := ⟨B_ORDER - 1, by omega⟩
    rw [Nat.add_sub_cancel, Finset.sum_range_succ', List.reverse_concat, add_comm]
    rfl
  obtain ⟨x, hx, hxcells⟩ := shift_eq s.x input (by omega)
  rw [Nat.sub_add_cancel (by omega)] at hx
  rw [IIRFilter.process, firstX, if_pos (by omega), getElem?_eq_coeff s.b (by omega),
    Option.map_some]
  simp only [Option.bind_eq_bind, Option.bind_some, hforward, hback, hx, hnewest,
    Finset.sum_neg_distrib, ← sub_eq_add_neg]
  obtain ⟨y, hy, hycells⟩ := shift_eq s.y (∑ i ∈ Finset.range B_ORDER,
      (signal s.b.toList).coeff i * (xs ++ [input]).reverse[i]?.getD 0 -
    ∑ i ∈ Finset.range (A_ORDER - 1), (signal s.a.toList).coeff i * ys.reverse[i]?.getD 0) (by omega)
  rw [Nat.sub_add_cancel (by omega)] at hy
  rw [hy]
  exact ⟨_, _, rfl, rfl, rfl, ⟨remembers_shift h.x hxcells, remembers_shift h.y hycells⟩, rfl⟩

open Polynomial

noncomputable def numerator (s : IIRFilter B_ORDER A_ORDER R) : R[X] := signal s.b.toList

noncomputable def denominator (s : IIRFilter B_ORDER A_ORDER R) : R[X] :=
  1 + X * signal s.a.toList

theorem denominator_zero (s : IIRFilter B_ORDER A_ORDER R) : s.denominator.coeff 0 = 1 := by
  simp [denominator]

/-- What is answered next solves the difference equation for the coefficients of the moment. -/
theorem Remembers.solves {s : IIRFilter B_ORDER A_ORDER R} {xs ys : List R} (h : Remembers s xs ys)
    (hB : 2 ≤ B_ORDER) (hA : 2 ≤ A_ORDER) (input : R) :
    ∃ out t, s.process input = some (out, t) ∧ t.b = s.b ∧ t.a = s.a ∧
      Remembers t (xs ++ [input]) (ys ++ [out]) ∧
      (s.denominator * signal (ys ++ [out])).coeff ys.length =
        (s.numerator * signal (xs ++ [input])).coeff xs.length := by
  obtain ⟨out, t, hprocess, hb, ha, ht, hout⟩ := h.process hB hA input
  refine ⟨out, t, hprocess, hb, ha, ht, ?_⟩
  have hback : ∀ i, A_ORDER - 1 ≤ i → (signal s.a.toList).coeff i = 0 := fun i hi =>
    coeff_signal_of_le (by simpa using hi)
  have hforward : ∀ i, B_ORDER ≤ i → (signal s.b.toList).coeff i = 0 := fun i hi =>
    coeff_signal_of_le (by simpa using hi)
  have hsum := sum_recent (signal s.b.toList) (xs ++ [input]) hforward (by simp)
  rw [List.length_append, List.length_singleton, Nat.add_sub_cancel] at hsum
  rw [denominator, coeff_feedback (signal s.a.toList) ys out hback, hout, sub_add_cancel, hsum,
    numerator]

theorem remembers_run (hB : 2 ≤ B_ORDER) (hA : 2 ≤ A_ORDER)
    (calls : List (IIRCall B_ORDER A_ORDER R)) :
    ∃ s ys, PartialRun.run next (new, []) calls = some (s, ys) ∧
      Remembers s (IIRCall.fed calls) ys ∧ ys.length = (IIRCall.fed calls).length := by
  induction calls using List.reverseRecOn with
  | nil => exact ⟨new, [], rfl, remembers_nil rfl rfl, rfl⟩
  | append_singleton calls call ih =>
    obtain ⟨s, ys, hrun, hs, hlen⟩ := ih
    rw [PartialRun.run_concat, hrun, Option.bind_some, IIRCall.fed_concat]
    cases call with
    | reset => exact ⟨s.reset, [], rfl, remembers_nil rfl rfl, rfl⟩
    | setCoefficients b a =>
      have hfed : IIRCall.fed calls ++ (IIRCall.setCoefficients b a).input.toList =
          IIRCall.fed calls := List.append_nil _
      rw [if_neg (by simp [IIRCall.isReset]), hfed]
      exact ⟨s.setCoefficients b a, ys, rfl, ⟨hs.x, hs.y⟩, hlen⟩
    | process input =>
      obtain ⟨out, t, hprocess, -, -, ht, -⟩ := hs.process hB hA input
      refine ⟨t, ys ++ [out], ?_, ht, ?_⟩
      · rw [next, answer, hprocess]
        rfl
      · simp [IIRCall.isReset, IIRCall.input, hlen]

theorem coeff_iterate_divX (p : R[X]) (k n : Nat) : (divX^[k] p).coeff n = p.coeff (n + k) := by
  induction k generalizing n with
  | zero => rfl
  | succ k ih => rw [Function.iterate_succ_apply', coeff_divX, ih, Nat.add_right_comm, Nat.add_assoc]

/-- What a state still adds to the answers. -/
noncomputable def memory (s : IIRFilter B_ORDER A_ORDER R) : R[X] :=
  divX^[B_ORDER - 1] (s.numerator * signal s.x.toList.reverse) -
    divX^[A_ORDER - 1] (s.denominator * signal s.y.toList.reverse)

theorem signal_replicate (n : Nat) : signal (List.replicate n (0 : R)) = 0 := by
  induction n with
  | zero => rfl
  | succ n ih => rw [List.replicate_succ, signal, ih, C_0, mul_zero, add_zero]

theorem memory_reset (s : IIRFilter B_ORDER A_ORDER R) : s.reset.memory = 0 := by
  ext n
  simp [memory, reset, signal_replicate, coeff_iterate_divX]

theorem remembers_self (s : IIRFilter B_ORDER A_ORDER R) :
    Remembers s s.x.toList.reverse s.y.toList.reverse where
  x i hi := by
    rw [List.reverse_reverse, Vector.getElem?_toList, Vector.getElem?_eq_getElem hi, Option.getD_some]
  y i hi := by
    rw [List.reverse_reverse, Vector.getElem?_toList, Vector.getElem?_eq_getElem hi, Option.getD_some]

/-- A signal that comes after another one. -/
theorem coeff_mul_later (p : R[X]) (before xs : List R) (n : Nat) :
    (p * signal (before ++ xs)).coeff (n + before.length) =
      (divX^[before.length] (p * signal before)).coeff n + (p * signal xs).coeff n := by
  rw [signal_append, mul_add, mul_left_comm, coeff_add, coeff_X_pow_mul, coeff_iterate_divX]

/-- The answers to `xs` keep to the quotient of the two polynomials. -/
theorem answers_run (hB : 2 ≤ B_ORDER) (hA : 2 ≤ A_ORDER) (s : IIRFilter B_ORDER A_ORDER R)
    (xs : List R) :
    ∃ t ys, PartialRun.run (answer process) (s, []) xs = some (t, ys) ∧ t.b = s.b ∧ t.a = s.a ∧
      Remembers t (s.x.toList.reverse ++ xs) (s.y.toList.reverse ++ ys) ∧
      ys.length = xs.length ∧ ∀ n < xs.length,
        (s.denominator * signal ys).coeff n = (s.numerator * signal xs + s.memory).coeff n := by
  induction xs using List.reverseRecOn with
  | nil =>
    refine ⟨s, [], rfl, rfl, rfl, ?_, rfl, fun n hn => absurd hn (Nat.not_lt_zero n)⟩
    rw [List.append_nil, List.append_nil]
    exact s.remembers_self
  | append_singleton xs input ih =>
    obtain ⟨t, ys, hrun, hb, ha, ht, hlen, hsolved⟩ := ih
    obtain ⟨out, u, hprocess, hub, hua, hu, hnext⟩ := ht.solves hB hA input
    have hsame : t.denominator = s.denominator ∧ t.numerator = s.numerator := by
      rw [denominator, numerator, hb, ha]
      exact ⟨rfl, rfl⟩
    rw [hsame.1, hsame.2, List.append_assoc, List.append_assoc] at hnext
    rw [List.append_assoc, List.append_assoc] at hu
    refine ⟨u, ys ++ [out], ?_, hub.trans hb, hua.trans ha, hu, by simp [hlen], fun n hn => ?_⟩
    · rw [PartialRun.run_concat, hrun, Option.bind_some, answer, hprocess]
      rfl
    rw [List.length_append, List.length_singleton] at hn
    by_cases hlast : n = xs.length
    · rw [List.length_append, List.length_append, Nat.add_comm, Nat.add_comm _ xs.length,
        coeff_mul_later, coeff_mul_later, hlen, ← hlast] at hnext
      rw [coeff_add, memory, coeff_sub]
      simp only [List.length_reverse, Vector.length_toList] at hnext
      linear_combination hnext
    · -- the earlier samples are as they were
      have hkeep (zs : List R) (z : R) (k : Nat) (hk : k < zs.length) :
          (signal (zs ++ [z])).coeff k = (signal zs).coeff k := by
        rw [coeff_signal, coeff_signal, List.getElem?_append_left hk]
      rw [coeff_add, coeff_mul_congr _ fun k hk => hkeep ys out k (by omega),
        coeff_mul_congr _ fun k hk => hkeep xs input k (by omega), ← coeff_add]
      exact hsolved n (by omega)

/-- The answers are the coefficients of a series, up to their number. -/
theorem eq_map_range {ys : List R} {h : PowerSeries R} {n : Nat} (hlen : ys.length = n)
    (hcoeff : ∀ k < n, PowerSeries.coeff k ((signal ys : R[X]) : PowerSeries R) =
      PowerSeries.coeff k h) :
    ys = (List.range n).map fun k => PowerSeries.coeff k h := by
  refine List.ext_getElem (by simpa using hlen) fun k hk _ => ?_
  have hk := hcoeff k (hlen ▸ hk)
  rw [Polynomial.coeff_coe, coeff_signal, List.getElem?_eq_getElem (by omega)] at hk
  simpa using hk

/-- What came in, and what the state still adds, go through the transfer function. -/
theorem answers_transfer (hB : 2 ≤ B_ORDER) (hA : 2 ≤ A_ORDER) (s : IIRFilter B_ORDER A_ORDER R)
    (xs : List R) :
    ∃ t ys, PartialRun.run (answer process) (s, []) xs = some (t, ys) ∧
      ys.length = xs.length ∧ ∀ n < xs.length,
        PowerSeries.coeff n ((signal ys : R[X]) : PowerSeries R) = PowerSeries.coeff n
          (transfer s.numerator s.denominator * ((signal xs : R[X]) : PowerSeries R) +
            transfer s.memory s.denominator) := by
  obtain ⟨t, ys, hrun, -, -, -, hlen, hsolved⟩ := answers_run hB hA s xs
  refine ⟨t, ys, hrun, hlen, ?_⟩
  have hseries := (solves_iff s.denominator_zero
    (z := ((s.numerator * signal xs + s.memory : R[X]) : PowerSeries R))).mp fun n hn => by
      rw [← Polynomial.coe_mul, Polynomial.coeff_coe, hsolved n hn, Polynomial.coeff_coe]
  intro n hn
  rw [hseries n hn, transfer_eq s.numerator, transfer_eq s.memory, Polynomial.coe_add,
    Polynomial.coe_mul, mul_add, mul_assoc]

theorem answers_reset (hB : 2 ≤ B_ORDER) (hA : 2 ≤ A_ORDER) (s : IIRFilter B_ORDER A_ORDER R)
    (xs : List R) :
    ∃ t ys, PartialRun.run (answer process) (s.reset, []) xs = some (t, ys) ∧
      ys.length = xs.length ∧ ∀ n < xs.length,
        PowerSeries.coeff n ((signal ys : R[X]) : PowerSeries R) = PowerSeries.coeff n
          (transfer s.numerator s.denominator * ((signal xs : R[X]) : PowerSeries R)) := by
  obtain ⟨t, ys, hrun, hlen, hcoeff⟩ := answers_transfer hB hA s.reset xs
  have hnone : transfer s.reset.memory s.reset.denominator = 0 := by
    rw [memory_reset, transfer, Polynomial.coe_zero, zero_mul]
  rw [hnone, add_zero] at hcoeff
  exact ⟨t, ys, hrun, hlen, hcoeff⟩

theorem answer_eq_some {S : Type} {process : S → T → Option (T × S)} {st : S × List T} {input : T}
    {s : S} {ys : List T} :
    answer process st input = some (s, ys) ↔
      ∃ out, process st.1 input = some (out, s) ∧ ys = st.2 ++ [out] := by
  rw [answer, Option.bind_eq_bind, Option.bind_eq_some_iff]
  constructor
  · rintro ⟨⟨out, t⟩, hprocess, hsome⟩
    obtain ⟨rfl, rfl⟩ := Prod.mk.inj (Option.some.inj hsome)
    exact ⟨out, hprocess, rfl⟩
  · rintro ⟨out, hprocess, rfl⟩
    exact ⟨(out, s), hprocess, rfl⟩

variable {B' A' : Nat}

/-- The second filter of a cascade hears what the first one answers. -/
theorem cascade_run (hB : 2 ≤ B_ORDER) (hA : 2 ≤ A_ORDER) (hB' : 2 ≤ B') (hA' : 2 ≤ A')
    (first : IIRFilter B_ORDER A_ORDER R) (second : IIRFilter B' A' R) (xs : List R) :
    ∃ t ms u ys, PartialRun.run (answer process) (first.reset, []) xs = some (t, ms) ∧
      PartialRun.run (answer process) (second.reset, []) ms = some (u, ys) ∧
      PartialRun.run (answer cascade) ((first.reset, second.reset), []) xs = some ((t, u), ys) := by
  induction xs using List.reverseRecOn with
  | nil => exact ⟨first.reset, [], second.reset, [], rfl, rfl, rfl⟩
  | append_singleton xs input ih =>
    obtain ⟨t, ms, u, ys, hfirst, hsecond, hboth⟩ := ih
    obtain ⟨t', ms', hfirst', -⟩ := answers_run hB hA first.reset (xs ++ [input])
    rw [PartialRun.run_concat, hfirst, Option.bind_some] at hfirst'
    obtain ⟨middle, hmiddle, rfl⟩ := answer_eq_some.mp hfirst'
    obtain ⟨u', ys', hsecond', -⟩ := answers_run hB' hA' second.reset (ms ++ [middle])
    rw [PartialRun.run_concat, hsecond, Option.bind_some] at hsecond'
    obtain ⟨out, hout, rfl⟩ := answer_eq_some.mp hsecond'
    refine ⟨t', ms ++ [middle], u', ys ++ [out], ?_, ?_, ?_⟩
    · rw [PartialRun.run_concat, hfirst, Option.bind_some, hfirst']
    · rw [PartialRun.run_concat, hsecond, Option.bind_some, hsecond']
    · rw [PartialRun.run_concat, hboth, Option.bind_some, answer_eq_some]
      simp only at hmiddle hout
      refine ⟨out, ?_, rfl⟩
      simp only [cascade, hmiddle, hout, Option.bind_eq_bind, Option.bind_some]

theorem cascade_transfer (hB : 2 ≤ B_ORDER) (hA : 2 ≤ A_ORDER) (hB' : 2 ≤ B') (hA' : 2 ≤ A')
    (first : IIRFilter B_ORDER A_ORDER R) (second : IIRFilter B' A' R) (xs : List R) :
    ∃ t, PartialRun.run (answer cascade) ((first.reset, second.reset), []) xs =
      some (t, (List.range xs.length).map fun n => PowerSeries.coeff n
        (transfer (first.numerator * second.numerator) (first.denominator * second.denominator) *
          ((signal xs : R[X]) : PowerSeries R))) := by
  obtain ⟨t, ms, u, ys, hfirst, hsecond, hboth⟩ := cascade_run hB hA hB' hA' first second xs
  obtain ⟨t', ms', hfirst', hlen, hcoeff⟩ := answers_reset hB hA first xs
  obtain ⟨u', ys', hsecond', hlen', hcoeff'⟩ := answers_reset hB' hA' second ms
  obtain ⟨rfl, rfl⟩ := Prod.mk.inj (Option.some.inj (hfirst.symm.trans hfirst'))
  obtain ⟨rfl, rfl⟩ := Prod.mk.inj (Option.some.inj (hsecond.symm.trans hsecond'))
  refine ⟨(t, u), hboth.trans (congrArg (fun zs => some ((t, u), zs)) ?_)⟩
  refine eq_map_range (hlen'.trans hlen) fun n hn => ?_
  rw [hcoeff' n (hlen ▸ hn), ← transfer_mul first.denominator_zero second.denominator_zero,
    mul_comm (transfer first.numerator _), mul_assoc]
  exact series_mul_congr _ fun k hk => hcoeff k (by omega)

end

end IIRFilter

/-- A filter runs through every sequence of calls exactly if both orders are at least two: with a
smaller one the newest value is written beyond the end of a state. -/
theorem iirFilter_runs_iff {R : Type} [CommRing R] {B_ORDER A_ORDER : Nat} :
    (∀ calls : List (IIRCall B_ORDER A_ORDER R),
        ∃ r, PartialRun.run IIRFilter.next (IIRFilter.new, []) calls = some r) ↔
      2 ≤ B_ORDER ∧ 2 ≤ A_ORDER := by
  constructor
  · intro h
    obtain ⟨r, hr⟩ := h [.process 0]
    by_contra hsmall
    have hempty : B_ORDER - 1 = 0 ∨ A_ORDER - 1 = 0 := by omega
    have hfails : PartialRun.run IIRFilter.next (IIRFilter.new, []) [.process (0 : R)] =
        (none : Option (IIRFilter B_ORDER A_ORDER R × List R)) := by
      simp [PartialRun.run, IIRFilter.next, IIRFilter.answer, IIRFilter.process_fails hempty]
    rw [hfails] at hr
    cases hr
  · rintro ⟨hB, hA⟩ calls
    obtain ⟨s, ys, hrun, -⟩ := IIRFilter.remembers_run hB hA calls
    exact ⟨(s, ys), hrun⟩

/-- After any calls, changes of the coefficients included, the next answer solves the difference
equation over all that came in and was answered since the reset. -/
theorem iirFilter_difference {R : Type} [CommRing R] {B_ORDER A_ORDER : Nat} (hB : 2 ≤ B_ORDER)
    (hA : 2 ≤ A_ORDER) (calls : List (IIRCall B_ORDER A_ORDER R)) (input : R) :
    ∃ s ys out t, PartialRun.run IIRFilter.next (IIRFilter.new, []) calls = some (s, ys) ∧
      ys.length = (IIRCall.fed calls).length ∧ s.process input = some (out, t) ∧
      (s.denominator * signal (ys ++ [out])).coeff ys.length =
        (s.numerator * signal (IIRCall.fed calls ++ [input])).coeff ys.length := by
  obtain ⟨s, ys, hrun, hs, hlen⟩ := IIRFilter.remembers_run hB hA calls
  obtain ⟨out, t, hprocess, -, -, -, hsolves⟩ := hs.solves hB hA input
  exact ⟨s, ys, out, t, hrun, hlen, hprocess, hlen ▸ hsolves⟩

theorem iirFilter_difference_changed :
    ∃ s ys t, PartialRun.run IIRFilter.next (IIRFilter.new, [])
        [.setCoefficients #v[1, 0] #v[-1], .process 2, .setCoefficients #v[1, (1 : Int)] #v[-2]] =
          some (s, ys) ∧
      (s.process 3 : Option (Int × IIRFilter 2 2 Int)) = some (9, t) ∧
      (s.denominator * signal (ys ++ [9])).coeff ys.length =
        (s.numerator * signal [2, 3]).coeff ys.length := by
  have hB : 2 ≤ 2 := le_refl 2
  obtain ⟨s, ys, out, t, hrun, hlen, hprocess, hsolves⟩ := iirFilter_difference hB hB
    [.setCoefficients #v[1, 0] #v[-1], .process 2, .setCoefficients #v[1, (1 : Int)] #v[-2]] 3
  have hout : (PartialRun.run IIRFilter.next (IIRFilter.new, [])
      [.setCoefficients #v[1, 0] #v[-1], .process 2, .setCoefficients #v[1, (1 : Int)] #v[-2]] >>=
        fun st : IIRFilter 2 2 Int × List Int => st.1.process 3).map Prod.fst = some 9 := by decide
  rw [hrun, Option.bind_eq_bind, Option.bind_some, hprocess] at hout
  obtain rfl : out = 9 := Option.some.inj hout
  exact ⟨s, ys, t, hrun, hprocess, hsolves⟩

/-- Whatever the filter was used for before, from a reset on it multiplies its input by the
transfer function. -/
theorem iirFilter_transfers {R : Type} [CommRing R] {B_ORDER A_ORDER : Nat} (hB : 2 ≤ B_ORDER)
    (hA : 2 ≤ A_ORDER) (s : IIRFilter B_ORDER A_ORDER R) (xs : List R) :
    ∃ t, PartialRun.run (IIRFilter.answer IIRFilter.process) (s.reset, []) xs =
      some (t, (List.range xs.length).map fun n => PowerSeries.coeff n
        (transfer s.numerator s.denominator * ((signal xs : Polynomial R) : PowerSeries R))) := by
  obtain ⟨t, ys, hrun, hlen, hcoeff⟩ := IIRFilter.answers_reset hB hA s xs
  rw [IIRFilter.eq_map_range hlen hcoeff] at hrun
  exact ⟨t, hrun⟩

def integrator : IIRFilter 2 2 Int := ⟨#v[1, 0], #v[-1], #v[5], #v[6]⟩

theorem iirFilter_transfers_integrator :
    ∃ t, PartialRun.run (IIRFilter.answer IIRFilter.process) (integrator.reset, []) [1, 2, 3] =
      some (t, (List.range 3).map fun n => PowerSeries.coeff n
        (transfer integrator.numerator integrator.denominator *
          ((signal [1, 2, 3] : Polynomial Int) : PowerSeries Int))) :=
  iirFilter_transfers (by decide) (by decide) integrator [1, 2, 3]

/-- Two filters in series answer alike in either order, and as one filter does whose polynomials
are the products of theirs. -/
theorem iirFilter_cascades {R : Type} [CommRing R] {B A B' A' B'' A'' : Nat} (hB : 2 ≤ B)
    (hA : 2 ≤ A) (hB' : 2 ≤ B') (hA' : 2 ≤ A') (hB'' : 2 ≤ B'') (hA'' : 2 ≤ A'')
    (first : IIRFilter B A R) (second : IIRFilter B' A' R) {whole : IIRFilter B'' A'' R}
    (hnumerator : whole.numerator = first.numerator * second.numerator)
    (hdenominator : whole.denominator = first.denominator * second.denominator) (xs : List R) :
    ∃ ys t u v,
      PartialRun.run (IIRFilter.answer IIRFilter.cascade) ((first.reset, second.reset), []) xs =
        some (t, ys) ∧
      PartialRun.run (IIRFilter.answer IIRFilter.cascade) ((second.reset, first.reset), []) xs =
        some (u, ys) ∧
      PartialRun.run (IIRFilter.answer IIRFilter.process) (whole.reset, []) xs = some (v, ys) := by
  obtain ⟨t, ht⟩ := IIRFilter.cascade_transfer hB hA hB' hA' first second xs
  obtain ⟨u, hu⟩ := IIRFilter.cascade_transfer hB' hA' hB hA second first xs
  obtain ⟨v, ys, hv, hlen, hcoeff⟩ := IIRFilter.answers_reset hB'' hA'' whole xs
  rw [IIRFilter.eq_map_range hlen hcoeff, hnumerator, hdenominator] at hv
  rw [mul_comm second.numerator, mul_comm second.denominator] at hu
  exact ⟨_, t, u, v, ht, hu, hv⟩

def differentiator : IIRFilter 2 3 Int := ⟨#v[1, -1], #v[0, 2], #v[0], #v[0, 0]⟩

theorem iirFilter_cascades_integrator :
    ∃ ys t u v,
      PartialRun.run (IIRFilter.answer IIRFilter.cascade)
        ((integrator.reset, differentiator.reset), []) [1, 2, 3] = some (t, ys) ∧
      PartialRun.run (IIRFilter.answer IIRFilter.cascade)
        ((differentiator.reset, integrator.reset), []) [1, 2, 3] = some (u, ys) ∧
      PartialRun.run (IIRFilter.answer IIRFilter.process)
        ((⟨#v[1, -1], #v[-1, 2, -2], #v[0], #v[0, 0, 0]⟩ : IIRFilter 2 4 Int).reset, []) [1, 2, 3] =
          some (v, ys) := by
  refine iirFilter_cascades (by decide) (by decide) (by decide) (by decide) (by decide) (by decide)
    integrator differentiator ?_ ?_ [1, 2, 3]
  · simp [IIRFilter.numerator, signal, integrator, differentiator]
  · simp [IIRFilter.denominator, signal, integrator, differentiator]
    ring

end PluginSdk
