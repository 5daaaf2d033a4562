import PluginSdk.IirFilter
import PluginSdk.StableSeries

/-! What a recursive filter says about itself, and what it does. In real
arithmetic a filter whose poles are inside the unit circle answers a sine, from
whatever state, by the sine that its frequency response announces. -/

namespace PluginSdk

open Convolution TransferFunction StableSeries Filter Topology

/-- The side condition of the literal, under a name. -/
theorem two_atLeastTwo : Nat.AtLeastTwo 2 := ⟨le_refl 2⟩

attribute [local instance] two_atLeastTwo

/-- The functions and constants of the mathematical library. -/
class MathFunctions (T : Type) where
  pi : T
  sqrt2 : T
  sin : T → T
  cos : T → T
  tan : T → T
  exp : T → T
  sqrt : T → T
  hypot : T → T → T
  atan2 : T → T → T

noncomputable instance : MathFunctions ℝ where
  pi := Real.pi
  sqrt2 := √2
  sin := Real.sin
  cos := Real.cos
  tan := Real.tan
  exp := Real.exp
  sqrt := Real.sqrt
  hypot x y := √(x ^ 2 + y ^ 2)
  atan2 y x := Complex.arg ⟨x, y⟩

/-- A complex number of the standard library. -/
structure StdComplex (T : Type) where
  re : T
  im : T

namespace StdComplex

variable {T : Type}

/-- Adds `c * z`. -/
def addScaled [Add T] [Mul T] (sum : StdComplex T) (c : T) (z : StdComplex T) : StdComplex T :=
  ⟨sum.re + c * z.re, sum.im + c * z.im⟩

def div [Add T] [Sub T] [Mul T] [Div T] (z w : StdComplex T) : StdComplex T :=
  ⟨(z.re * w.re + z.im * w.im) / (w.re * w.re + w.im * w.im),
    (z.im * w.re - z.re * w.im) / (w.re * w.re + w.im * w.im)⟩

def abs [MathFunctions T] (z : StdComplex T) : T := MathFunctions.hypot z.re z.im

def arg [MathFunctions T] (z : StdComplex T) : T := MathFunctions.atan2 z.im z.re

end StdComplex

namespace IIRFilter

variable {B_ORDER A_ORDER : Nat}

section

variable {T : Type} [Field T] [MathFunctions T]

/-- A sum takes the term of an array if that reaches so far. -/
def addCoefficient {n : Nat} (reaches : Prop) [Decidable reaches] (cs : Vector T n) (i : Nat)
    (z sum : StdComplex T) : Option (StdComplex T) :=
  if reaches then cs[i]?.map fun c => sum.addScaled c z else some sum

def addTerm (s : IIRFilter B_ORDER A_ORDER T) (w : T) (sums : StdComplex T × StdComplex T)
    (k : Nat) : Option (StdComplex T × StdComplex T) := do
  let i := k + 1
  let p := -(i : T) * w
  let z : StdComplex T := ⟨MathFunctions.cos p, MathFunctions.sin p⟩
  let bSum ← addCoefficient (i < B_ORDER) s.b i z sums.1
  let aSum ← addCoefficient (i < A_ORDER) s.a (i - 1) z sums.2
  some (bSum, aSum)

def getTransferFunction (s : IIRFilter B_ORDER A_ORDER T) (w : T) : Option (StdComplex T) := do
  let b ← s.b[0]?
  let (bSum, aSum) ← PartialRun.run (s.addTerm w) (⟨b, 0⟩, ⟨1, 0⟩)
    (List.range (max B_ORDER A_ORDER - 1))
  some (bSum.div aSum)

def getFrequencyResponse (s : IIRFilter B_ORDER A_ORDER T) (f : T) : Option T :=
  (s.getTransferFunction (2 * MathFunctions.pi * f)).map StdComplex.abs

def getFrequencyPhase (s : IIRFilter B_ORDER A_ORDER T) (f : T) : Option T :=
  (s.getTransferFunction (2 * MathFunctions.pi * f)).map StdComplex.arg

end

end IIRFilter

namespace StdComplex

def toComplex (z : StdComplex ℝ) : ℂ := ⟨z.re, z.im⟩

theorem toComplex_addScaled (sum : StdComplex ℝ) (c : ℝ) (z : StdComplex ℝ) :
    (sum.addScaled c z).toComplex = sum.toComplex + c * z.toComplex := by
  apply Complex.ext <;> simp [toComplex, addScaled]

theorem toComplex_div (z w : StdComplex ℝ) : (z.div w).toComplex = z.toComplex / w.toComplex := by
  apply Complex.ext
  · simp [toComplex, div, Complex.div_re, Complex.normSq_apply, add_div]
  · simp [toComplex, div, Complex.div_im, Complex.normSq_apply, sub_div]

theorem abs_eq (z : StdComplex ℝ) : z.abs = ‖z.toComplex‖ := by
  rw [Complex.norm_eq_sqrt_sq_add_sq]
  rfl

theorem arg_eq (z : StdComplex ℝ) : z.arg = z.toComplex.arg := rfl

end StdComplex

namespace IIRFilter

variable {B_ORDER A_ORDER : Nat}

theorem numerator_of_le {s : IIRFilter B_ORDER A_ORDER ℝ} {i : Nat} (hi : B_ORDER ≤ i) :
    s.numerator.coeff i = 0 :=
  coeff_signal_of_le (by simpa using hi)

theorem denominator_succ (s : IIRFilter B_ORDER A_ORDER ℝ) (i : Nat) :
    s.denominator.coeff (i + 1) = (signal s.a.toList).coeff i := by
  rw [denominator, Polynomial.coeff_add, Polynomial.coeff_one, if_neg (Nat.succ_ne_zero i), zero_add,
    Polynomial.coeff_X_mul]

theorem denominator_of_le {s : IIRFilter B_ORDER A_ORDER ℝ} {i : Nat} (hi : A_ORDER ≤ i)
    (hA : 0 < A_ORDER) : s.denominator.coeff i = 0 := by
  obtain ⟨k, rfl⟩ : ∃ k, i = k + 1 := ⟨i - 1, by omega⟩
  rw [denominator_succ]
  exact coeff_signal_of_le (by rw [Vector.length_toList]; omega)

theorem addCoefficient_eq {n : Nat} {reaches : Prop} [Decidable reaches] {cs : Vector ℝ n} {i : Nat}
    {v : ℝ} (hin : reaches → cs[i]? = some v) (hout : ¬ reaches → v = 0) (z sum : StdComplex ℝ) :
    ∃ sum', addCoefficient reaches cs i z sum = some sum' ∧
      sum'.toComplex = sum.toComplex + v * z.toComplex := by
  by_cases h : reaches
  · rw [addCoefficient, if_pos h, hin h]
    exact ⟨_, rfl, StdComplex.toComplex_addScaled sum v z⟩
  · rw [addCoefficient, if_neg h, hout h]
    exact ⟨sum, rfl, by simp⟩

/-- One term of a sum over the powers of a rotation. -/
theorem addTerm_eq (s : IIRFilter B_ORDER A_ORDER ℝ) (w : ℝ) (sums : StdComplex ℝ × StdComplex ℝ)
    (k : Nat) (hA : 0 < A_ORDER) :
    ∃ sums', s.addTerm w sums k = some sums' ∧
      sums'.1.toComplex = sums.1.toComplex +
        s.numerator.coeff (k + 1) * Complex.exp (-w * Complex.I) ^ (k + 1) ∧
      sums'.2.toComplex = sums.2.toComplex +
        s.denominator.coeff (k + 1) * Complex.exp (-w * Complex.I) ^ (k + 1) := by
  have hturn : StdComplex.toComplex ⟨Real.cos (-(k + 1 : ℕ) * w), Real.sin (-(k + 1 : ℕ) * w)⟩ =
      Complex.exp (-w * Complex.I) ^ (k + 1) := by
    have hangle : ((k + 1 : ℕ) : ℂ) * (-w * Complex.I) = ((-(k + 1 : ℕ) * w : ℝ) : ℂ) * Complex.I := by
      push_cast
      ring
    rw [← Complex.exp_nat_mul, hangle]
    apply Complex.ext
    · rw [Complex.exp_ofReal_mul_I_re]
      rfl
    · rw [Complex.exp_ofReal_mul_I_im]
      rfl
  have hbIn (h : k + 1 < B_ORDER) : s.b[k + 1]? = some (s.numerator.coeff (k + 1)) :=
    getElem?_eq_coeff s.b h
  have haIn (h : k + 1 < A_ORDER) : s.a[k]? = some (s.denominator.coeff (k + 1)) := by
    rw [denominator_succ]
    exact getElem?_eq_coeff s.a (by omega)
  obtain ⟨bSum, hb, hbSum⟩ := addCoefficient_eq hbIn (fun h => numerator_of_le (not_lt.mp h))
    ⟨Real.cos (-(k + 1 : ℕ) * w), Real.sin (-(k + 1 : ℕ) * w)⟩ sums.1
  obtain ⟨aSum, ha, haSum⟩ := addCoefficient_eq haIn (fun h => denominator_of_le (not_lt.mp h) hA)
    ⟨Real.cos (-(k + 1 : ℕ) * w), Real.sin (-(k + 1 : ℕ) * w)⟩ sums.2
  refine ⟨(bSum, aSum), ?_, hturn ▸ hbSum, hturn ▸ haSum⟩
  exact Option.bind_eq_some_iff.mpr ⟨bSum, hb, Option.bind_eq_some_iff.mpr ⟨aSum, ha, rfl⟩⟩

/-- The sums after the terms below `n`. -/
structure SumsTo (s : IIRFilter B_ORDER A_ORDER ℝ) (w : ℝ) (n : Nat)
    (sums : StdComplex ℝ × StdComplex ℝ) : Prop where
  b : sums.1.toComplex =
    ∑ i ∈ Finset.range n, (s.numerator.coeff i : ℂ) * Complex.exp (-w * Complex.I) ^ i
  a : sums.2.toComplex =
    ∑ i ∈ Finset.range n, (s.denominator.coeff i : ℂ) * Complex.exp (-w * Complex.I) ^ i

theorem sumsTo_one (s : IIRFilter B_ORDER A_ORDER ℝ) (w : ℝ) :
    SumsTo s w 1 (⟨s.numerator.coeff 0, 0⟩, ⟨1, 0⟩) where
  b := by
    rw [Finset.sum_range_one, pow_zero, mul_one]
    rfl
  a := by
    rw [Finset.sum_range_one, pow_zero, mul_one, denominator_zero]
    rfl

/-- The transfer function is the quotient of the polynomials, on the unit circle. -/
theorem getTransferFunction_eq (hB : 0 < B_ORDER) (hA : 0 < A_ORDER)
    (s : IIRFilter B_ORDER A_ORDER ℝ) (w : ℝ) :
    ∃ h, s.getTransferFunction w = some h ∧
      h.toComplex = quotient s.numerator s.denominator (Complex.exp (-w * Complex.I)) := by
  obtain ⟨sums, hrun, hsums⟩ := PartialRun.run_range (P := fun k => SumsTo s w (k + 1))
    (n := max B_ORDER A_ORDER - 1) (s.sumsTo_one w) fun k sums _ hsums => by
      obtain ⟨sums', hadd, hb, ha⟩ := s.addTerm_eq w sums k hA
      refine ⟨sums', hadd, ?_, ?_⟩
      · rw [hb, hsums.b, ← Finset.sum_range_succ]
      · rw [ha, hsums.a, ← Finset.sum_range_succ]
  have heval (p : Polynomial ℝ) (hp : ∀ i, max B_ORDER A_ORDER ≤ i → p.coeff i = 0) (z : ℂ) :
      ∑ i ∈ Finset.range (max B_ORDER A_ORDER - 1 + 1), (p.coeff i : ℂ) * z ^ i =
        (p.map Complex.ofRealHom).eval z := by
    have hdegree : p.natDegree < max B_ORDER A_ORDER - 1 + 1 := by
      rw [Nat.lt_succ_iff, Polynomial.natDegree_le_iff_coeff_eq_zero]
      exact fun i hi => hp i (by omega)
    rw [Polynomial.eval_map, Polynomial.eval₂_eq_sum_range' _ hdegree]
    rfl
  refine ⟨sums.1.div sums.2, ?_, ?_⟩
  · rw [getTransferFunction, getElem?_eq_coeff s.b hB]
    exact Option.bind_eq_some_iff.mpr ⟨_, rfl, Option.bind_eq_some_iff.mpr ⟨sums, hrun, rfl⟩⟩
  · rw [StdComplex.toComplex_div, hsums.b, hsums.a, heval _ fun i hi => numerator_of_le (by omega),
      heval _ fun i hi => denominator_of_le (by omega) hA, quotient]

theorem getFrequencyResponse_eq (hB : 0 < B_ORDER) (hA : 0 < A_ORDER)
    (s : IIRFilter B_ORDER A_ORDER ℝ) (f : ℝ) :
    s.getFrequencyResponse f = some ‖quotient s.numerator s.denominator
      (Complex.exp (-(2 * Real.pi * f : ℝ) * Complex.I))‖ := by
  obtain ⟨h, hsome, hh⟩ := s.getTransferFunction_eq hB hA (2 * Real.pi * f)
  rw [← hh, ← StdComplex.abs_eq]
  exact congrArg (Option.map StdComplex.abs) hsome

theorem getFrequencyPhase_eq (hB : 0 < B_ORDER) (hA : 0 < A_ORDER)
    (s : IIRFilter B_ORDER A_ORDER ℝ) (f : ℝ) :
    s.getFrequencyPhase f = some (quotient s.numerator s.denominator
      (Complex.exp (-(2 * Real.pi * f : ℝ) * Complex.I))).arg := by
  obtain ⟨h, hsome, hh⟩ := s.getTransferFunction_eq hB hA (2 * Real.pi * f)
  rw [← hh, ← StdComplex.arg_eq]
  exact congrArg (Option.map StdComplex.arg) hsome

/-- The answers to an endless input, from any state. -/
noncomputable def answers (s : IIRFilter B_ORDER A_ORDER ℝ) (x : Nat → ℝ) (n : Nat) : ℝ :=
  PowerSeries.coeff n (transfer s.numerator s.denominator * PowerSeries.mk x +
    transfer s.memory s.denominator)

theorem run_answers (hB : 2 ≤ B_ORDER) (hA : 2 ≤ A_ORDER) (s : IIRFilter B_ORDER A_ORDER ℝ)
    (x : Nat → ℝ) (n : Nat) :
    ∃ t, PartialRun.run (answer process) (s, []) ((List.range n).map x) =
      some (t, (List.range n).map (s.answers x)) := by
  obtain ⟨t, ys, hrun, hlen, hcoeff⟩ := answers_transfer hB hA s ((List.range n).map x)
  rw [List.length_map, List.length_range] at hlen hcoeff
  have hsame : ∀ k < n, PowerSeries.coeff k ((signal ys : Polynomial ℝ) : PowerSeries ℝ) =
      PowerSeries.coeff k (transfer s.numerator s.denominator * PowerSeries.mk x +
        transfer s.memory s.denominator) := by
    intro k hk
    rw [hcoeff k hk, map_add, map_add]
    refine congrArg (· + _) (series_mul_congr _ fun i hi => ?_)
    rw [Polynomial.coeff_coe, coeff_signal, PowerSeries.coeff_mk, List.getElem?_map,
      List.getElem?_range (by omega)]
    rfl
  rw [eq_map_range hlen hsame] at hrun
  exact ⟨t, hrun⟩

variable {s : IIRFilter B_ORDER A_ORDER ℝ}

/-- What the state adds dies away, and the sine settles. -/
theorem answers_settle (hforgets : Forgets s.denominator) (amplitude speed phase : ℝ) :
    Tendsto (fun n => s.answers (sine amplitude speed phase) n -
      sine (‖quotient s.numerator s.denominator (Complex.exp (-speed * Complex.I))‖ * amplitude) speed
        (phase + (quotient s.numerator s.denominator (Complex.exp (-speed * Complex.I))).arg) n)
      atTop (𝓝 0) := by
  have hsettles := sine_settles s.numerator s.denominator_zero hforgets amplitude speed phase
  have hsum := hsettles.add (real_tendsto_zero s.memory s.denominator_zero hforgets)
  rw [add_zero] at hsum
  refine hsum.congr fun n => ?_
  rw [answers, map_add, sub_add_eq_add_sub]

/-- A filter that forgets answers a bounded input by a bounded output. -/
theorem bounded_run (hB : 2 ≤ B_ORDER) (hA : 2 ≤ A_ORDER)
    (hforgets : Forgets s.denominator) :
    ∃ K rest : ℝ, ∀ xs M, (∀ x ∈ xs, |x| ≤ M) → ∃ t ys,
      PartialRun.run (answer process) (s, []) xs = some (t, ys) ∧
        ys.length = xs.length ∧ ∀ y ∈ ys, |y| ≤ K * M + rest := by
  obtain ⟨K, hK⟩ := real_bounded s.denominator_zero hforgets s.numerator
  obtain ⟨rest, hrest⟩ := real_bounded s.denominator_zero hforgets s.memory
  refine ⟨K, rest * 1, fun xs M hxs => ?_⟩
  obtain ⟨t, ys, hrun, hlen, hcoeff⟩ := answers_transfer hB hA s xs
  refine ⟨t, ys, hrun, hlen, fun y hy => ?_⟩
  obtain ⟨n, hn, rfl⟩ := List.getElem_of_mem hy
  have hn' : n < xs.length := hlen ▸ hn
  have hy : ys[n] = PowerSeries.coeff n ((signal ys : Polynomial ℝ) : PowerSeries ℝ) := by
    rw [Polynomial.coeff_coe, coeff_signal, List.getElem?_eq_getElem hn, Option.getD_some]
  have hin : ∀ k ≤ n, |PowerSeries.coeff k ((signal xs : Polynomial ℝ) : PowerSeries ℝ)| ≤ M := by
    intro k hk
    have hk' : k < xs.length := by omega
    rw [Polynomial.coeff_coe, coeff_signal, List.getElem?_eq_getElem hk', Option.getD_some]
    exact hxs _ (List.getElem_mem hk')
  -- the state counts like a single bounded value at the start
  have hone : ∀ k ≤ n, |PowerSeries.coeff k (1 : PowerSeries ℝ)| ≤ 1 := by
    intro k _
    rw [PowerSeries.coeff_one]
    split_ifs <;> simp
  have hmemory := hrest 1 1 n hone
  rw [mul_one (transfer _ _)] at hmemory
  rw [hy, hcoeff n hn', map_add]
  exact (abs_add_le _ _).trans (add_le_add (hK _ M n hin) hmemory)

end IIRFilter

/-- A filter with its poles inside the unit circle answers a sine, from any state, by a sine that
is amplified and shifted as its frequency response says, in the long run. -/
theorem iirFilter_sine {B_ORDER A_ORDER : Nat} (hB : 2 ≤ B_ORDER) (hA : 2 ≤ A_ORDER)
    {s : IIRFilter B_ORDER A_ORDER ℝ} (hforgets : Forgets s.denominator)
    (amplitude f phase : ℝ) :
    ∃ response turn y, s.getFrequencyResponse f = some response ∧
      s.getFrequencyPhase f = some turn ∧
      (∀ n, ∃ t, PartialRun.run (IIRFilter.answer IIRFilter.process) (s, [])
        ((List.range n).map (sine amplitude (2 * Real.pi * f) phase)) =
          some (t, (List.range n).map y)) ∧
      Tendsto (fun n => y n - sine (response * amplitude) (2 * Real.pi * f) (phase + turn) n)
        atTop (𝓝 0) :=
  ⟨_, _, _, s.getFrequencyResponse_eq (by omega) (by omega) f,
    s.getFrequencyPhase_eq (by omega) (by omega) f, s.run_answers hB hA _,
    IIRFilter.answers_settle hforgets amplitude (2 * Real.pi * f) phase⟩

/-- A pole at one half, and a state left over from earlier use. -/
noncomputable def smoother : IIRFilter 2 2 ℝ := ⟨#v[1 / 2, 0], #v[-1 / 2], #v[1], #v[-2]⟩

theorem iirFilter_sine_smoother :
    ∃ response turn y, smoother.getFrequencyResponse (1 / 4) = some response ∧
      smoother.getFrequencyPhase (1 / 4) = some turn ∧
      (∀ n, ∃ t, PartialRun.run (IIRFilter.answer IIRFilter.process) (smoother, [])
        ((List.range n).map (sine 5 (2 * Real.pi * (1 / 4)) 0)) =
          some (t, (List.range n).map y)) ∧
      Tendsto (fun n => y n - sine (response * 5) (2 * Real.pi * (1 / 4)) (0 + turn) n)
        atTop (𝓝 0) := by
  have hforgets : Forgets smoother.denominator := by
    intro z hz hroot
    have hpole : 1 - z / 2 = 0 := by
      rw [← hroot]
      simp [IIRFilter.denominator, smoother, signal]
      ring
    have hout : z = 2 := by linear_combination (-2) * hpole
    rw [hout] at hz
    norm_num at hz
  exact iirFilter_sine (by decide) (by decide) hforgets 5 (1 / 4) 0

end PluginSdk
