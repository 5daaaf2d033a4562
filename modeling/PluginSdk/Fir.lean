import PluginSdk.Convolution
import PluginSdk.PartialRun

/-! The direct sum of an FIR filter. A read outside an array fails. -/

namespace PluginSdk

def convolveNaive {T : Type} [Zero T] [Add T] [Mul T] (input kernel : List T) (len : Nat) :
    Option T :=
  (List.range len).foldlM (fun y i => do
    let x ← input[len - 1 - i]?
    let k ← kernel[i]?
    some (y + x * k)) 0

theorem convolveNaive_exists {T : Type} [Zero T] [Add T] [Mul T] {input kernel : List T} {len : Nat}
    (hinput : len ≤ input.length) (hkernel : len ≤ kernel.length) :
    ∃ y, convolveNaive input kernel len = some y := by
  have hreads (i : Nat) (hi : i < len) (y : T) : ∃ y', (do
      let x ← input[len - 1 - i]?
      let k ← kernel[i]?
      some (y + x * k)) = some y' := by
    rw [List.getElem?_eq_getElem (show len - 1 - i < input.length by omega),
      List.getElem?_eq_getElem (show i < kernel.length by omega)]
    exact ⟨_, rfl⟩
  obtain ⟨y, hy, -⟩ := PartialRun.run_range (P := fun _ (_ : T) => True) (s := (0 : T)) trivial
    fun i y hi _ => (hreads i hi y).imp fun _ hy => ⟨hy, trivial⟩
  exact ⟨y, hy⟩

open Polynomial Convolution

variable {R : Type} [CommSemiring R]

/-- A loop that adds up what it reads. -/
theorem run_sum_from {G : Type} [AddCommMonoid G] {step : G → Nat → Option G} {v : Nat → G} {n : Nat}
    (h : ∀ i < n, ∀ y, step y i = some (y + v i)) (start : G) :
    PartialRun.run step start (List.range n) = some (start + ∑ i ∈ Finset.range n, v i) := by
  obtain ⟨t, ht, rfl⟩ := PartialRun.run_range
    (P := fun i y => y = start + ∑ j ∈ Finset.range i, v j) (s := start) (n := n)
    (by rw [Finset.sum_range_zero, add_zero])
    fun i y hi hy => ⟨y + v i, h i hi y, by rw [hy, Finset.sum_range_succ, add_assoc]⟩
  exact ht

theorem run_sum {step : R → Nat → Option R} {v : Nat → R} {n : Nat}
    (h : ∀ i < n, ∀ y, step y i = some (y + v i)) :
    PartialRun.run step 0 (List.range n) = some (∑ i ∈ Finset.range n, v i) := by
  rw [run_sum_from h, zero_add]

/-- Over the latest samples it is the convolution at the newest one. -/
theorem convolveNaive_window {kernel xs : List R} {N : Nat} (hkernel : kernel.length = N)
    (hxs : 0 < xs.length) :
    convolveNaive (window N xs) kernel N =
      some ((signal kernel * signal xs).coeff (xs.length - 1)) := by
  have htaps : ∀ i, N ≤ i → (signal kernel).coeff i = 0 := fun i hi =>
    coeff_signal_of_le (hkernel ▸ hi)
  rw [← sum_window (signal kernel) xs htaps hxs]
  refine run_sum fun i hi y => ?_
  have hx : (window N xs)[N - 1 - i]? = some ((window N xs)[N - 1 - i]?.getD 0) := by
    rw [getElem?_window xs hi, Option.getD_some]
  have hk : kernel[i]? = some ((signal kernel).coeff i) := by
    rw [coeff_signal, List.getElem?_eq_getElem (hkernel ▸ hi), Option.getD_some]
  rw [hx, hk, mul_comm, Option.getD_some]
  rfl

end PluginSdk
