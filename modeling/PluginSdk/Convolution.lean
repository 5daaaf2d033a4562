import Mathlib.Algebra.Polynomial.Expand

/-! Signals as polynomials: the sample at time `n` is the coefficient of degree
`n`, and convolving two signals is multiplying them. A signal cut into blocks is
a polynomial of polynomials. -/

namespace Convolution

open Polynomial

section

variable {T : Type*} [Zero T]

/-- The latest `N` samples, with silence before the first one. -/
def window (N : Nat) (xs : List T) : List T := (List.replicate N 0 ++ xs).drop xs.length

theorem length_window (N : Nat) (xs : List T) : (window N xs).length = N := by
  simp [window]

theorem window_append (N : Nat) (xs ys : List T) :
    window N (xs ++ ys) = (window N xs ++ ys).drop ys.length := by
  have hlen : xs.length ≤ (List.replicate N (0 : T) ++ xs).length := by simp
  rw [window, window, ← List.append_assoc, List.length_append, ← List.drop_drop,
    List.drop_append_of_le_length hlen]

theorem getElem?_window (xs : List T) {N i : Nat} (hi : i < N) :
    (window N xs)[N - 1 - i]? =
      some (if i < xs.length then xs[xs.length - 1 - i]?.getD 0 else 0) := by
  rw [window, List.getElem?_drop]
  by_cases h : i < xs.length
  · have hlast : xs.length - 1 - i < xs.length := by omega
    rw [if_pos h, List.getElem?_append_right (by rw [List.length_replicate]; omega),
      List.length_replicate, List.getElem?_eq_getElem hlast, Option.getD_some,
      ← List.getElem?_eq_getElem hlast]
    exact congrArg (xs[·]?) (by omega)
  · rw [if_neg h, List.getElem?_append_left (by rw [List.length_replicate]; omega),
      List.getElem?_replicate, if_pos (by omega)]

end

variable {R : Type*} [CommSemiring R]

noncomputable def signal : List R → R[X]
  | [] => 0
  | x :: xs => C x + X * signal xs

theorem coeff_signal (xs : List R) (n : Nat) : (signal xs).coeff n = xs[n]?.getD 0 := by
  induction xs generalizing n with
  | nil => rfl
  | cons x xs ih =>
    rw [signal, coeff_add]
    cases n with
    | zero => simp
    | succ n =>
      rw [coeff_C_succ, coeff_X_mul, zero_add, ih, List.getElem?_cons_succ]

theorem coeff_signal_of_le {xs : List R} {n : Nat} (h : xs.length ≤ n) :
    (signal xs).coeff n = 0 := by
  rw [coeff_signal, List.getElem?_eq_none h]
  rfl

theorem signal_append (xs ys : List R) :
    signal (xs ++ ys) = signal xs + X ^ xs.length * signal ys := by
  induction xs with
  | nil => simp [signal]
  | cons x xs ih =>
    rw [List.cons_append, signal, signal, ih, List.length_cons]
    ring

/-- The taps of a kernel, each at the sample it meets. -/
theorem coeff_mul_signal (p : R[X]) (xs : List R) {N : Nat} (hp : ∀ i, N ≤ i → p.coeff i = 0)
    (n : Nat) :
    (p * signal xs).coeff n =
      ∑ i ∈ Finset.range N, p.coeff i * if i ≤ n then xs[n - i]?.getD 0 else 0 := by
  have hdirect : (p * signal xs).coeff n =
      ∑ i ∈ Finset.range (n + 1), p.coeff i * if i ≤ n then xs[n - i]?.getD 0 else 0 := by
    rw [coeff_mul, Finset.Nat.sum_antidiagonal_eq_sum_range_succ
      (fun i j => p.coeff i * (signal xs).coeff j)]
    refine Finset.sum_congr rfl fun i hi => ?_
    rw [coeff_signal, if_pos (Nat.lt_succ_iff.mp (Finset.mem_range.mp hi))]
  -- both sums are that over the indices below `N` and up to `n`
  have hup : ∀ i, ¬ i < n + 1 → (p.coeff i * if i ≤ n then xs[n - i]?.getD 0 else 0) = 0 := by
    intro i hi
    rw [if_neg (by omega), mul_zero]
  have hlow : ∀ i, ¬ i < N → (p.coeff i * if i ≤ n then xs[n - i]?.getD 0 else 0) = 0 := by
    intro i hi
    rw [hp i (by omega), zero_mul]
  rw [hdirect]
  rcases Nat.le_total (n + 1) N with h | h
  · refine Finset.sum_subset (Finset.range_mono h) fun i _ hi => hup i ?_
    rwa [Finset.mem_range] at hi
  · refine (Finset.sum_subset (Finset.range_mono h) fun i _ hi => hlow i ?_).symm
    rwa [Finset.mem_range] at hi

/-- What is heard up to a time settles a convolution up to that time. -/
theorem coeff_mul_congr (p : R[X]) {q r : R[X]} {n : Nat} (h : ∀ k ≤ n, q.coeff k = r.coeff k) :
    (p * q).coeff n = (p * r).coeff n := by
  rw [coeff_mul, coeff_mul]
  refine Finset.sum_congr rfl fun ij hij => ?_
  rw [Finset.HasAntidiagonal.mem_antidiagonal] at hij
  rw [h _ (by omega)]

/-- A kernel of `N` taps run over the latest samples is the convolution at the newest one. -/
theorem sum_recent (p : R[X]) (xs : List R) {N : Nat} (hp : ∀ i, N ≤ i → p.coeff i = 0)
    (hxs : 0 < xs.length) :
    ∑ i ∈ Finset.range N, p.coeff i * xs.reverse[i]?.getD 0 =
      (p * signal xs).coeff (xs.length - 1) := by
  rw [coeff_mul_signal p xs hp]
  refine Finset.sum_congr rfl fun i _ => ?_
  by_cases hi : i < xs.length
  · rw [List.getElem?_reverse hi, if_pos (by omega)]
  · rw [List.getElem?_eq_none (by rw [List.length_reverse]; omega), if_neg (by omega)]
    rfl

theorem sum_window (p : R[X]) (xs : List R) {N : Nat} (hp : ∀ i, N ≤ i → p.coeff i = 0)
    (hxs : 0 < xs.length) :
    ∑ i ∈ Finset.range N, p.coeff i * (window N xs)[N - 1 - i]?.getD 0 =
      (p * signal xs).coeff (xs.length - 1) := by
  rw [← sum_recent p xs hp hxs]
  refine Finset.sum_congr rfl fun i hi => ?_
  rw [getElem?_window xs (Finset.mem_range.mp hi), Option.getD_some]
  by_cases hlt : i < xs.length
  · rw [if_pos hlt, List.getElem?_reverse hlt]
  · rw [if_neg hlt, List.getElem?_eq_none (by rw [List.length_reverse]; omega)]
    rfl

/-- A recurrence that feeds the latest answers back. -/
theorem coeff_feedback (p : R[X]) (ys : List R) (y : R) {N : Nat} (hp : ∀ i, N ≤ i → p.coeff i = 0) :
    ((1 + X * p) * signal (ys ++ [y])).coeff ys.length =
      y + ∑ i ∈ Finset.range N, p.coeff i * ys.reverse[i]?.getD 0 := by
  have hnewest : (signal (ys ++ [y])).coeff ys.length = y := by
    rw [coeff_signal, List.getElem?_concat_length, Option.getD_some]
  rw [add_mul, one_mul, coeff_add, hnewest, mul_assoc]
  refine congrArg (y + ·) ?_
  cases hlen : ys.length with
  | zero =>
    obtain rfl := List.length_eq_zero_iff.mp hlen
    simp
  | succ n =>
    have hbefore : ∀ k ≤ n, (signal (ys ++ [y])).coeff k = (signal ys).coeff k := by
      intro k hk
      rw [coeff_signal, coeff_signal, List.getElem?_append_left (by omega)]
    rw [coeff_X_mul, coeff_mul_congr p hbefore, sum_recent p ys hp (by omega), hlen,
      Nat.add_sub_cancel]

/-! Sampling rates in the ratio `O`. -/

/-- One phase of a kernel runs at the low rate. -/
theorem coeff_mul_expand (p s : R[X]) {O i : Nat} (hi : i < O) (n : Nat) :
    (p * expand R O s).coeff (n * O + i) = (contract O (X ^ (O - i) * p) * s).coeff (n + 1) := by
  have hO : O ≠ 0 := by omega
  have hshift : n * O + i + (O - i) = (n + 1) * O := by
    rw [Nat.succ_mul]
    omega
  rw [← contract_mul_expand hO, coeff_contract hO, mul_assoc, ← hshift, coeff_X_pow_mul]

theorem coeff_contract_shift (p : R[X]) {O i : Nat} (hi : i < O) (j : Nat) :
    (contract O (X ^ (O - i) * p)).coeff (j + 1) = p.coeff (O * j + i) := by
  have hshift : (j + 1) * O = O * j + i + (O - i) := by
    rw [Nat.succ_mul, Nat.mul_comm]
    omega
  rw [coeff_contract (by omega), hshift, coeff_X_pow_mul]

theorem coeff_contract_zero (p : R[X]) {O i : Nat} (hi : i < O) :
    (contract O (X ^ (O - i) * p)).coeff 0 = 0 := by
  rw [coeff_contract (by omega), Nat.zero_mul, coeff_X_pow_mul', if_neg (by omega)]

/-- Of a signal with silence stuffed in, only every `O`-th tap of a kernel hears something. -/
theorem sum_phase (p : R[X]) (xs : List R) {O Q i : Nat} (hp : ∀ k, O * Q ≤ k → p.coeff k = 0)
    (hi : i < O) (hxs : 0 < xs.length) :
    ∑ j ∈ Finset.range Q, p.coeff (O * j + i) * (window Q xs)[Q - 1 - j]?.getD 0 =
      (p * expand R O (signal xs)).coeff ((xs.length - 1) * O + i) := by
  have hphase : ∀ j, Q ≤ j → (contract O (X ^ (O - i) * p)).divX.coeff j = 0 := by
    intro j hj
    rw [coeff_divX, coeff_contract_shift p hi]
    exact hp _ ((Nat.mul_le_mul_left O hj).trans (Nat.le_add_right _ i))
  have hsum := sum_window (contract O (X ^ (O - i) * p)).divX xs hphase hxs
  simp only [coeff_divX, coeff_contract_shift p hi] at hsum
  have hsplit := divX_mul_X_add (contract O (X ^ (O - i) * p))
  rw [coeff_contract_zero p hi, C_0, add_zero] at hsplit
  rw [hsum, coeff_mul_expand p _ hi, ← coeff_mul_X (_ * signal xs), mul_right_comm, hsplit]

/-! Signals in blocks of `B` samples. -/

/-- The signal that has the coefficients for its blocks. -/
noncomputable def joined (B : Nat) (ps : R[X][X]) : R[X] := ps.eval (X ^ B)

theorem joined_mul (B : Nat) (ps qs : R[X][X]) :
    joined B (ps * qs) = joined B ps * joined B qs := eval_mul

theorem joined_flatten {B : Nat} {xss : List (List R)} (h : ∀ xs ∈ xss, xs.length = B) :
    joined B (signal (xss.map signal)) = signal xss.flatten := by
  induction xss with
  | nil => exact eval_zero
  | cons xs xss ih =>
    have hrest := ih fun ys hys => h ys (List.mem_cons_of_mem _ hys)
    rw [joined] at hrest
    rw [List.map_cons, signal, joined, eval_add, eval_C, eval_mul, eval_X, hrest,
      List.flatten_cons, signal_append, h xs List.mem_cons_self]

/-- A signal is cut into as many blocks as cover it, the last one perhaps short. -/
def blocks {T : Type*} (B n : Nat) (xs : List T) : List (List T) :=
  (List.range n).map fun i => (xs.drop (i * B)).take B

theorem blocks_succ {T : Type*} (B n : Nat) (xs : List T) :
    blocks B (n + 1) xs = xs.take B :: blocks B n (xs.drop B) := by
  rw [blocks, List.range_succ_eq_map, List.map_cons, List.map_map, blocks, Nat.zero_mul,
    List.drop_zero]
  refine congrArg _ (List.map_congr_left fun i _ => ?_)
  rw [Function.comp_apply, List.drop_drop, Nat.succ_mul, Nat.add_comm B]

theorem joined_blocks {B n : Nat} {xs : List R} (h : xs.length ≤ n * B) :
    joined B (signal ((blocks B n xs).map signal)) = signal xs := by
  induction n generalizing xs with
  | zero =>
    obtain rfl : xs = [] := List.length_eq_zero_iff.mp (by omega)
    exact eval_zero
  | succ n ih =>
    rw [Nat.succ_mul] at h
    have hlen : (xs.drop B).length ≤ n * B := by
      rw [List.length_drop]
      omega
    have hrest := ih hlen
    rw [joined] at hrest
    rw [blocks_succ, List.map_cons, signal, joined, eval_add, eval_C, eval_mul, eval_X, hrest]
    rcases Nat.le_total B xs.length with hB | hB
    · nth_rewrite 3 [← List.take_append_drop B xs]
      rw [signal_append, List.length_take, Nat.min_eq_left hB]
    · rw [List.take_of_length_le hB, List.drop_eq_nil_of_le hB, signal, mul_zero, add_zero]

theorem coeff_mul_eq_zero {p q : R[X]} {a b : Nat} (hp : ∀ i, a ≤ i → p.coeff i = 0)
    (hq : ∀ i, b ≤ i → q.coeff i = 0) {n : Nat} (hn : a + b ≤ n + 1) : (p * q).coeff n = 0 := by
  rw [coeff_mul]
  refine Finset.sum_eq_zero fun ij hij => ?_
  rw [Finset.HasAntidiagonal.mem_antidiagonal] at hij
  rcases Nat.lt_or_ge ij.1 a with hlow | hhigh
  · rw [hq _ (by omega), mul_zero]
  · rw [hp _ hhigh, zero_mul]

/-- Blocks up to twice as long overlap with the next one. -/
theorem coeff_joined {ps : R[X][X]} {B : Nat} (h : ∀ m i, 2 * B ≤ i → (ps.coeff m).coeff i = 0)
    (n : Nat) {j : Nat} (hj : j < B) :
    (joined B ps).coeff (n * B + j) =
      (ps.coeff n).coeff j + if n = 0 then 0 else (ps.coeff (n - 1)).coeff (B + j) := by
  have hterm (i : Nat) : (ps.coeff i * (X ^ B) ^ i).coeff (n * B + j) =
      if i ≤ n then (ps.coeff i).coeff ((n - i) * B + j) else 0 := by
    rw [← pow_mul, coeff_mul_X_pow', Nat.mul_comm B]
    split_ifs with hpow hi hi
    · rw [Nat.sub_mul]
      exact congrArg _ (Nat.sub_add_comm (Nat.mul_le_mul_right B hi))
    · have hnext := Nat.mul_le_mul_right B (Nat.lt_of_not_le hi)
      rw [Nat.succ_mul] at hnext
      omega
    · exact absurd ((Nat.mul_le_mul_right B hi).trans (Nat.le_add_right _ j)) hpow
    · rfl
  have hsum : (joined B ps).coeff (n * B + j) =
      ∑ i ∈ Finset.range (n + 1), (ps.coeff i).coeff ((n - i) * B + j) := by
    have hdegree : ps.natDegree < max (ps.natDegree + 1) (n + 1) := by omega
    rw [joined, eval_eq_sum_range' hdegree, finsetSum_coeff, Finset.sum_congr rfl fun i _ => hterm i]
    refine (Finset.sum_subset (Finset.range_mono (le_max_right _ _)) fun i _ hi => ?_).symm.trans ?_
    · rw [Finset.mem_range] at hi
      exact if_neg (by omega)
    · refine Finset.sum_congr rfl fun i hi => ?_
      exact if_pos (Nat.lt_succ_iff.mp (Finset.mem_range.mp hi))
  rw [hsum, Finset.sum_range_succ, Nat.sub_self, Nat.zero_mul, Nat.zero_add, add_comm]
  cases n with
  | zero => rfl
  | succ n =>
    rw [if_neg (Nat.succ_ne_zero n), Nat.succ_sub_one, Finset.sum_range_succ, Finset.sum_eq_zero,
      zero_add, Nat.succ_sub (Nat.le_refl n), Nat.sub_self, Nat.one_mul]
    -- blocks before the previous one have ended
    intro i hi
    rw [Finset.mem_range] at hi
    have hage : 2 * B ≤ (n + 1 - i) * B := Nat.mul_le_mul_right B (by omega)
    exact h _ _ (hage.trans (Nat.le_add_right _ j))

end Convolution
