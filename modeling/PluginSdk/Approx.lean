import PluginSdk.PolynomialBound

/-! Three evaluations of a polynomial: the sum of its terms, Horner's method
and Estrin's. In exact arithmetic they agree. -/

namespace PluginSdk

open PolynomialBound (polyValue polyValue_eq_sum)

/-- From the last coefficient down. -/
def polyHorner {T : Type*} [OfNat T 0] [Add T] [Mul T] (a : List T) (x : T) : T :=
  match a.reverse with
  | [] => 0
  | y :: rest => rest.foldl (fun y an => an + y * x) y

section

variable {T : Type*} [CommSemiring T]

/-- The loop keeps the sum so far and the next power. -/
def polyDirect (a : List T) (x : T) : T :=
  (a.foldl (fun (s : T × T) an => (s.1 + an * s.2, s.2 * x)) (0, 1)).1

/-- The loop that fills `b`: two coefficients in one, the last alone if it has no neighbour. -/
def estrinPairs (x : T) : List T → List T
  | [] => []
  | [c] => [c]
  | c :: d :: a => (c + d * x) :: estrinPairs x a

theorem length_estrinPairs (x : T) (a : List T) :
    (estrinPairs x a).length = (a.length + 1) / 2 := by
  induction a using estrinPairs.induct with
  | case1 => simp [estrinPairs]
  | case2 c => simp [estrinPairs]
  | case3 c d a ih =>
    simp only [estrinPairs, List.length_cons, ih]
    omega

def polyEstrin (a : List T) (x : T) : T :=
  match a with
  | [] => 0
  | [c] => c
  | c :: d :: a => polyEstrin (estrinPairs x (c :: d :: a)) (x * x)
termination_by a.length
decreasing_by
  rw [length_estrinPairs]
  simp only [List.length_cons]
  omega

theorem foldl_polyDirect (x y xn : T) (a : List T) :
    (a.foldl (fun (s : T × T) an => (s.1 + an * s.2, s.2 * x)) (y, xn)).1 =
      y + polyValue x a * xn := by
  induction a generalizing y xn with
  | nil => simp [polyValue]
  | cons c a ih =>
    rw [List.foldl_cons, ih, polyValue]
    ring

theorem polyDirect_eq (a : List T) (x : T) : polyDirect a x = polyValue x a := by
  rw [polyDirect, foldl_polyDirect]
  ring

theorem foldl_polyHorner (x y : T) (rest : List T) :
    rest.foldl (fun y an => an + y * x) y = polyValue x (y :: rest).reverse := by
  induction rest using List.reverseRecOn with
  | nil => simp [polyValue]
  | append_singleton rest c ih =>
    rw [List.foldl_append, List.foldl_cons, List.foldl_nil, ih, ← List.cons_append,
      List.reverse_append]
    rfl

theorem polyHorner_eq (a : List T) (x : T) : polyHorner a x = polyValue x a := by
  unfold polyHorner
  cases h : a.reverse with
  | nil =>
    rw [List.reverse_eq_nil_iff.mp h]
    rfl
  | cons y rest =>
    show rest.foldl _ y = _
    rw [foldl_polyHorner, ← h, List.reverse_reverse]

theorem polyValue_estrinPairs (x : T) (a : List T) :
    polyValue (x * x) (estrinPairs x a) = polyValue x a := by
  induction a using estrinPairs.induct with
  | case1 => rfl
  | case2 c => simp [estrinPairs, polyValue]
  | case3 c d a ih =>
    simp only [estrinPairs, polyValue, ih]
    ring

theorem polyEstrin_eq (a : List T) (x : T) : polyEstrin a x = polyValue x a := by
  induction a, x using polyEstrin.induct with
  | case1 x => simp [polyEstrin, polyValue]
  | case2 x c => simp [polyEstrin, polyValue]
  | case3 x c d a ih => rw [polyEstrin, ih, polyValue_estrinPairs]

/-- The three evaluations are the polynomial, whatever the coefficients and the point. -/
theorem polynomials_agree (a : List T) (x : T) :
    polyDirect a x = ∑ n : Fin a.length, a.get n * x ^ n.val ∧
      polyHorner a x = polyDirect a x ∧ polyEstrin a x = polyDirect a x := by
  rw [polyDirect_eq, polyHorner_eq, polyEstrin_eq]
  exact ⟨polyValue_eq_sum x a, rfl, rfl⟩

end

end PluginSdk
