import PluginSdk.Fir
import PluginSdk.History
import PluginSdk.RingWindow

/-! Resampling by an integer factor. The decimator filters and keeps every
`O`-th value, the upsampler stuffs zeros in and filters, and one after the other
they are a single filter at the low rate. An access outside a buffer fails. -/

namespace PluginSdk

open Polynomial Convolution RingWindow

structure Decimator (O Q : Nat) (T : Type) where
  inBuffer : Vector T (O * Q)
  kernel : Vector T (O * Q)
  inIndex : Int

structure Upsampler (O Q : Nat) (T : Type) where
  inBuffer : Vector T Q
  kernel : Vector T (O * Q)
  inIndex : Int

inductive ResamplerCall (α : Type)
  | reset
  | process (input : α)

namespace ResamplerCall

variable {α : Type}

def isReset : ResamplerCall α → Bool
  | .reset => true
  | .process _ => false

def input : ResamplerCall α → Option α
  | .reset => none
  | .process input => some input

/-- What was put in since the latest reset. -/
def fed (calls : List (ResamplerCall α)) : List α := (History.since isReset calls).filterMap input

theorem fed_reset (calls : List (ResamplerCall α)) : fed (calls ++ [.reset]) = [] := by
  simp [fed, isReset]

theorem fed_process (calls : List (ResamplerCall α)) (x : α) :
    fed (calls ++ [.process x]) = fed calls ++ [x] := by
  simp [fed, isReset, input]

end ResamplerCall

section

variable {O Q : Nat} {T : Type}

theorem holds_window_nil [Zero T] {N : Nat} :
    Holds (Vector.replicate N (0 : T)) 0 (window N []) := by
  refine ⟨(length_window _ _).le, fun k hk => ?_⟩
  rw [length_window] at hk
  rw [Nat.zero_add, Nat.mod_eq_of_lt hk, window]
  simp [hk]

namespace Decimator

/-- A decimator with its buffer cleared. -/
def new [Zero T] (kernel : Vector T (O * Q)) : Decimator O Q T := ⟨.replicate _ 0, kernel, 0⟩

def reset [Zero T] (s : Decimator O Q T) : Decimator O Q T :=
  { s with inBuffer := .replicate _ 0, inIndex := 0 }

def process [Zero T] [Add T] [Mul T] (s : Decimator O Q T) (input : Vector T O) :
    Option (T × Decimator O Q T) := do
  let inBuffer ← Cells.fill? s.inBuffer s.inIndex
    (fun c => input.toList[(c - s.inIndex).toNat]?) O
  let inIndex := (s.inIndex + O).tmod (O * Q : Nat)
  let out ← (List.range (O * Q)).foldlM (fun out (i : Nat) => do
    let index := (inIndex - 1 - i + (O * Q : Nat)).tmod (O * Q : Nat)
    let k ← s.kernel[i]?
    let x ← Cells.read? inBuffer index
    some (out + k * x)) 0
  some (out, { s with inBuffer, inIndex })

def next [Zero T] [Add T] [Mul T] (s : Decimator O Q T) :
    ResamplerCall (Vector T O) → Option (Decimator O Q T)
  | .reset => some s.reset
  | .process input => (s.process input).map Prod.snd

/-- After the samples `xs` the buffer holds the latest of them. -/
structure Hears [Zero T] (s : Decimator O Q T) (xs : List T) : Prop where
  index_eq : s.inIndex = (xs.length % (O * Q) : Nat)
  frames : O ∣ xs.length
  holds : Holds s.inBuffer xs.length (window (O * Q) xs)

theorem hears_nil [Zero T] {s : Decimator O Q T} (hindex : s.inIndex = 0)
    (hbuffer : s.inBuffer = .replicate _ 0) : Hears s [] where
  index_eq := by
    rw [hindex, List.length_nil, Nat.zero_mod]
    rfl
  frames := dvd_zero O
  holds := hbuffer ▸ holds_window_nil

/-- The frames fill the buffer without passing its end. -/
theorem Hears.copyIn [Zero T] {s : Decimator O Q T} {xs : List T} (h : Hears s xs)
    (hO : 0 < O) (hQ : 0 < Q) (input : Vector T O) :
    ∃ cells, Cells.fill? s.inBuffer s.inIndex
        (fun c => input.toList[(c - s.inIndex).toNat]?) O = some cells ∧
      Holds cells (xs ++ input.toList).length (window (O * Q) (xs ++ input.toList)) := by
  have hlen : input.toList.length = O := input.length_toList
  have hN : 0 < O * Q := Nat.mul_pos hO hQ
  have hshort : input.toList.length ≤ O * Q := by
    rw [hlen]
    exact Nat.le_mul_of_pos_right O hQ
  obtain ⟨cells, hcopy, hcells⟩ := h.holds.slide (length_window _ _) hshort hN
  have hfits : xs.length % (O * Q) + input.toList.length ≤ O * Q := by
    -- the index is a multiple of the frame length, as is the end
    obtain ⟨frames, hframes⟩ := h.frames
    have hlt : frames % Q + 1 ≤ Q := Nat.mod_lt frames hQ
    rw [hlen, hframes, Nat.mul_mod_mul_left]
    calc O * (frames % Q) + O = O * (frames % Q + 1) := by ring
      _ ≤ O * Q := Nat.mul_le_mul_left O hlt
  rw [copyIn_of_le _ hfits, hlen] at hcopy
  refine ⟨cells, ?_, ?_⟩
  · rw [h.index_eq]
    exact hcopy
  · rw [List.length_append, window_append]
    exact hcells

theorem Hears.process [Zero T] [Add T] [CommMagma T] {s : Decimator O Q T} {xs : List T}
    (h : Hears s xs) (hO : 0 < O) (hQ : 0 < Q) (input : Vector T O) :
    ∃ out t, s.process input = some (out, t) ∧
      convolveNaive (window (O * Q) (xs ++ input.toList)) s.kernel.toList (O * Q) = some out ∧
      t.kernel = s.kernel ∧ Hears t (xs ++ input.toList) := by
  obtain ⟨cells, hcopy, hcells⟩ := h.copyIn hO hQ input
  have hlen : (xs ++ input.toList).length = xs.length + O := by simp
  have hindex : (s.inIndex + O).tmod (O * Q : Nat) =
      ((xs ++ input.toList).length % (O * Q) : Nat) := by
    rw [h.index_eq, ← Int.natCast_add, ← Int.ofNat_tmod, Nat.mod_add_mod, hlen]
  obtain ⟨out, hout⟩ := convolveNaive_exists
    (length_window (O * Q) (xs ++ input.toList)).ge s.kernel.length_toList.ge
  have hsum : (List.range (O * Q)).foldlM (fun (out : T) (i : Nat) => do
      let index := (((xs ++ input.toList).length % (O * Q) : Nat) - 1 - i +
        (O * Q : Nat) : Int).tmod (O * Q : Nat)
      let k ← s.kernel[i]?
      let x ← Cells.read? cells index
      some (out + k * x)) 0 = some out := by
    rw [← hout, convolveNaive]
    refine PartialRun.run_congr (fun i hi out => ?_) 0
    -- the taps meet the latest samples in the order of the direct sum
    simp only [hcells.recent (length_window _ _) (List.mem_range.mp hi), Vector.getElem?_toList]
    cases s.kernel[i]? <;> cases (window (O * Q) (xs ++ input.toList))[O * Q - 1 - i]? <;>
      simp [mul_comm]
  refine ⟨out, { s with inBuffer := cells, inIndex := _ }, ?_, hout, rfl, rfl, ?_, hcells⟩
  · rw [Decimator.process, hcopy, Option.bind_eq_bind, Option.bind_some]
    simp only [hindex] at hsum ⊢
    rw [hsum]
    rfl
  · rw [hlen]
    exact Nat.dvd_add h.frames (dvd_refl O)

theorem hears_run [Zero T] [Add T] [CommMagma T] (hO : 0 < O) (hQ : 0 < Q)
    (kernel : Vector T (O * Q)) (calls : List (ResamplerCall (Vector T O))) :
    ∃ s, PartialRun.run next (new kernel) calls = some s ∧ s.kernel = kernel ∧
      Hears s ((ResamplerCall.fed calls).flatMap Vector.toList) := by
  induction calls using List.reverseRecOn with
  | nil => exact ⟨new kernel, rfl, rfl, hears_nil rfl rfl⟩
  | append_singleton calls call ih =>
    obtain ⟨s, hrun, hkernel, hs⟩ := ih
    rw [PartialRun.run_concat, hrun, Option.bind_some]
    cases call with
    | reset =>
      rw [ResamplerCall.fed_reset]
      exact ⟨s.reset, rfl, hkernel, hears_nil rfl rfl⟩
    | process input =>
      obtain ⟨out, t, hprocess, -, hkept, ht⟩ := hs.process hO hQ input
      rw [ResamplerCall.fed_process, List.flatMap_append, List.flatMap_singleton, next, hprocess]
      exact ⟨t, rfl, hkept.trans hkernel, ht⟩

end Decimator

/-- After any calls the next output is the direct sum of the kernel over the latest samples
since the reset, added up in the same order. -/
theorem decimator_convolves [Zero T] [Add T] [CommMagma T] (hO : 0 < O) (hQ : 0 < Q)
    (kernel : Vector T (O * Q)) (calls : List (ResamplerCall (Vector T O))) (input : Vector T O) :
    ∃ s out t, PartialRun.run Decimator.next (.new kernel) calls = some s ∧
      s.process input = some (out, t) ∧
      convolveNaive (window (O * Q)
        ((ResamplerCall.fed calls).flatMap Vector.toList ++ input.toList)) kernel.toList (O * Q) =
          some out := by
  obtain ⟨s, hrun, hkernel, hs⟩ := Decimator.hears_run hO hQ kernel calls
  obtain ⟨out, t, hprocess, hout, -⟩ := hs.process hO hQ input
  exact ⟨s, out, t, hrun, hprocess, hkernel ▸ hout⟩

theorem decimator_convolves_afterReset :
    ∃ s t, PartialRun.run Decimator.next (.new #v[1, 2, 3, 4] : Decimator 2 2 Int)
        [.process #v[1, 1], .reset, .process #v[5, 6]] = some s ∧
      s.process #v[7, 8] = some (60, t) := by
  obtain ⟨s, out, t, hrun, hprocess, hout⟩ := decimator_convolves (O := 2) (Q := 2) (T := Int)
    (by decide) (by decide) #v[1, 2, 3, 4] [.process #v[1, 1], .reset, .process #v[5, 6]] #v[7, 8]
  obtain rfl : 60 = out := Option.some.inj (.trans (by decide) hout)
  exact ⟨s, t, hrun, hprocess⟩

namespace Upsampler

def new [Zero T] (kernel : Vector T (O * Q)) : Upsampler O Q T := ⟨.replicate _ 0, kernel, 0⟩

def reset [Zero T] (s : Upsampler O Q T) : Upsampler O Q T :=
  { s with inBuffer := .replicate _ 0, inIndex := 0 }

def process [Zero T] [Add T] [Mul T] [NatCast T] (s : Upsampler O Q T) (input : T)
    (out : Vector T O) : Option (Vector T O × Upsampler O Q T) := do
  let inBuffer ← Cells.write? s.inBuffer s.inIndex (O * input)
  let inIndex := (s.inIndex + 1).tmod Q
  let out ← Cells.fill? out 0 (fun i => (List.range Q).foldlM (fun y (j : Nat) => do
    let index := (inIndex - 1 - j + Q).tmod Q
    let kernelIndex := O * j + i.toNat
    let k ← s.kernel[kernelIndex]?
    let x ← Cells.read? inBuffer index
    some (y + k * x)) 0) O
  some (out, { s with inBuffer, inIndex })

def next [Zero T] [Add T] [Mul T] [NatCast T] (s : Upsampler O Q T) :
    ResamplerCall T → Option (Upsampler O Q T)
  | .reset => some s.reset
  | .process input => (s.process input (.replicate O 0)).map Prod.snd

def amplified [CommSemiring T] (O : Nat) (xs : List T) : List T := xs.map fun x => O * x

theorem length_amplified [CommSemiring T] (xs : List T) : (amplified O xs).length = xs.length :=
  List.length_map _

theorem amplified_concat [CommSemiring T] (xs : List T) (x : T) :
    amplified O (xs ++ [x]) = amplified O xs ++ [O * x] := List.map_append

/-- After the inputs `xs` the buffer holds the latest of them, amplified. -/
structure Hears [CommSemiring T] (s : Upsampler O Q T) (xs : List T) : Prop where
  index_eq : s.inIndex = (xs.length % Q : Nat)
  holds : Holds s.inBuffer xs.length (window Q (amplified O xs))

theorem hears_nil [CommSemiring T] {s : Upsampler O Q T} (hindex : s.inIndex = 0)
    (hbuffer : s.inBuffer = .replicate _ 0) : Hears s [] where
  index_eq := by
    rw [hindex, List.length_nil, Nat.zero_mod]
    rfl
  holds := hbuffer ▸ holds_window_nil

theorem Hears.process [CommSemiring T] {s : Upsampler O Q T} {xs : List T} (h : Hears s xs)
    (hQ : 0 < Q) (input : T) (out : Vector T O) :
    ∃ out' t, s.process input out = some (out', t) ∧
      (∀ i < O, out'[i]? = some ((signal s.kernel.toList *
        expand T O (signal (amplified O (xs ++ [input])))).coeff (xs.length * O + i))) ∧
      t.kernel = s.kernel ∧ Hears t (xs ++ [input]) := by
  have hlen : (xs ++ [input]).length = xs.length + 1 := by simp
  obtain ⟨cells, hwrite, hcells⟩ := h.holds.slide_one (length_window _ _) hQ (O * input)
  rw [← hlen, ← List.length_singleton (a := (O : T) * input), ← window_append,
    ← amplified_concat] at hcells
  have hindex : (s.inIndex + 1).tmod Q = ((xs ++ [input]).length % Q : Nat) := by
    rw [h.index_eq, ← Nat.cast_succ, ← Int.ofNat_tmod, Nat.succ_eq_add_one, Nat.mod_add_mod, hlen]
  have htaps : ∀ k, O * Q ≤ k → (signal s.kernel.toList).coeff k = 0 := fun k hk =>
    coeff_signal_of_le (by simpa using hk)
  have hsum (i : Nat) (hi : i < O) : (List.range Q).foldlM (fun (y : T) (j : Nat) => do
      let index := (((xs ++ [input]).length % Q : Nat) - 1 - j + Q : Int).tmod Q
      let kernelIndex := O * j + i
      let k ← s.kernel[kernelIndex]?
      let x ← Cells.read? cells index
      some (y + k * x)) 0 = some ((signal s.kernel.toList *
        expand T O (signal (amplified O (xs ++ [input])))).coeff (xs.length * O + i)) := by
    have hphase := sum_phase (signal s.kernel.toList) (amplified O (xs ++ [input])) htaps hi
      (by simp [amplified])
    rw [length_amplified, hlen, Nat.add_sub_cancel] at hphase
    rw [← hphase]
    refine run_sum fun j hj y => ?_
    have hk : O * j + i < O * Q :=
      calc O * j + i < O * (j + 1) := by rw [Nat.mul_succ]; omega
        _ ≤ O * Q := Nat.mul_le_mul_left O hj
    have htap : s.kernel[O * j + i]? = some ((signal s.kernel.toList).coeff (O * j + i)) := by
      rw [coeff_signal, Vector.getElem?_toList, Vector.getElem?_eq_getElem hk, Option.getD_some]
    simp only [hcells.recent (length_window _ _) hj, htap, getElem?_window _ hj, Option.getD_some]
    rfl
  obtain ⟨out', hout⟩ : ∃ out', Cells.fill? out 0 (fun i => (List.range Q).foldlM
      (fun (y : T) (j : Nat) => do
        let index := (((xs ++ [input]).length % Q : Nat) - 1 - j + Q : Int).tmod Q
        let kernelIndex := O * j + i.toNat
        let k ← s.kernel[kernelIndex]?
        let x ← Cells.read? cells index
        some (y + k * x)) 0) O = some out' :=
    Cells.fill?_exists_iff.mpr fun i hlo hhi => ⟨hlo, by omega, _, hsum i.toNat (by omega)⟩
  refine ⟨out', { s with inBuffer := cells, inIndex := _ }, ?_, fun i hi => ?_, rfl, rfl, hcells⟩
  · rw [Upsampler.process, hindex, h.index_eq, hwrite, Option.bind_eq_bind, Option.bind_some]
    simp only at hout ⊢
    rw [hout]
    rfl
  · rw [Cells.getElem?_fill? hout, if_pos (by omega), ← hsum i hi]
    rfl

theorem hears_run [CommSemiring T] (hQ : 0 < Q) (kernel : Vector T (O * Q))
    (calls : List (ResamplerCall T)) :
    ∃ s : Upsampler O Q T, PartialRun.run next (new kernel) calls = some s ∧ s.kernel = kernel ∧
      Hears s (ResamplerCall.fed calls) := by
  induction calls using List.reverseRecOn with
  | nil => exact ⟨new kernel, rfl, rfl, hears_nil rfl rfl⟩
  | append_singleton calls call ih =>
    obtain ⟨s, hrun, hkernel, hs⟩ := ih
    rw [PartialRun.run_concat, hrun, Option.bind_some]
    cases call with
    | reset =>
      rw [ResamplerCall.fed_reset]
      exact ⟨s.reset, rfl, hkernel, hears_nil rfl rfl⟩
    | process input =>
      obtain ⟨out, t, hprocess, -, hkept, ht⟩ := hs.process hQ input (.replicate O 0)
      rw [ResamplerCall.fed_process, next, hprocess]
      exact ⟨t, rfl, hkept.trans hkernel, ht⟩

end Upsampler

/-- After any calls the next frame is the kernel's convolution with the amplified inputs since
the reset, each followed by `O - 1` zeros. -/
theorem upsampler_interpolates [CommSemiring T] (hQ : 0 < Q) (kernel : Vector T (O * Q))
    (calls : List (ResamplerCall T)) (input : T) (out : Vector T O) :
    ∃ s out' t, PartialRun.run Upsampler.next (.new kernel) calls = some s ∧
      s.process input out = some (out', t) ∧
      ∀ i < O, out'[i]? = some ((signal kernel.toList *
        expand T O (signal (Upsampler.amplified O (ResamplerCall.fed calls ++ [input])))).coeff
          ((ResamplerCall.fed calls).length * O + i)) := by
  obtain ⟨s, hrun, hkernel, hs⟩ := Upsampler.hears_run hQ kernel calls
  obtain ⟨out', t, hprocess, hout, -⟩ := hs.process hQ input out
  exact ⟨s, out', t, hrun, hprocess, hkernel ▸ hout⟩

theorem upsampler_interpolates_second :
    ∃ s out t, PartialRun.run Upsampler.next (.new #v[1, 2, 3, 4] : Upsampler 2 2 Int)
        [.process 5] = some s ∧
      s.process 6 #v[0, 0] = some (out, t) ∧ out[1]? = some (2 * (2 * 6) + 4 * (2 * 5)) := by
  obtain ⟨s, out, t, hrun, hprocess, hout⟩ := upsampler_interpolates (O := 2) (Q := 2) (T := Int)
    (by decide) #v[1, 2, 3, 4] [.process 5] 6 #v[0, 0]
  have hphase := sum_phase (signal [(1 : Int), 2, 3, 4]) (Upsampler.amplified 2 [5, 6]) (O := 2) (Q := 2)
    (i := 1) (fun k hk => coeff_signal_of_le hk) (by decide) (by decide)
  refine ⟨s, out, t, hrun, hprocess, (hout 1 (by decide)).trans (congrArg some ?_)⟩
  refine hphase.symm.trans ?_
  simp [Finset.sum_range_succ, coeff_signal, window, Upsampler.amplified]

/-- An input goes up to the high rate and back down. -/
def upAndDown {Q' : Nat} [Zero T] [Add T] [Mul T] [NatCast T]
    (s : Upsampler O Q T × Decimator O Q' T) (input : T) :
    Option (T × Upsampler O Q T × Decimator O Q' T) := do
  let (frame, up) ← s.1.process input (.replicate O 0)
  let (out, down) ← s.2.process frame
  some (out, up, down)

def nextUpAndDown {Q' : Nat} [Zero T] [Add T] [Mul T] [NatCast T]
    (s : Upsampler O Q T × Decimator O Q' T) (input : T) :
    Option (Upsampler O Q T × Decimator O Q' T) :=
  (upAndDown s input).map Prod.snd

section

variable [CommSemiring T] {Q' : Nat}

theorem coeff_expand_amplified (xs : List T) (x : T) {k : Nat} (hk : k < xs.length * O) :
    (expand T O (signal (Upsampler.amplified O (xs ++ [x])))).coeff k =
      (expand T O (signal (Upsampler.amplified O xs))).coeff k := by
  have hO : 0 < O := Nat.pos_of_lt_mul_left hk
  have hlow : k / O < (Upsampler.amplified O xs).length := by
    rw [Upsampler.length_amplified]
    exact (Nat.div_lt_iff_lt_mul hO).mpr hk
  rw [coeff_expand hO, coeff_expand hO, coeff_signal, coeff_signal, Upsampler.amplified_concat,
    List.getElem?_append_left hlow]

/-- Both have heard the inputs `xs`, the decimator as the upsampler gave them. -/
structure InTune (kernel : List T) (xs : List T) (s : Upsampler O Q T × Decimator O Q' T)
    (high : List T) : Prop where
  up : s.1.Hears xs
  down : s.2.Hears high
  length_eq : high.length = xs.length * O
  coeff_eq : ∀ k < high.length, (signal high).coeff k =
    (signal kernel * expand T O (signal (Upsampler.amplified O xs))).coeff k

theorem InTune.step {s : Upsampler O Q T × Decimator O Q' T} {xs high : List T}
    (h : InTune s.1.kernel.toList xs s high) (hO : 0 < O) (hQ : 0 < Q) (hQ' : 0 < Q') (x : T) :
    ∃ t high', upAndDown s x = some ((contract O (X * (signal s.2.kernel.toList *
        signal s.1.kernel.toList)) * signal (Upsampler.amplified O (xs ++ [x]))).coeff
          (xs.length + 1), t) ∧
      t.1.kernel = s.1.kernel ∧ t.2.kernel = s.2.kernel ∧
      InTune s.1.kernel.toList (xs ++ [x]) t high' := by
  obtain ⟨frame, up, hframe, hsamples, hkernel, hup⟩ := h.up.process hQ x (.replicate O 0)
  obtain ⟨out, down, hout, hconvolve, hkernel', hdown⟩ := h.down.process hO hQ' frame
  have hlen : (high ++ frame.toList).length = xs.length * O + O := by
    simp [h.length_eq]
  have hcoeff : ∀ k < (high ++ frame.toList).length, (signal (high ++ frame.toList)).coeff k =
      (signal s.1.kernel.toList *
        expand T O (signal (Upsampler.amplified O (xs ++ [x])))).coeff k := by
    intro k hk
    rw [coeff_signal]
    by_cases hlow : k < high.length
    · have hpast := h.coeff_eq k hlow
      rw [coeff_signal] at hpast
      rw [List.getElem?_append_left hlow, hpast]
      refine coeff_mul_congr _ fun j hj => (coeff_expand_amplified xs x ?_).symm
      rw [← h.length_eq]
      omega
    · rw [hlen] at hk
      have hlast := hsamples (k - high.length) (by rw [h.length_eq]; omega)
      rw [← Vector.getElem?_toList] at hlast
      rw [List.getElem?_append_right (by omega), hlast, Option.getD_some]
      exact congrArg _ (by rw [← h.length_eq]; omega)
  refine ⟨(up, down), high ++ frame.toList, ?_, hkernel, hkernel', hup, hdown, ?_, hcoeff⟩
  · have hnewest : (high ++ frame.toList).length - 1 = xs.length * O + (O - 1) := by omega
    have hX : (X : T[X]) ^ (O - (O - 1)) = X := by
      rw [Nat.sub_sub_self hO, pow_one]
    have hheard : 0 < (high ++ frame.toList).length := by omega
    have hvalue := convolveNaive_window s.2.kernel.length_toList hheard
    rw [coeff_mul_congr _ fun k hk => hcoeff k (by omega), hnewest, ← mul_assoc,
      coeff_mul_expand _ _ (by omega), hX, hconvolve] at hvalue
    rw [Option.some.inj hvalue] at hout
    simp only [upAndDown, hframe, hout, Option.bind_eq_bind, Option.bind_some]
  · rw [hlen, List.length_append, List.length_singleton, Nat.succ_mul]

end

/-- Up and down again is one filter at the low rate: of the two kernels' product it has every
`O`-th tap. -/
theorem upAndDown_filters [CommSemiring T] {Q' : Nat} (hO : 0 < O) (hQ : 0 < Q) (hQ' : 0 < Q')
    (kernel : Vector T (O * Q)) (kernel' : Vector T (O * Q')) (xs : List T) (x : T) :
    ∃ s t, PartialRun.run nextUpAndDown (.new kernel, .new kernel') xs = some s ∧
      upAndDown s x = some ((contract O (X * (signal kernel'.toList * signal kernel.toList)) *
        signal (Upsampler.amplified O (xs ++ [x]))).coeff (xs.length + 1), t) := by
  have hrun : ∃ s high, PartialRun.run nextUpAndDown (.new kernel, .new kernel') xs = some s ∧
      s.1.kernel = kernel ∧ s.2.kernel = kernel' ∧ InTune s.1.kernel.toList xs s high := by
    induction xs using List.reverseRecOn with
    | nil =>
      refine ⟨_, [], rfl, rfl, rfl, Upsampler.hears_nil rfl rfl, Decimator.hears_nil rfl rfl,
        (Nat.zero_mul O).symm, fun k hk => ?_⟩
      exact absurd hk (Nat.not_lt_zero k)
    | append_singleton xs x ih =>
      obtain ⟨s, high, hs, rfl, rfl, htune⟩ := ih
      obtain ⟨t, high', hstep, hkernel, hkernel', htune'⟩ := htune.step hO hQ hQ' x
      refine ⟨t, high', ?_, hkernel, hkernel', hkernel ▸ htune'⟩
      rw [PartialRun.run_concat, hs, Option.bind_some, nextUpAndDown, hstep]
      rfl
  obtain ⟨s, high, hs, rfl, rfl, htune⟩ := hrun
  obtain ⟨t, high', hstep, -⟩ := htune.step hO hQ hQ' x
  exact ⟨s, t, hs, hstep⟩

theorem upAndDown_filters_second :
    ∃ s t, PartialRun.run nextUpAndDown
        ((.new #v[1, 1], .new #v[1, 1]) : Upsampler 2 1 Int × Decimator 2 1 Int) [5] = some s ∧
      upAndDown s 6 = some (24, t) := by
  obtain ⟨s, t, hrun, hout⟩ := upAndDown_filters (O := 2) (Q := 1) (T := Int) two_pos one_pos
    one_pos #v[1, 1] #v[1, 1] [5] 6
  have hvalue : (contract 2 (X * (signal [1, 1] * signal [1, 1])) *
      signal (Upsampler.amplified 2 [5, 6]) : Int[X]).coeff 2 = 24 := by
    simp [coeff_mul, Finset.Nat.antidiagonal_succ, coeff_contract, coeff_signal, coeff_X,
      Upsampler.amplified]
  exact ⟨s, t, hrun, hout.trans (congrArg (fun v => some (v, t)) hvalue)⟩

end

end PluginSdk
