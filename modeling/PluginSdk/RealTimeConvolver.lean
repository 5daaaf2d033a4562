import PluginSdk.CircularConvolution
import PluginSdk.Convolution
import PluginSdk.History
import PluginSdk.RingWindow

/-! A long kernel is convolved with a stream of blocks by Fourier transforms of
twice the block size. The transforms are those of a library and come with its
documented meaning. -/

namespace PluginSdk

open Polynomial Convolution CircularConvolution RingWindow

/-- What is used of the library, for one size of transform. `Z` is a block in its own order. -/
structure Pffft (F Z : Type) (N : Nat) where
  forward : Vector F N → Z
  backward : Z → Vector F N
  /-- `dft_ab += (dft_a * dft_b) * scaling` -/
  zconvolveAccumulate : (dft_a dft_b dft_ab : Z) → (scaling : F) → Z
  /-- a block after `memset` -/
  cleared : Z

structure RealTimeConvolver (F Z : Type) (B : Nat) where
  kernelBlocks : Nat
  kernelFfts : Vector Z kernelBlocks
  inputFfts : Vector Z kernelBlocks
  outputTail : Vector F B
  inputPos : Nat

inductive ConvolverCall (F : Type) (B : Nat)
  /-- `none` is a null pointer -/
  | setKernel (kernel : Option (List F))
  | processBlock (input : Vector F B)

/-- The conversion to `int`. -/
def intOf (n : Nat) : Int := (Int32.ofNat n).toInt

namespace RealTimeConvolver

variable {F Z : Type} {B : Nat} [Zero F] [One F] [Add F] [Mul F] [Div F] [NatCast F]

def new : RealTimeConvolver F Z B := ⟨0, #v[], #v[], .replicate B 0, 0⟩

variable (fft : Pffft F Z (B * 2))

/-- `len` samples of a block, then zeros. A negative length is a huge one. -/
def padded (samples : List F) (start : Nat) (len : Int) : Option (Vector F (B * 2)) :=
  if len < 0 then none
  else Cells.fill? (.replicate (B * 2) 0) 0 (fun c => samples[start + c.toNat]?) len.toNat

def setKernel (s : RealTimeConvolver F Z B) (kernel : Option (List F)) :
    Option (RealTimeConvolver F Z B) :=
  let kernel := kernel.getD []
  let length := kernel.length
  if 0 < length then do
    let kernelBlocks := (length - 1) / B + 1
    let kernelFfts ← Cells.fill? (.replicate kernelBlocks fft.cleared) 0 (fun i => do
      let len := min (intOf B) (intOf (length - i.toNat * B))
      let tmpBlock ← padded kernel (i.toNat * B) len
      some (fft.forward tmpBlock)) kernelBlocks
    some { kernelBlocks, kernelFfts, inputFfts := .replicate kernelBlocks fft.cleared
           outputTail := s.outputTail, inputPos := 0 }
  else
    some { kernelBlocks := 0, kernelFfts := #v[], inputFfts := #v[]
           outputTail := s.outputTail, inputPos := 0 }

def processBlock (s : RealTimeConvolver F Z B) (input : Vector F B) :
    Option (Vector F B × RealTimeConvolver F Z B) :=
  if s.kernelBlocks = 0 then some (.replicate B 0, s)
  else do
    let inputPos := (s.inputPos + 1) % s.kernelBlocks
    let tmpBlock ← padded input.toList 0 B
    let inputFfts ← Cells.write? s.inputFfts inputPos (fft.forward tmpBlock)
    let product ← (List.range s.kernelBlocks).foldlM (fun acc (i : Nat) => do
      -- what wraps in the subtraction wraps back in the addition
      let pos := (inputPos - i + s.kernelBlocks : Int).tmod s.kernelBlocks
      let k ← s.kernelFfts[i]?
      let x ← Cells.read? inputFfts pos
      some (fft.zconvolveAccumulate k x acc 1)) fft.cleared
    let tmpBlock := fft.backward product
    let tmpBlock ← Cells.fill? tmpBlock 0 (fun i => do
      let v ← tmpBlock[i.toNat]?
      let tail ← s.outputTail[i.toNat]?
      some (v + tail)) B
    let scale : F := 1 / ((B * 2 : Nat) : F)
    let output ← Cells.fill? (.replicate B 0) 0 (fun i => do
      let v ← tmpBlock[i.toNat]?
      some (v * scale)) B
    let outputTail ← Cells.fill? s.outputTail 0 (fun i => tmpBlock[i.toNat + B]?) B
    some (output, { s with inputFfts, outputTail, inputPos })

def next (s : RealTimeConvolver F Z B) : ConvolverCall F B → Option (RealTimeConvolver F Z B)
  | .setKernel kernel => s.setKernel fft kernel
  | .processBlock input => (s.processBlock fft input).map Prod.snd

end RealTimeConvolver

/-- A block of the library stands for the transform of a signal. -/
def Spells {Z : Type} {N : Nat} [NeZero N] (spectrum : Z → ZMod N → ℂ) (z : Z) (p : ℝ[X]) : Prop :=
  spectrum z = ZMod.dft (periodic p)

/-- The transforms are unscaled, and products are taken frequency by frequency. -/
structure Pffft.Lawful {Z : Type} {N : Nat} [NeZero N] (fft : Pffft ℝ Z N)
    (spectrum : Z → ZMod N → ℂ) : Prop where
  forward : ∀ x, Spells spectrum (fft.forward x) (signal x.toList)
  backward : ∀ z p, Spells spectrum z p → ∀ i < N, (fft.backward z)[i]? = some (N * p.coeff i)
  zconvolveAccumulate : ∀ a b ab scaling k, spectrum (fft.zconvolveAccumulate a b ab scaling) k =
    spectrum ab k + spectrum a k * spectrum b k * (scaling : ℝ)
  cleared : ∀ k, spectrum fft.cleared k = 0

section

variable {Z : Type} {N : Nat} [NeZero N] {fft : Pffft ℝ Z N} {spectrum : Z → ZMod N → ℂ}

theorem Pffft.Lawful.spells_cleared (h : fft.Lawful spectrum) : Spells spectrum fft.cleared 0 := by
  have hzero : (periodic 0 : ZMod N → ℂ) = 0 := by
    funext k
    simp [periodic]
  rw [Spells, hzero, map_zero]
  exact funext h.cleared

theorem Pffft.Lawful.spells_accumulate (h : fft.Lawful spectrum) {a b ab : Z} {p q r : ℝ[X]}
    {m n : Nat} (ha : Spells spectrum a p) (hb : Spells spectrum b q) (hab : Spells spectrum ab r)
    (hp : ∀ i, m ≤ i → p.coeff i = 0) (hq : ∀ i, n ≤ i → q.coeff i = 0) (hroom : m + n ≤ N + 1) :
    Spells spectrum (fft.zconvolveAccumulate a b ab 1) (r + p * q) := by
  rw [Spells, periodic_add, map_add, dft_periodic_mul hp hq hroom, ← ha, ← hb, ← hab]
  funext k
  rw [h.zconvolveAccumulate, Complex.ofReal_one, mul_one]
  rfl

end

namespace RealTimeConvolver

section

variable {Z : Type} {B : Nat}

theorem padded_eq {F : Type} [Zero F] (samples : List F) (start n : Nat)
    (hn : start + n ≤ samples.length) (hroom : n ≤ B * 2) :
    ∃ v : Vector F (B * 2), padded samples start n = some v ∧
      ∀ i : Nat, v[i]?.getD 0 = ((samples.drop start).take n)[i]?.getD 0 := by
  obtain ⟨v, hv⟩ : ∃ v, Cells.fill? (.replicate (B * 2) (0 : F)) 0
      (fun c => samples[start + c.toNat]?) n = some v :=
    Cells.fill?_exists_iff.mpr fun c hlo hhi => ⟨hlo, by omega,
      samples[start + c.toNat], List.getElem?_eq_getElem (by omega)⟩
  refine ⟨v, by rw [padded, if_neg (by omega), Int.toNat_natCast, hv], fun i => ?_⟩
  rw [Cells.getElem?_fill? hv]
  by_cases hi : i < n
  · rw [if_pos (by omega), List.getElem?_take_of_lt hi, List.getElem?_drop, Int.toNat_natCast]
  · rw [if_neg (by omega), Cells.getD_replicate, List.getElem?_take_eq_none (by omega),
      Option.getD_none]

theorem signal_padded (samples : List ℝ) (start n : Nat) (hn : start + n ≤ samples.length)
    (hroom : n ≤ B * 2) :
    ∃ v : Vector ℝ (B * 2), padded samples start n = some v ∧
      signal v.toList = signal ((samples.drop start).take n) := by
  obtain ⟨v, hv, hread⟩ := padded_eq samples start n hn hroom
  refine ⟨v, hv, ?_⟩
  ext i
  rw [coeff_signal, coeff_signal, Vector.getElem?_toList, hread]

/-- What a convolver is told: its kernel, what was played with it, and what the latest block
before that left over. -/
structure Heard (B : Nat) where
  kernel : List ℝ := []
  played : List (Vector ℝ B) := []
  leftover : Nat → ℝ := fun _ => 0

namespace Heard

def blockCount (h : Heard B) : Nat := if h.kernel = [] then 0 else (h.kernel.length - 1) / B + 1

noncomputable def kernelBlocks (h : Heard B) : List ℝ[X] :=
  (blocks B h.blockCount h.kernel).map signal

noncomputable def playedBlocks (h : Heard B) : List ℝ[X] :=
  h.played.map fun x => signal x.toList

/-- What the blocks of the kernel make of the latest inputs. -/
noncomputable def product (h : Heard B) : ℝ[X] :=
  (signal h.kernelBlocks * signal h.playedBlocks).coeff (h.played.length - 1)

def play (h : Heard B) (input : Vector ℝ B) : Heard B := { h with played := h.played ++ [input] }

noncomputable def hear (h : Heard B) : ConvolverCall ℝ B → Heard B
  | .setKernel kernel => { h with kernel := kernel.getD [], played := [] }
  | .processBlock input =>
    if h.kernel = [] then h
    else { h.play input with leftover := fun j => (h.play input).product.coeff (B + j) }

/-- The convolution goes on, and the first block after a change of kernel has the end of what
went before. -/
noncomputable def output (h : Heard B) (input : Vector ℝ B) (j : Nat) : ℝ :=
  if h.kernel = [] then 0
  else (signal h.kernel * signal ((h.play input).played.flatMap Vector.toList)).coeff
    (h.played.length * B + j) + if h.played = [] then h.leftover j else 0

theorem length_le (h : Heard B) (hB : 0 < B) : h.kernel.length ≤ h.blockCount * B := by
  rw [blockCount]
  split_ifs with hnil
  · simp [hnil]
  · have hmod := Nat.div_add_mod (h.kernel.length - 1) B
    have hlt := Nat.mod_lt (h.kernel.length - 1) hB
    rw [Nat.succ_mul, Nat.mul_comm]
    omega

theorem kernelBlocks_within (h : Heard B) (m i : Nat) (hi : B ≤ i) :
    ((signal h.kernelBlocks).coeff m).coeff i = 0 := by
  rw [coeff_signal, kernelBlocks, List.getElem?_map]
  cases hm : (blocks B h.blockCount h.kernel)[m]? with
  | none => rfl
  | some xs =>
    obtain ⟨k, -, rfl⟩ := List.mem_map.mp (List.mem_of_getElem? hm)
    refine coeff_signal_of_le (Nat.le_trans ?_ hi)
    rw [List.length_take]
    exact Nat.min_le_left B _

theorem playedBlocks_within (h : Heard B) (m i : Nat) (hi : B ≤ i) :
    ((signal h.playedBlocks).coeff m).coeff i = 0 := by
  rw [coeff_signal, playedBlocks, List.getElem?_map]
  cases h.played[m]? with
  | none => rfl
  | some x => exact coeff_signal_of_le (by rwa [Vector.length_toList])

theorem product_play (h : Heard B) (input : Vector ℝ B) :
    (h.play input).product =
      (signal h.kernelBlocks * signal (h.play input).playedBlocks).coeff h.played.length := by
  rw [product, play, List.length_append, List.length_singleton, Nat.add_sub_cancel]
  rfl

theorem playedBlocks_play (h : Heard B) (input : Vector ℝ B) :
    (h.play input).playedBlocks = h.playedBlocks ++ [signal input.toList] := by
  simp [playedBlocks, play]

/-- The output is the lower half of the product of the blocks and what was left over. -/
theorem output_eq (h : Heard B) (hB : 0 < B) (hkernel : h.kernel ≠ [])
    (hleft : h.played ≠ [] → ∀ j, h.leftover j = h.product.coeff (B + j)) (input : Vector ℝ B)
    {j : Nat} (hj : j < B) :
    h.output input j = (h.play input).product.coeff j + h.leftover j := by
  have hwhole : joined B (signal h.kernelBlocks * signal (h.play input).playedBlocks) =
      signal h.kernel * signal ((h.play input).played.flatMap Vector.toList) := by
    have hplayed : (h.play input).playedBlocks =
        ((h.play input).played.map Vector.toList).map signal := by
      simp [playedBlocks]
    rw [joined_mul, kernelBlocks, joined_blocks (h.length_le hB), hplayed, joined_flatten,
      List.flatMap_def]
    intro xs hxs
    obtain ⟨x, -, rfl⟩ := List.mem_map.mp hxs
    exact x.length_toList
  have hwithin : ∀ m i, 2 * B ≤ i →
      ((signal h.kernelBlocks * signal (h.play input).playedBlocks).coeff m).coeff i = 0 := by
    intro m i hi
    rw [coeff_mul, finsetSum_coeff]
    refine Finset.sum_eq_zero fun ij _ => ?_
    exact coeff_mul_eq_zero (h.kernelBlocks_within ij.1) ((h.play input).playedBlocks_within ij.2)
      (by omega)
  rw [output, if_neg hkernel, ← hwhole, coeff_joined hwithin _ hj, product_play, add_assoc]
  refine congrArg _ ?_
  by_cases hnil : h.played = []
  · rw [hnil, List.length_nil, if_pos rfl, if_pos rfl, zero_add]
  · have hpos : 0 < h.played.length := List.length_pos_iff.mpr hnil
    rw [if_neg hpos.ne', if_neg hnil, add_zero, hleft hnil, product]
    -- the earlier products have not heard this block
    refine congrArg (Polynomial.coeff · (B + j)) (coeff_mul_congr _ fun k hk => ?_)
    rw [coeff_signal, coeff_signal, playedBlocks_play, List.getElem?_append_left]
    rw [playedBlocks, List.length_map]
    omega

end Heard

/-- The convolver keeps the transforms of the kernel's blocks and of the latest inputs. -/
structure Represents [NeZero B] (spectrum : Z → ZMod (B * 2) → ℂ) (h : Heard B)
    (s : RealTimeConvolver ℝ Z B) : Prop where
  kernelBlocks_eq : s.kernelBlocks = h.blockCount
  kernelFfts : ∀ i < s.kernelBlocks, ∃ z, s.kernelFfts[i]? = some z ∧
    Spells spectrum z ((signal h.kernelBlocks).coeff i)
  inputPos_eq : h.kernel ≠ [] → s.inputPos = h.played.length % s.kernelBlocks
  inputFfts : ∃ zs, Holds s.inputFfts (h.played.length + 1) zs ∧
    List.Forall₂ (Spells spectrum) zs (window s.kernelBlocks h.playedBlocks)
  outputTail : ∀ j < B, s.outputTail[j]? = some ((B * 2 : Nat) * h.leftover j)
  leftover_eq : h.played ≠ [] → ∀ j, h.leftover j = h.product.coeff (B + j)

variable [NeZero B] {fft : Pffft ℝ Z (B * 2)} {spectrum : Z → ZMod (B * 2) → ℂ}

theorem spells_replicate (hfft : fft.Lawful spectrum) (n : Nat) :
    List.Forall₂ (Spells spectrum) (List.replicate n fft.cleared) (List.replicate n 0) := by
  induction n with
  | zero => exact .nil
  | succ n ih => exact .cons hfft.spells_cleared ih

theorem holds_cleared (n a : Nat) (z : Z) :
    Holds (Vector.replicate n z) a (List.replicate n z) := by
  refine ⟨(List.length_replicate).le, fun k hk => ?_⟩
  rw [List.length_replicate] at hk
  rw [Vector.getElem?_replicate, if_pos (Nat.mod_lt _ (by omega)), List.getElem?_replicate,
    if_pos hk]

theorem represents_new : Represents (B := B) spectrum {} (new : RealTimeConvolver ℝ Z B) where
  kernelBlocks_eq := rfl
  kernelFfts i hi := absurd hi (Nat.not_lt_zero i)
  inputPos_eq hk := absurd rfl hk
  inputFfts := ⟨[], Holds.nil _ _, .nil⟩
  outputTail j hj := by
    rw [new, Vector.getElem?_replicate, if_pos hj, mul_zero]
  leftover_eq hp := absurd rfl hp

theorem intOf_of_lt {n : Nat} (hn : n < 2 ^ 31) : intOf n = n := Int32.toInt_ofNat_of_lt hn

/-- Each block of a kernel is transformed, the last one as far as it goes. -/
theorem forward_block (hfft : fft.Lawful spectrum) (hB : B < 2 ^ 31) {h : Heard B}
    (hkernel : h.kernel ≠ []) (hlen : h.kernel.length < 2 ^ 31) {i : Nat} (hi : i < h.blockCount) :
    ∃ z, (do
        let len := min (intOf B) (intOf (h.kernel.length - i * B))
        let tmpBlock ← padded h.kernel (i * B) len
        some (fft.forward tmpBlock)) = some z ∧
      Spells spectrum z ((signal h.kernelBlocks).coeff i) := by
  have hpos : 0 < h.kernel.length := List.length_pos_iff.mpr hkernel
  have hstart : i * B < h.kernel.length := by
    have hle : i ≤ (h.kernel.length - 1) / B := by
      rw [Heard.blockCount, if_neg hkernel] at hi
      exact Nat.lt_succ_iff.mp hi
    have hmul := (Nat.le_div_iff_mul_le (NeZero.pos B)).mp hle
    omega
  have hmin : min (intOf B) (intOf (h.kernel.length - i * B)) =
      (min B (h.kernel.length - i * B) : Nat) := by
    rw [intOf_of_lt hB, intOf_of_lt (by omega), Nat.cast_min]
  obtain ⟨tmpBlock, htmp, hsignal⟩ := signal_padded (B := B) h.kernel (i * B)
    (min B (h.kernel.length - i * B)) (by omega) (by omega)
  refine ⟨fft.forward tmpBlock, ?_, ?_⟩
  · simp only [hmin, htmp, Option.bind_eq_bind, Option.bind_some]
  · have hblock : (signal h.kernelBlocks).coeff i = signal tmpBlock.toList := by
      rw [hsignal, ← List.length_drop, ← List.take_eq_take_min, coeff_signal, Heard.kernelBlocks,
        blocks, List.map_map, List.getElem?_map, List.getElem?_range hi]
      rfl
    rw [hblock]
    exact hfft.forward tmpBlock

theorem Represents.setKernel {h : Heard B} {s : RealTimeConvolver ℝ Z B}
    (hs : Represents spectrum h s) (hfft : fft.Lawful spectrum) (hB : B < 2 ^ 31)
    {kernel : Option (List ℝ)} (hkernel : (kernel.getD []).length < 2 ^ 31) :
    ∃ t, s.setKernel fft kernel = some t ∧ Represents spectrum (h.hear (.setKernel kernel)) t := by
  rw [RealTimeConvolver.setKernel, Heard.hear]
  generalize kernel.getD [] = kernel at hkernel
  by_cases hlen : 0 < kernel.length
  · have hne : kernel ≠ [] := List.length_pos_iff.mp hlen
    let h' : Heard B := { h with kernel := kernel, played := [] }
    have hcount : h'.blockCount = (kernel.length - 1) / B + 1 := if_neg hne
    have hblock (i : Nat) (hi : i < h'.blockCount) := forward_block hfft hB (h := h') hne hkernel hi
    rw [hcount] at hblock
    obtain ⟨kernelFfts, hfill⟩ : ∃ kernelFfts, Cells.fill?
        (.replicate ((kernel.length - 1) / B + 1) fft.cleared) 0 (fun i => do
          let len := min (intOf B) (intOf (kernel.length - i.toNat * B))
          let tmpBlock ← padded kernel (i.toNat * B) len
          some (fft.forward tmpBlock)) ((kernel.length - 1) / B + 1) = some kernelFfts :=
      Cells.fill?_exists_iff.mpr fun i hlo hhi => ⟨hlo, by omega,
        (hblock i.toNat (by omega)).imp fun _ hz => hz.1⟩
    refine ⟨{ kernelBlocks := (kernel.length - 1) / B + 1, kernelFfts
              inputFfts := .replicate _ fft.cleared
              outputTail := s.outputTail, inputPos := 0 }, ?_, ?_⟩
    · simp only [if_pos hlen]
      rw [hfill]
      rfl
    · refine ⟨hcount.symm, fun i hi => ?_, fun _ => (Nat.zero_mod _).symm, ?_, hs.outputTail,
        fun hp => absurd rfl hp⟩
      · change i < (kernel.length - 1) / B + 1 at hi
        obtain ⟨z, hz, hspells⟩ := hblock i hi
        refine ⟨z, ?_, hspells⟩
        rw [Cells.getElem?_fill? hfill, if_pos (by omega), ← hz]
        rfl
      · refine ⟨_, holds_cleared _ _ _, ?_⟩
        show List.Forall₂ _ _ (window _ [])
        rw [window, List.append_nil, List.length_nil, List.drop_zero]
        exact spells_replicate hfft _
  · obtain rfl : kernel = [] := List.length_eq_zero_iff.mp (by omega)
    refine ⟨_, if_neg hlen, rfl, fun i hi => absurd hi (Nat.not_lt_zero i), fun hk => absurd rfl hk,
      ⟨[], Holds.nil _ _, .nil⟩, hs.outputTail, fun hp => absurd rfl hp⟩

/-- The products of the kernel's blocks with the inputs at their distance add up. -/
theorem product_spells (hfft : fft.Lawful spectrum) {h : Heard B} {input : Vector ℝ B} {K a : Nat}
    {kernelFfts inputFfts : Vector Z K} {zs : List Z} (hK : K = h.blockCount)
    (hkernel : ∀ i < K, ∃ z, kernelFfts[i]? = some z ∧
      Spells spectrum z ((signal h.kernelBlocks).coeff i))
    (hinput : Holds inputFfts (a + 1) zs)
    (hspells : List.Forall₂ (Spells spectrum) zs (window K (h.play input).playedBlocks)) :
    ∃ z, (List.range K).foldlM (fun acc (i : Nat) => do
        let pos := ((a % K : Nat) - i + K : Int).tmod K
        let k ← kernelFfts[i]?
        let x ← Cells.read? inputFfts pos
        some (fft.zconvolveAccumulate k x acc 1)) fft.cleared = some z ∧
      Spells spectrum z (h.play input).product := by
  have hlength : zs.length = K := by rw [hspells.length_eq, length_window]
  have hkernelBlocks : ∀ i, K ≤ i → (signal h.kernelBlocks).coeff i = 0 := by
    intro i hi
    refine coeff_signal_of_le ?_
    rwa [Heard.kernelBlocks, blocks, List.length_map, List.length_map, List.length_range, ← hK]
  have hplayed : (h.play input).playedBlocks.length = h.played.length + 1 := by
    simp [Heard.playedBlocks, Heard.play]
  have hsum := sum_window (signal h.kernelBlocks) (h.play input).playedBlocks hkernelBlocks
    (by omega)
  rw [hplayed, Nat.add_sub_cancel, ← Heard.product_play] at hsum
  rw [← hsum]
  refine PartialRun.run_range (P := fun n z => Spells spectrum z (∑ i ∈ Finset.range n,
    (signal h.kernelBlocks).coeff i * (window K (h.play input).playedBlocks)[K - 1 - i]?.getD 0))
    hfft.spells_cleared fun i acc hi hacc => ?_
  obtain ⟨k, hk, hkspells⟩ := hkernel i hi
  have hin : K - 1 - i < zs.length := by omega
  have hin' : K - 1 - i < (window K (h.play input).playedBlocks).length := by
    rwa [← hspells.length_eq]
  have hx : Spells spectrum zs[K - 1 - i]
      ((window K (h.play input).playedBlocks)[K - 1 - i]?.getD 0) := by
    rw [List.getElem?_eq_getElem hin']
    exact hspells.get hin hin'
  have hwithin : ∀ m, B ≤ m →
      ((window K (h.play input).playedBlocks)[K - 1 - i]?.getD 0).coeff m = 0 := by
    intro m hm
    rw [getElem?_window _ hi, Option.getD_some]
    split_ifs
    · rw [← coeff_signal]
      exact (h.play input).playedBlocks_within _ m hm
    · exact coeff_zero m
  refine ⟨fft.zconvolveAccumulate k zs[K - 1 - i] acc 1, ?_, ?_⟩
  · simp only [hk, hinput.recent_from hlength hi, List.getElem?_eq_getElem hin,
      Option.bind_eq_bind, Option.bind_some]
  · rw [Finset.sum_range_succ]
    exact hfft.spells_accumulate hkspells hx hacc (h.kernelBlocks_within i) hwithin (by omega)

/-- The end of `processBlock`, from the unscaled product in `tmpBlock`. -/
theorem overlap_add {tmpBlock : Vector ℝ (B * 2)} {outputTail : Vector ℝ B} {p : ℝ[X]}
    {leftover : Nat → ℝ} (htmp : ∀ i < B * 2, tmpBlock[i]? = some ((B * 2 : Nat) * p.coeff i))
    (htail : ∀ j < B, outputTail[j]? = some ((B * 2 : Nat) * leftover j)) :
    ∃ added output tail,
      Cells.fill? tmpBlock 0 (fun i => do
        let v ← tmpBlock[i.toNat]?
        let tail ← outputTail[i.toNat]?
        some (v + tail)) B = some added ∧
      Cells.fill? (.replicate B 0) 0 (fun i => do
        let v ← added[i.toNat]?
        some (v * (1 / ((B * 2 : Nat) : ℝ)))) B = some output ∧
      Cells.fill? outputTail 0 (fun i => added[i.toNat + B]?) B = some tail ∧
      (∀ j < B, output[j]? = some (p.coeff j + leftover j)) ∧
      ∀ j < B, tail[j]? = some ((B * 2 : Nat) * p.coeff (B + j)) := by
  have hscale : ((B * 2 : Nat) : ℝ) ≠ 0 := Nat.cast_ne_zero.mpr (NeZero.ne _)
  have hsum (i : Nat) (hi : i < B) : (do
      let v ← tmpBlock[i]?
      let tail ← outputTail[i]?
      some (v + tail)) = some ((B * 2 : Nat) * (p.coeff i + leftover i)) := by
    rw [htmp i (by omega), htail i hi, mul_add]
    rfl
  obtain ⟨added, hadded⟩ : ∃ added, Cells.fill? tmpBlock 0 (fun i => do
      let v ← tmpBlock[i.toNat]?
      let tail ← outputTail[i.toNat]?
      some (v + tail)) B = some added :=
    Cells.fill?_exists_iff.mpr fun i hlo hhi => ⟨hlo, by omega, _, hsum i.toNat (by omega)⟩
  have hlow (j : Nat) (hj : j < B) : added[j]? = some ((B * 2 : Nat) * (p.coeff j + leftover j)) := by
    rw [Cells.getElem?_fill? hadded, if_pos (by omega), ← hsum j hj]
    rfl
  have hhigh (j : Nat) (hj : j < B) : added[j + B]? = some ((B * 2 : Nat) * p.coeff (B + j)) := by
    rw [Cells.getElem?_fill? hadded, if_neg (by omega), htmp _ (by omega), Nat.add_comm]
  have hscaled (j : Nat) (hj : j < B) : (do
      let v ← added[j]?
      some (v * (1 / ((B * 2 : Nat) : ℝ)))) = some (p.coeff j + leftover j) := by
    rw [hlow j hj, Option.bind_eq_bind, Option.bind_some]
    refine congrArg some ?_
    field_simp
  obtain ⟨output, houtput⟩ : ∃ output, Cells.fill? (.replicate B 0) 0 (fun i => do
      let v ← added[i.toNat]?
      some (v * (1 / ((B * 2 : Nat) : ℝ)))) B = some output :=
    Cells.fill?_exists_iff.mpr fun i hlo hhi => ⟨hlo, by omega, _, hscaled i.toNat (by omega)⟩
  obtain ⟨tail, htail'⟩ : ∃ tail, Cells.fill? outputTail 0 (fun i => added[i.toNat + B]?) B =
      some tail :=
    Cells.fill?_exists_iff.mpr fun i hlo hhi => ⟨hlo, by omega, _, hhigh i.toNat (by omega)⟩
  refine ⟨added, output, tail, hadded, houtput, htail', fun j hj => ?_, fun j hj => ?_⟩
  · rw [Cells.getElem?_fill? houtput, if_pos (by omega), ← hscaled j hj]
    rfl
  · rw [Cells.getElem?_fill? htail', if_pos (by omega), ← hhigh j hj]
    rfl

theorem Represents.processBlock {h : Heard B} {s : RealTimeConvolver ℝ Z B}
    (hs : Represents spectrum h s) (hfft : fft.Lawful spectrum) (input : Vector ℝ B) :
    ∃ output t, s.processBlock fft input = some (output, t) ∧
      (∀ j < B, output[j]? = some (h.output input j)) ∧
      Represents spectrum (h.hear (.processBlock input)) t := by
  rw [RealTimeConvolver.processBlock, Heard.hear]
  by_cases hkernel : h.kernel = []
  · have hzero : s.kernelBlocks = 0 := hs.kernelBlocks_eq.trans (if_pos hkernel)
    refine ⟨.replicate B 0, s, if_pos hzero, fun j hj => ?_, ?_⟩
    · rw [Vector.getElem?_replicate, if_pos hj, Heard.output, if_pos hkernel]
    · rw [if_pos hkernel]
      exact hs
  · have hcount : s.kernelBlocks = (h.kernel.length - 1) / B + 1 :=
      hs.kernelBlocks_eq.trans (if_neg hkernel)
    have hK : 0 < s.kernelBlocks := Nat.lt_of_lt_of_eq (Nat.succ_pos _) hcount.symm
    have hpos : (s.inputPos + 1) % s.kernelBlocks = (h.played.length + 1) % s.kernelBlocks := by
      rw [hs.inputPos_eq hkernel, Nat.mod_add_mod]
    obtain ⟨zs, hholds, hspells⟩ := hs.inputFfts
    have hfull : zs.length = s.kernelBlocks := by rw [hspells.length_eq, length_window]
    obtain ⟨tmpBlock, htmp, hsignal⟩ := signal_padded (B := B) input.toList 0 B (by simp)
      (by omega)
    rw [List.drop_zero, List.take_of_length_le (by simp)] at hsignal
    obtain ⟨inputFfts, hwrite, hring⟩ := hholds.slide_one hfull hK (fft.forward tmpBlock)
    have hring' : List.Forall₂ (Spells spectrum) ((zs ++ [fft.forward tmpBlock]).drop 1)
        (window s.kernelBlocks (h.play input).playedBlocks) := by
      rw [Heard.playedBlocks_play, window_append]
      refine List.forall₂_drop 1 (List.rel_append hspells (.cons ?_ .nil))
      rw [← hsignal]
      exact hfft.forward tmpBlock
    obtain ⟨product, hproduct, hspell⟩ := product_spells hfft hs.kernelBlocks_eq hs.kernelFfts
      hring hring'
    obtain ⟨added, output, outputTail, hadded, houtput, htail, hout, hnext⟩ :=
      overlap_add (hfft.backward _ _ hspell) hs.outputTail
    refine ⟨output, { s with
        inputFfts, outputTail, inputPos := (h.played.length + 1) % s.kernelBlocks },
      ?_, fun j hj => ?_, ?_⟩
    · simp only [Option.bind_eq_bind] at hproduct hadded houtput
      simp only [if_neg hK.ne', hpos, htmp, hwrite, hproduct, hadded, houtput, htail,
        Option.bind_eq_bind, Option.bind_some]
    · rw [hout j hj, h.output_eq (NeZero.pos B) hkernel hs.leftover_eq input hj]
    · rw [if_neg hkernel]
      have hlen : (h.play input).played.length = h.played.length + 1 := by
        rw [Heard.play, List.length_append, List.length_singleton]
      refine ⟨hs.kernelBlocks_eq, hs.kernelFfts, fun _ => ?_, ⟨_, ?_, hring'⟩, hnext,
        fun _ _ => rfl⟩
      · exact congrArg (· % s.kernelBlocks) hlen.symm
      · show Holds inputFfts ((h.play input).played.length + 1) _
        rw [hlen]
        exact hring

theorem represents_run (hfft : fft.Lawful spectrum) (hB : B < 2 ^ 31)
    {calls : List (ConvolverCall ℝ B)}
    (hcalls : ∀ kernel, .setKernel (some kernel) ∈ calls → kernel.length < 2 ^ 31) :
    ∃ s, PartialRun.run (next fft) (new : RealTimeConvolver ℝ Z B) calls = some s ∧
      Represents spectrum (calls.foldl Heard.hear {}) s := by
  induction calls using List.reverseRecOn with
  | nil => exact ⟨new, rfl, represents_new⟩
  | append_singleton calls call ih =>
    obtain ⟨s, hrun, hs⟩ := ih fun kernel hk => hcalls kernel (List.mem_append_left _ hk)
    rw [PartialRun.run_concat, hrun, Option.bind_some, List.foldl_concat]
    cases call with
    | setKernel kernel =>
      refine hs.setKernel hfft hB ?_
      cases kernel with
      | none => exact Nat.two_pow_pos 31
      | some kernel => exact hcalls kernel (List.mem_append_right _ List.mem_cons_self)
    | processBlock input =>
      obtain ⟨output, t, hprocess, -, ht⟩ := hs.processBlock hfft input
      exact ⟨t, by rw [next, hprocess]; rfl, ht⟩

end

end RealTimeConvolver

end PluginSdk
