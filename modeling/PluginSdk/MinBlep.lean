import Mathlib.Algebra.Module.Defs
import Mathlib.Data.Rat.Floor
import Mathlib.Tactic.Linarith
import PluginSdk.MinBlepTables
import PluginSdk.RingAccumulator

/-! The two precomputed generators of band-limited steps, in exact arithmetic.
A read outside the table or the buffer fails. Each discontinuity adds the rest
of the band-limited step to the values to come. -/

namespace PluginSdk

open RingAccumulator

/-- A conversion to `int` drops the fraction. -/
def truncate (x : ℚ) : Int := x.num.tdiv x.den

def crossfade (a b p : ℚ) : ℚ := a + (b - a) * p

def readAt (p : List ℚ) (i : Int) : Option ℚ := if 0 ≤ i then p[i.toNat]? else none

def interpolateLinear (p : List ℚ) (x : ℚ) : Option ℚ := do
  let xi := truncate x
  let xf := x - xi
  let a ← readAt p xi
  let b ← readAt p (xi + 1)
  some (crossfade a b xf)

theorem truncate_eq_floor {x : ℚ} (hx : 0 ≤ x) : truncate x = ⌊x⌋₊ := by
  rw [Int.natCast_floor_eq_floor hx, Rat.floor_def', truncate,
    Int.tdiv_eq_ediv_of_nonneg (Rat.num_nonneg.mpr hx)]

/-- An index below `n` is between two entries if the table goes on to `n`. -/
theorem interpolateLinear_eq {table : List ℚ} {x : ℚ} {n : Nat} (hx : 0 ≤ x) (hn : x < n)
    (hlen : n < table.length) :
    ⌊x⌋₊ < n ∧ ∃ a b, table[⌊x⌋₊]? = some a ∧ table[⌊x⌋₊ + 1]? = some b ∧
      interpolateLinear table x = some (crossfade a b (x - ⌊x⌋₊)) := by
  have hfloor : ⌊x⌋₊ < n := (Nat.floor_lt hx).mpr hn
  have ha := List.getElem?_eq_getElem (hfloor.trans hlen)
  have hb := List.getElem?_eq_getElem (Nat.lt_of_le_of_lt hfloor hlen)
  have hread (i : Nat) : readAt table (i : Int) = table[i]? := by
    rw [readAt, if_pos (Int.natCast_nonneg i), Int.toNat_natCast]
  have hread' : readAt table ((⌊x⌋₊ : Int) + 1) = table[⌊x⌋₊ + 1]? := by
    rw [← Nat.cast_succ, hread]
  refine ⟨hfloor, _, _, ha, hb, ?_⟩
  rw [interpolateLinear]
  simp only [truncate_eq_floor hx, hread, hread', ha, hb, Int.cast_natCast]
  rfl

/-- The specialisations, by the arguments they are chosen for. Neither has the
sizes that its arguments state. -/
inductive Precomputed
  | float_16_32
  | float_4_16_16
  deriving DecidableEq, Repr

namespace Precomputed

def Z : Precomputed → Nat
  | float_16_32 => 4
  | float_4_16_16 => 4

def O : Precomputed → Nat
  | float_16_32 => 32
  | float_4_16_16 => 32

def impulse : Precomputed → List ℚ
  | float_16_32 => minBlep_4_32
  | float_4_16_16 => minBlep_16_16

def lanes : Precomputed → Nat
  | float_16_32 => 1
  | float_4_16_16 => 4

end Precomputed

structure MinBlepGenerator (Z : Nat) (T : Type) where
  buf : Vector T (2 * Z)
  pos : Nat

inductive MinBlepCall (T : Type)
  | insertDiscontinuity (p : ℚ) (x : T)
  | process

section

variable {T : Type}

namespace MinBlepCall

def event : MinBlepCall T → Option (Event (ℚ × T))
  | .insertDiscontinuity p x => if -1 < p ∧ p ≤ 0 then some (.add (p, x)) else none
  | .process => some .pop

def isProcess : MinBlepCall T → Bool
  | .insertDiscontinuity _ _ => false
  | .process => true

end MinBlepCall

/-- The discontinuities in range, in their order, each with the number of
`process` calls before it. -/
def discontinuities (calls : List (MinBlepCall T)) : List (Nat × ℚ × T) :=
  additions 0 (calls.filterMap MinBlepCall.event)

theorem discontinuities_in_range {calls : List (MinBlepCall T)} {d : Nat × ℚ × T}
    (hd : d ∈ discontinuities calls) : -1 < d.2.1 ∧ d.2.1 ≤ 0 := by
  obtain ⟨call, -, hcall⟩ := List.mem_filterMap.mp (mem_of_mem_additions hd)
  cases call with
  | process => cases hcall
  | insertDiscontinuity p x =>
    rw [MinBlepCall.event] at hcall
    split_ifs at hcall with hp
    have hd' : (p, x) = d.2 := Event.add.inj (Option.some.inj hcall)
    rw [← hd']
    exact hp

theorem pops_filterMap_event (calls : List (MinBlepCall T)) :
    pops (calls.filterMap MinBlepCall.event) = calls.countP MinBlepCall.isProcess := by
  induction calls with
  | nil => rfl
  | cons call calls ih =>
    cases call with
    | process =>
      rw [List.countP_cons_of_pos rfl, ← ih]
      rfl
    | insertDiscontinuity p x =>
      have hskip : (MinBlepCall.insertDiscontinuity p x :: calls).countP MinBlepCall.isProcess =
          calls.countP MinBlepCall.isProcess := List.countP_cons_of_neg Bool.false_ne_true
      rw [hskip, List.filterMap_cons, MinBlepCall.event, ← ih]
      split_ifs <;> rfl

variable [AddMonoid T] [SMul ℚ T] (g : Precomputed)

/-- What a discontinuity adds `j` frames after the current one. -/
def correction (p : ℚ) (x : T) (j : Nat) : Option T :=
  let minBlepIndex := ((j : ℚ) - p) * g.O
  (interpolateLinear g.impulse minBlepIndex).map fun y => (-1 + y) • x

namespace MinBlepGenerator

def init (Z : Nat) : MinBlepGenerator Z T := ⟨Vector.replicate (2 * Z) 0, 0⟩

variable (s : MinBlepGenerator g.Z T)

def insertDiscontinuity (p : ℚ) (x : T) : Option (MinBlepGenerator g.Z T) :=
  if ¬(-1 < p ∧ p ≤ 0) then some s
  else do
    let buf ← (List.range (2 * g.Z)).foldlM (fun buf j => do
      let index := (s.pos + j) &&& (2 * g.Z - 1)
      addAt buf index (← correction g p x j)) s.buf
    some { s with buf }

def process : Option (T × MinBlepGenerator g.Z T) := do
  let v ← s.buf[s.pos]?
  let buf ← clearAt s.buf s.pos
  some (v, ⟨buf, (s.pos + 1) % (2 * g.Z)⟩)

end MinBlepGenerator

/-- One call, with the values returned so far. -/
def minBlepStep (s : MinBlepGenerator g.Z T × List T) :
    MinBlepCall T → Option (MinBlepGenerator g.Z T × List T)
  | .insertDiscontinuity p x => do
    let gen ← s.1.insertDiscontinuity g p x
    some (gen, s.2)
  | .process => do
    let (v, gen) ← s.1.process g
    some (gen, s.2 ++ [v])

def minBlepRun (calls : List (MinBlepCall T)) : Option (MinBlepGenerator g.Z T × List T) :=
  PartialRun.run (minBlepStep g) (.init g.Z, []) calls

variable {g}

theorem Precomputed.impulse_covers (g : Precomputed) : 2 * g.Z * g.O < g.impulse.length := by
  cases g
  · exact (by decide +kernel : 256 < minBlep_4_32_millionths.length).trans_eq
      (length_ofMillionths _).symm
  · exact (by decide +kernel : 256 < minBlep_16_16_millionths.length).trans_eq
      (length_ofMillionths _).symm

theorem Precomputed.O_pos (g : Precomputed) : 0 < g.O := by cases g <;> decide

theorem index_nonneg {p : ℚ} (hp : p ≤ 0) (j : Nat) : 0 ≤ ((j : ℚ) - p) * g.O :=
  mul_nonneg (by linarith [Nat.cast_nonneg (α := ℚ) j]) (Nat.cast_nonneg _)

theorem index_lt {p : ℚ} (hp : -1 < p) {j : Nat} (hj : j < 2 * g.Z) :
    ((j : ℚ) - p) * g.O < (2 * g.Z * g.O : Nat) := by
  have hnext : (j : ℚ) + 1 ≤ (2 * g.Z : Nat) := by exact_mod_cast hj
  have hO : (0 : ℚ) < g.O := by exact_mod_cast g.O_pos
  rw [Nat.cast_mul]
  exact mul_lt_mul_of_pos_right (by linarith) hO

/-- All reads for an accepted discontinuity are inside the table. -/
theorem interpolateLinear_impulse {p : ℚ} (hp : -1 < p) (hp' : p ≤ 0) {j : Nat}
    (hj : j < 2 * g.Z) :
    ∃ y, interpolateLinear g.impulse (((j : ℚ) - p) * g.O) = some y := by
  obtain ⟨-, a, b, -, -, hy⟩ :=
    interpolateLinear_eq (index_nonneg hp' j) (index_lt hp hj) g.impulse_covers
  exact ⟨_, hy⟩

variable (g)

/-- The response to a discontinuity as the ring sees it. -/
def response (d : ℚ × T) (j : Nat) : T := (correction g d.1 d.2 j).getD 0

variable {g}

theorem correction_eq_response {p : ℚ} (hp : -1 < p) (hp' : p ≤ 0) (x : T) {j : Nat}
    (hj : j < 2 * g.Z) : correction g p x j = some (response g (p, x) j) := by
  obtain ⟨y, hy⟩ := interpolateLinear_impulse hp hp' hj
  have hcorrection : correction g p x j = some ((-1 + y) • x) := by
    rw [correction, hy]
    rfl
  rw [response, hcorrection, Option.getD_some]

theorem mask_eq_mod (g : Precomputed) (i : Nat) : i &&& (2 * g.Z - 1) = i % (2 * g.Z) := by
  cases g <;> exact Nat.and_two_pow_sub_one_eq_mod i 3

section

variable {calls : List (MinBlepCall T)} {s : MinBlepGenerator g.Z T} {outputs : List T}

/-- The buffer holds what is still to come after the calls, and the outputs are
what came. -/
def Renders (g : Precomputed) (calls : List (MinBlepCall T)) (s : MinBlepGenerator g.Z T)
    (outputs : List T) : Prop :=
  Superposes (2 * g.Z) (response g) (calls.filterMap MinBlepCall.event) s.buf s.pos outputs

theorem insertDiscontinuity_renders (h : Renders g calls s outputs) (p : ℚ) (x : T) :
    ∃ t, s.insertDiscontinuity g p x = some t ∧
      Renders g (calls ++ [.insertDiscontinuity p x]) t outputs := by
  by_cases hp : -1 < p ∧ p ≤ 0
  · have hevent : [MinBlepCall.insertDiscontinuity p x].filterMap MinBlepCall.event =
        [.add (p, x)] := List.filterMap_cons_some (if_pos hp)
    obtain ⟨buf, hrun, hbuf⟩ := Superposes.add h (p, x)
    have hloop : (List.range (2 * g.Z)).foldlM (fun buf j => do
        addAt buf ((s.pos + j) &&& (2 * g.Z - 1)) (← correction g p x j)) s.buf = some buf := by
      rw [← hrun]
      refine PartialRun.run_congr (fun j hj cells => ?_) s.buf
      rw [correction_eq_response hp.1 hp.2 x (List.mem_range.mp hj), mask_eq_mod]
      rfl
    refine ⟨{ s with buf }, ?_, ?_⟩
    · rw [MinBlepGenerator.insertDiscontinuity, if_neg (not_not.mpr hp), hloop]
      rfl
    · rw [Renders, List.filterMap_append, hevent]
      exact hbuf
  · have hevent : [MinBlepCall.insertDiscontinuity p x].filterMap MinBlepCall.event = [] :=
      List.filterMap_cons_none (if_neg hp)
    refine ⟨s, if_pos hp, ?_⟩
    rw [Renders, List.filterMap_append, hevent, List.append_nil]
    exact h

theorem process_renders (h : Renders g calls s outputs) :
    ∃ v t, s.process g = some (v, t) ∧ Renders g (calls ++ [.process]) t (outputs ++ [v]) := by
  obtain ⟨v, buf, hv, hclear, hnext⟩ := Superposes.pop h
  refine ⟨v, ⟨buf, (s.pos + 1) % (2 * g.Z)⟩, ?_, ?_⟩
  · rw [MinBlepGenerator.process, hv, Option.bind_eq_bind, Option.bind_some, hclear]
    rfl
  · rw [Renders, List.filterMap_append]
    exact hnext

theorem minBlepRun_renders (g : Precomputed) (calls : List (MinBlepCall T)) :
    ∃ s, minBlepRun g calls = some s ∧ Renders g calls s.1 s.2 := by
  have hZ : 0 < 2 * g.Z := by cases g <;> decide
  have hany : PartialRun.Follows (fun _ _ => True) calls := fun _ _ _ _ => trivial
  unfold minBlepRun
  refine PartialRun.run_induction
    (P := fun calls (s : MinBlepGenerator g.Z T × List T) => Renders g calls s.1 s.2) ?_ ?_ hany
  · exact superposes_init hZ
  · intro calls call s h _
    cases call with
    | insertDiscontinuity p x =>
      obtain ⟨t, ht, hrenders⟩ := insertDiscontinuity_renders h p x
      refine ⟨(t, s.2), ?_, hrenders⟩
      rw [minBlepStep, ht]
      rfl
    | process =>
      obtain ⟨v, t, ht, hrenders⟩ := process_renders h
      refine ⟨(t, s.2 ++ [v]), ?_, hrenders⟩
      rw [minBlepStep, ht]
      rfl

end

theorem mapM_eq_some {α β : Type} {f : α → Option β} {h : α → β} {l : List α}
    (hf : ∀ a ∈ l, f a = some (h a)) : l.mapM f = some (l.map h) := by
  induction l with
  | nil => rfl
  | cons a l ih =>
    rw [List.mapM_cons, hf a List.mem_cons_self, ih fun b hb => hf b (List.mem_cons_of_mem _ hb)]
    rfl

/-- Any calls in any order succeed, so all reads are in the table and `pos` in
the buffer, and the `n`-th value is the sum of what the discontinuities of the
latest frames add to it. -/
theorem minBlepRun_superposition (g : Precomputed) (calls : List (MinBlepCall T)) :
    ∃ s outputs, minBlepRun g calls = some (s, outputs) ∧ s.pos < 2 * g.Z ∧
      outputs.length = calls.countP MinBlepCall.isProcess ∧
      ∀ n < outputs.length, outputs[n]? =
        (((discontinuities calls).filter fun d => d.1 ≤ n ∧ n < d.1 + 2 * g.Z).mapM fun d =>
          (interpolateLinear g.impulse (((n : ℚ) - d.1 - d.2.1) * g.O)).map
            fun y => (-1 + y) • d.2.2).map List.sum := by
  obtain ⟨⟨s, outputs⟩, hrun, hrenders⟩ := minBlepRun_renders g calls
  have houtputs := hrenders.outputs_eq
  dsimp only at houtputs
  have hlength : outputs.length = calls.countP MinBlepCall.isProcess := by
    rw [houtputs, List.length_map, List.length_range, pops_filterMap_event]
  refine ⟨s, outputs, hrun, hrenders.pos_lt, hlength, fun n hn => ?_⟩
  have hvalue : outputs[n]? = some (superposition (2 * g.Z) (response g)
      (calls.filterMap MinBlepCall.event) n) := by
    rw [hlength, ← pops_filterMap_event] at hn
    rw [houtputs, List.getElem?_map, List.getElem?_range hn, Option.map_some]
  rw [hvalue, mapM_eq_some (h := fun d => response g d.2 (n - d.1))]
  · rfl
  · intro d hd
    obtain ⟨hmem, hwindow⟩ := List.mem_filter.mp hd
    obtain ⟨hle, hlt⟩ := of_decide_eq_true hwindow
    obtain ⟨hp, hp'⟩ := discontinuities_in_range hmem
    have hage : (n : ℚ) - d.1 = (n - d.1 : Nat) := (Nat.cast_sub hle).symm
    have hyoung : n - d.1 < 2 * g.Z := by omega
    rw [hage]
    exact correction_eq_response hp hp' d.2.2 hyoung

end

end PluginSdk
